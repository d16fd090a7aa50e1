import Novachains.Util.CfgShape

/-!
# What a dump has

A dump that does not leave out default values has one element for each field, with the value of the
member, unless it leaves out what is not configured; then come the entries of no field.  It is what
`change` and an update restore from, and what `deleteConf` compares with.
-/

namespace Novachains.Util.Cfg

open List

def Field.elem (f : Field) (m : Member) : Elem :=
  match f.kind with
  | .int _ _ => .number m.int
  | .string _ _ => .string m.str
  | .boolean _ => .string (boolText m.bool)

namespace State
variable {st : State} {mask : Mask}

theorem save_eq (hnormal : mask.skipNormalDefault = false) (hhide : mask.skipHideDefault = false)
    {f : Field} (hlocal : mask.localMode = false ∨ f.level ≠ .reboot) :
    st.save mask f = if mask.skipUnField && !st.dumpMark f then []
      else [(f.name, f.elem (st.members f.name))] := by
  have hskips : ∀ b, st.skipsField mask f b = (mask.skipUnField && !st.dumpMark f) := by
    intro b
    simp [skipsField, hnormal, hhide]
  have hwrites : ∀ same, st.writesMember mask f same = true := by
    intro same
    unfold writesMember
    rcases hlocal with h | h
    · simp [h]
    · simp [h]
  unfold save saveInt saveString Field.elem
  cases f.kind <;> simp [hskips, hwrites]

theorem name_of_mem_save {f : Field} {e : Text × Elem} (h : e ∈ st.save mask f) :
    e.1 = f.name := by
  unfold save saveInt saveString at h
  cases hk : f.kind <;> simp only [hk] at h <;> split_ifs at h <;> simp_all

theorem lookup_flatMap_save {fields : List Field} (hnd : (fields.map Field.name).Nodup) {f : Field}
    (hf : f ∈ fields) :
    (fields.flatMap (st.save mask)).lookup f.name = (st.save mask f).lookup f.name := by
  have hother : ∀ g : Field, g.name ≠ f.name → (st.save mask g).lookup f.name = none := by
    intro g hg
    rw [lookup_eq_none_iff]
    intro e he
    rw [name_of_mem_save he]
    simpa using hg.symm
  induction fields with
  | nil => cases hf
  | cons g fields ih =>
    rw [map_cons, nodup_cons] at hnd
    rw [flatMap_cons, lookup_append]
    rcases mem_cons.mp hf with rfl | hf
    · have hrest : (fields.flatMap (st.save mask)).lookup f.name = none := by
        rw [lookup_eq_none_iff]
        intro e he
        obtain ⟨g, hg, he⟩ := mem_flatMap.mp he
        rw [name_of_mem_save he]
        have hne : f.name ≠ g.name := fun heq => hnd.1 (heq ▸ List.mem_map_of_mem hg)
        simpa using hne
      rw [hrest, Option.or_none]
    · have hne : g.name ≠ f.name := fun heq => hnd.1 (heq ▸ List.mem_map_of_mem hf)
      rw [hother g hne, Option.none_or, ih hnd.2 hf]

def unmappedElements (st : State) : Obj :=
  (st.map.entries.filter fun e => !e.2.hasMapped).map fun e => (e.1, .string e.2.value)

/-- **What a dump has under the name of a field.** -/
theorem lookup_dump {rec : Record} (hnormal : mask.skipNormalDefault = false)
    (hhide : mask.skipHideDefault = false) {f : Field} (hf : f ∈ rec.fields)
    (hlocal : mask.localMode = false ∨ f.level ≠ .reboot) :
    (st.dump rec.fields mask).lookup f.name =
      if mask.skipUnField && !st.dumpMark f then st.unmappedElements.lookup f.name
      else some (f.elem (st.members f.name)) := by
  unfold dump
  rw [lookup_append, lookup_flatMap_save rec.nodup hf, save_eq hnormal hhide hlocal]
  split
  · rfl
  · simp

theorem lookup_unmappedElements (a : Text) : st.unmappedElements.lookup a =
    (st.map.lookup a).bind fun p => if p.hasMapped then none else some (.string p.value) := by
  unfold unmappedElements AList.lookup
  generalize hl : st.map.entries = l
  have hnd : l.NodupKeys := hl ▸ st.map.nodupKeys
  clear hl
  induction l with
  | nil => rfl
  | cons e l ih =>
    rw [nodupKeys_cons] at hnd
    obtain ⟨k, p⟩ := e
    have hrest := ih hnd.2
    by_cases hk : a = k
    · subst hk
      rw [dlookup_eq_none.mpr hnd.1] at hrest
      rw [dlookup_cons_eq]
      cases hm : p.hasMapped with
      | true => simpa [hm] using hrest
      | false => simp [hm]
    · have hbeq : (a == k) = false := beq_eq_false_iff_ne.mpr hk
      rw [dlookup_cons_ne l ⟨k, p⟩ hk, ← hrest]
      cases hm : p.hasMapped <;> simp [hm, lookup_cons, hbeq]

end State

end Novachains.Util.Cfg
