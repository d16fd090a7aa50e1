import Novachains.Util.CfgDump

/-!
# Deleting configuration items

`deleteConf` keeps of its argument what the dump of the current configuration does not have, and
makes a whole update with it.  So the items to delete are those that stay, if they were not
configured, and all others fall back to their default values.
-/

namespace Novachains.Util.Cfg

open Lib List

def Field.HasDefault (f : Field) (m : Member) : Prop :=
  match f.kind with
  | .int default _ => m.int = default
  | .string len default => m.str = clip len default
  | .boolean default => m.bool = default

def State.marked (st : State) (name : Text) : Bool := (st.map.lookup name).any ParamValue.hasField

structure Field.Plain (f : Field) : Prop where
  optional : f.required = false
  level_eq : f.level = .run
  kind_eq : (∃ default, f.kind = .int default []) ∨ ∃ len default, f.kind = .string len default

def Record.Plain (rec : Record) : Prop := ∀ f ∈ rec.fields, f.Plain

/-- The fields with these names have their default values and no mark, and the others are as they
were. -/
def Record.DeletesOnly (rec : Record) (names : List Text) (st st' : State) : Prop :=
  ∀ f ∈ rec.fields,
    (f.name ∈ names → f.HasDefault (st'.members f.name) ∧ st'.marked f.name = false) ∧
    (f.name ∉ names → st'.members f.name = st.members f.name ∧ st'.marked f.name = st.marked f.name)

theorem Field.hasDefault_iff {f : Field} (hf : f.Plain) (m : Member) :
    f.HasDefault m ↔ f.assign f.defaultText m = m := by
  unfold HasDefault assign defaultText
  rcases hf.kind_eq with ⟨default, hk⟩ | ⟨len, default, hk⟩
  · rw [hk]
    obtain ⟨i, s, b⟩ := m
    simp [eq_comm]
  · rw [hk]
    obtain ⟨i, s, b⟩ := m
    simp [eq_comm]

theorem Field.Plain.check_eq {f : Field} (hf : f.Plain) (m : Member) : f.check m = (.ok, m) := by
  unfold check
  rcases hf.kind_eq with ⟨default, hk⟩ | ⟨len, default, hk⟩
  · rw [hk]
    rfl
  · rw [hk]

/-! ## What the update takes -/

namespace Record
variable {rec : Record} {st st' : State} {objData : Obj} {f : Field}

theorem lookup_filter_name (keep : Text → Bool) (obj : Obj) (name : Text) :
    (obj.filter fun e => keep e.1).lookup name = if keep name then obj.lookup name else none := by
  induction obj with
  | nil => simp
  | cons e es ih =>
    obtain ⟨k, v⟩ := e
    rw [filter_cons]
    by_cases hk : name = k
    · subst hk
      cases hc : keep name <;> simp [hc, ih]
    · have hbeq : (name == k) = false := beq_eq_false_iff_ne.mpr hk
      cases hc : keep k <;> simp [lookup_cons, hbeq, ih]

theorem lookup_keptElements (curConf objData : Obj) (name : Text) :
    (keptElements curConf objData).lookup name =
      if (curConf.lookup name).isSome then none else objData.lookup name := by
  have hany : (curConf.any fun c => c.1 = name) = (curConf.lookup name).isSome := by
    induction curConf with
    | nil => rfl
    | cons c cs ih =>
      rw [any_cons, ih, lookup_cons]
      by_cases hc : c.1 = name
      · simp [hc]
      · have hbeq : (name == c.1) = false := beq_eq_false_iff_ne.mpr (Ne.symm hc)
        simp [hc, hbeq]
  unfold keptElements
  rw [lookup_filter_name fun a => !curConf.any fun c => c.1 = a, hany]
  cases (curConf.lookup name).isSome <;> rfl

theorem isSome_lookup_dump (hplain : rec.Plain) (hst : st.Shaped) (hf : f ∈ rec.fields) :
    ((st.dump rec.fields deleteMask).lookup f.name).isSome = st.marked f.name := by
  have hlevel := (hplain f hf).level_eq
  have hmark : st.dumpMark f = st.marked f.name := by
    unfold State.dumpMark State.marked
    rw [hlevel]
  rw [State.lookup_dump rfl rfl hf (.inr (by rw [hlevel]; decide)), hmark,
    State.lookup_unmappedElements]
  unfold State.marked
  cases hentry : st.map.lookup f.name with
  | none => simp [deleteMask]
  | some p =>
    cases hfield : p.hasField with
    | true => simp [hfield]
    | false =>
      -- An entry of no field would be marked.
      have hmapped : p.hasMapped = true := by
        by_contra hm
        have := hst f.name p hentry (by simpa using hm)
        simp [hfield] at this
      simp [deleteMask, hfield, hmapped]

/-- The exchange of the update that `deleteConf` makes. -/
def deleteExchange (rec : Record) (st : State) (objData : Obj) : Exchange :=
  updateExchange (keptElements (st.dump rec.fields deleteMask) objData) true

theorem takes_deleteExchange (hplain : rec.Plain) (hst : st.Shaped) (hf : f ∈ rec.fields)
    (objData : Obj) :
    (rec.deleteExchange st objData).takes f =
      match (if st.marked f.name then none else objData.lookup f.name) with
      | none => .ok (some (f.defaultText, false))
      | some e =>
        match f.read e with
        | some text => .ok (some (text, true))
        | none => .error .invalidArg := by
  have hfind : (rec.deleteExchange st objData).src.find f.name =
      if st.marked f.name then none else objData.lookup f.name := by
    refine (lookup_keptElements _ _ _).trans ?_
    rw [isSome_lookup_dump hplain hst hf]
  have hskips : (rec.deleteExchange st objData).skips f.name = false := rfl
  unfold Exchange.takes
  rw [hskips, hfind, (hplain f hf).optional]
  split
  next hcontra => cases hcontra
  · cases (if st.marked f.name then none else objData.lookup f.name) <;> rfl

theorem Merged.plain {ex : Exchange} (h : rec.Merged ex st st') (hf : f ∈ rec.fields)
    (hplain : f.Plain) {t : Text × Bool} (ht : ex.takes f = .ok (some t)) :
    st'.members f.name = f.assign t.1 (st.members f.name) ∧ st'.marked f.name = t.2 := by
  have ha : ex.assigns f.level = true := by
    unfold Exchange.assigns
    rw [hplain.level_eq]
    simp [Level.allowRunChange]
  constructor
  · rw [h.member_eq f hf, Exchange.member_act ht, hplain.check_eq, Exchange.taken, if_pos ha]
    rfl
  · rw [State.marked, h.taken f hf t ht ha]
    rfl

theorem mem_names_iff {name : Text} :
    name ∈ objData.map Prod.fst ↔ ∃ e, objData.lookup name = some e := by
  have hnone : (Source.bson objData).find name = none ↔ ∀ e ∈ objData, e.1 ≠ name :=
    Source.find_eq_none_iff
  rw [Source.find] at hnone
  rw [← Option.ne_none_iff_exists', ne_eq, hnone, List.mem_map]
  push Not
  rfl

/-- **`deleteConf` deletes the named fields and nothing else exactly if these are the configured
ones, and the others have their defaults.** -/
theorem deletesOnly_iff (hplain : rec.Plain)
    (hreach : (rec.system (fun _ => True) fun _ hooks _ _ => hooks = .base).Reachable st)
    (objData : Obj) {fuel : ℕ} {err : ErrorObj}
    (h : rec.deleteConf .base fuel st objData = some (.ok, err, st')) :
    rec.DeletesOnly (objData.map Prod.fst) st st' ↔ ∀ f ∈ rec.fields,
      (f.name ∈ objData.map Prod.fst ↔ st.marked f.name = true) ∧
      (f.name ∉ objData.map Prod.fst → f.HasDefault (st.members f.name)) := by
  have hst : st.Shaped := by
    refine reachable_shaped (fun _ hooks _ _ hbase => ?_) hreach
    rw [hbase]
    exact Hooks.base_inert
  have hmerged : rec.Merged (rec.deleteExchange st objData) st st' := by
    cases deleteConf_outcome Hooks.base_inert (reachable_unlocked hreach) h with
    | refused hrc => exact absurd rfl hrc
    | merged hloads hok hview =>
      exact merged_of_view rfl hloads hok hview
    | failed hloads hrc => exact absurd rfl hrc
  refine forall₂_congr fun f hf => ?_
  have hplainf := hplain f hf
  have hdefault : ∀ m, f.HasDefault (f.assign f.defaultText m) := fun m =>
    (Field.hasDefault_iff hplainf _).mpr (f.assign_assign _ _ m)
  have htakes := takes_deleteExchange hplain hst hf objData
  rw [mem_names_iff]
  cases hmark : st.marked f.name with
  | true =>
    rw [hmark, if_pos rfl] at htakes
    obtain ⟨hmember, hmark'⟩ := hmerged.plain hf hplainf htakes
    rw [hmember, hmark']
    by_cases hnamed : ∃ e, objData.lookup f.name = some e <;> simp [hnamed, hdefault]
  | false =>
    rw [hmark, if_neg Bool.false_ne_true] at htakes
    cases hlookup : objData.lookup f.name with
    | none =>
      rw [hlookup] at htakes
      obtain ⟨hmember, hmark'⟩ := hmerged.plain hf hplainf htakes
      rw [hmember, hmark']
      simp [Field.hasDefault_iff hplainf]
    | some e =>
      rw [hlookup] at htakes
      obtain ⟨t, ht⟩ := Exchange.takes_of_act (hmerged.passes f hf)
      dsimp only at htakes
      cases hread : f.read e with
      | none =>
        rw [hread, ht] at htakes
        cases htakes
      | some text =>
        rw [hread] at htakes
        rw [(hmerged.plain hf hplainf htakes).2]
        simp

end Record

def twoStrings : Record :=
  ⟨[⟨['a'], false, .run, false, .string 8 []⟩, ⟨['b'], false, .run, false, .string 8 []⟩],
    by decide⟩

theorem twoStrings_plain : twoStrings.Plain := by
  intro f hf
  rcases mem_pair.mp hf with rfl | rfl
  · exact ⟨rfl, rfl, .inr ⟨8, [], rfl⟩⟩
  · exact ⟨rfl, rfl, .inr ⟨8, [], rfl⟩⟩

/-- `twoStrings` after `init` with a value of `a` and, if it is configured, one of `b`. -/
def State.twoStrings (b : Text) (hasField : Bool) : State where
  members := Function.update (Function.update State.new.members ['a'] ⟨0, ['x'], false⟩)
    ['b'] ⟨0, b, false⟩
  map := ((∅ : KVMap).insert ['a'] ⟨['x'], true, true, .run⟩).insert ['b'] ⟨b, true, hasField, .run⟩
  cold := ∅
  changeID := 1
  locked := false

/-- **Deleting `a` resets `b` as well.** -/
theorem deleteConf_resets_other :
    (Cfg.twoStrings.system (fun _ => True) fun _ hooks _ _ => hooks = .base).Reachable
      (.twoStrings ['y'] true) ∧
    ∃ err st', Cfg.twoStrings.deleteConf .base 0 (.twoStrings ['y'] true) [(['a'], .string [])] =
      some (.ok, err, st') ∧
      ¬ Cfg.twoStrings.DeletesOnly [['a']] (.twoStrings ['y'] true) st' := by
  refine ⟨.step (Cfg.twoStrings.new_reachable _) ⟨.base, 0,
    .init [(['a'], .string ['x']), (['b'], .string ['y'])] [], .ok, rfl, rfl⟩, _, _, rfl, ?_⟩
  intro h
  have hother := (h ⟨['b'], false, .run, false, .string 8 []⟩ (by decide)).2 (by decide)
  cases congrArg Member.str hother.1

/-- Deleting the only field that is configured does what it should. -/
theorem deleteConf_only_configured :
    ∃ err st', Cfg.twoStrings.deleteConf .base 0 (.twoStrings [] false) [(['a'], .string [])] =
      some (.ok, err, st') ∧
      Cfg.twoStrings.DeletesOnly [['a']] (.twoStrings [] false) st' := by
  have hreach : (Cfg.twoStrings.system (fun _ => True) fun _ hooks _ _ => hooks = .base).Reachable
      (.twoStrings [] false) :=
    .step (Cfg.twoStrings.new_reachable _)
      ⟨.base, 0, .init [(['a'], .string ['x'])] [], .ok, rfl, rfl⟩
  have hrun : ∃ err st', Cfg.twoStrings.deleteConf .base 0 (.twoStrings [] false)
      [(['a'], .string [])] = some (.ok, err, st') := ⟨_, _, rfl⟩
  obtain ⟨err, st', hrun⟩ := hrun
  refine ⟨err, st', hrun, ?_⟩
  refine (Record.deletesOnly_iff twoStrings_plain hreach [(['a'], .string [])] hrun).mpr ?_
  intro f hf
  rcases mem_pair.mp hf with rfl | rfl
  · exact ⟨by decide, fun h => absurd mem_cons_self h⟩
  · exact ⟨by decide, fun _ => rfl⟩

end Novachains.Util.Cfg
