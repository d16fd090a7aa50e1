import Novachains.Util.CfgExchange

/-!
# The parts of a view after a load

`Exchange.act` taken apart: what the calls of a field leave in the member, in the maps of the record
and in those of the exchange.  `getKVMap` then adds the elements that no field has the name of.
-/

namespace Novachains.Util.Cfg

namespace Field
variable (f : Field)

def entry (t : Text × Bool) : ParamValue := ⟨t.1, true, t.2, f.level⟩

variable (m : Member) (p : ParamValue)

def spell : ParamValue :=
  if f.isBoolean then { p with value := f.text m } else p

theorem value_spell :
    (f.spell m p).value = if f.isBoolean then f.text m else p.value := by
  unfold spell
  split <;> rfl

@[simp] theorem hasMapped_spell :
    (f.spell m p).hasMapped = p.hasMapped := by
  unfold spell
  split <;> rfl

@[simp] theorem hasField_spell :
    (f.spell m p).hasField = p.hasField := by
  unfold spell
  split <;> rfl

theorem check_of_isBoolean {f : Field} (hf : f.isBoolean = true) (m : Member) :
    f.check m = (.ok, m) := by
  unfold isBoolean at hf
  unfold check
  split at hf
  next default hk => rw [hk]
  next => cases hf

@[simp] theorem assign_assign (text text' : Text) (m : Member) :
    f.assign text (f.assign text' m) = f.assign text m := by
  unfold assign
  cases f.kind <;> rfl

end Field

namespace Exchange
section Act
variable {ex : Exchange} {f : Field} {v : View}

def taken (ex : Exchange) (f : Field) (t : Option (Text × Bool)) (m : Member) : Member :=
  if ex.assigns f.level then t.elim m fun t => f.assign t.1 m else m

theorem member_saveView (t : Text × Bool) : (ex.saveView f v t).member =
    if ex.assigns f.level then f.assign t.1 v.member else v.member := by
  unfold saveView
  split_ifs <;> rfl

theorem member_elim_saveView (t : Option (Text × Bool)) :
    (t.elim v (ex.saveView f v)).member = ex.taken f t v.member := by
  unfold taken
  cases t with
  | none => simp
  | some t => simp [member_saveView]

@[simp] theorem member_spellView : (ex.spellView f v).member = v.member := by
  unfold spellView
  split_ifs <;> rfl

@[simp] theorem field_spellView : (ex.spellView f v).field = v.field := by
  unfold spellView
  split_ifs <;> rfl

@[simp] theorem coldField_spellView : (ex.spellView f v).coldField = v.coldField := by
  unfold spellView
  split_ifs <;> rfl

theorem entry_spellView : (ex.spellView f v).entry =
    if ex.assigns f.level then v.entry.map (f.spell v.member) else v.entry := by
  unfold spellView Field.spell
  cases f.isBoolean <;> cases ex.assigns f.level <;> simp

theorem pending_spellView : (ex.spellView f v).pending =
    if ex.assigns f.level then v.pending else v.pending.map (f.spell v.member) := by
  unfold spellView Field.spell
  cases f.isBoolean <;> cases ex.assigns f.level <;> simp

variable {t : Option (Text × Bool)}

section
variable (ht : ex.takes f = .ok t)
include ht

theorem member_act :
    (ex.act f v).2.member = (f.check (ex.taken f t v.member)).2 := by
  rw [act, ht, ← member_elim_saveView]
  exact member_spellView

theorem entry_act : (ex.act f v).2.entry =
    if ex.assigns f.level then
      (if ex.own then (t.map f.entry).or v.entry else v.entry).map
        (f.spell (f.check (ex.taken f t v.member)).2)
    else v.entry := by
  rw [act, ht, ← member_elim_saveView]
  rw [entry_spellView]
  cases t with
  | none => simp
  | some t =>
    simp only [Option.elim, saveView]
    cases ex.assigns f.level <;> cases ex.own <;> cases ex.hasCold <;> rfl

theorem field_act : (ex.act f v).2.field =
    if ex.assigns f.level && !ex.own then (t.map f.entry).or v.field else v.field := by
  rw [act, ht]
  rw [field_spellView]
  cases t with
  | none => simp
  | some t =>
    simp only [Option.elim, saveView]
    cases ex.assigns f.level <;> cases ex.own <;> cases ex.hasCold <;> rfl

theorem coldField_act : (ex.act f v).2.coldField =
    if !ex.assigns f.level && ex.hasCold then (t.map f.entry).or v.coldField else v.coldField := by
  rw [act, ht]
  rw [coldField_spellView]
  cases t with
  | none => simp
  | some t =>
    simp only [Option.elim, saveView]
    cases ex.assigns f.level <;> cases ex.own <;> cases ex.hasCold <;> rfl

theorem pending_act : (ex.act f v).2.pending =
    if ex.assigns f.level then v.pending else v.pending.map (f.spell v.member) := by
  have hpending : (t.elim v (ex.saveView f v)).pending = v.pending := by
    unfold saveView
    cases t with
    | none => rfl
    | some t => cases ex.assigns f.level <;> cases ex.own <;> cases ex.hasCold <;> rfl
  rw [act, ht]
  rw [pending_spellView]
  rw [hpending, member_elim_saveView]
  cases ha : ex.assigns f.level with
  | true => rfl
  | false =>
    -- The check is of the same member, and does nothing to a boolean.
    have hspell : f.spell (f.check (ex.taken f t v.member)).2 = f.spell v.member := by
      unfold taken Field.spell
      rw [ha]
      by_cases hb : f.isBoolean = true
      · simp [hb, Field.check_of_isBoolean hb]
      · simp [hb]
    rw [hspell]

end

end Act
end Exchange

/-! ## Elements without a field -/

/-- The elements in the order in which `getKVMap` looks at them. -/
def Source.elements : Source → Obj
  | .bson obj => obj
  | .cmd pVMCmd pVMFile => pVMFile ++ pVMCmd

def Elem.unmapped : Elem → Option ParamValue
  | .string s => some ⟨cstr s, false, true, .invalid⟩
  | .number n => some ⟨itoa n, false, true, .invalid⟩
  | .other => none

theorem Elem.hasMapped_unmapped {e : Elem} {p : ParamValue} (h : e.unmapped = some p) :
    p.hasMapped = false := by
  cases e <;> cases h <;> rfl

def lastUnmapped (name : Text) : Obj → Option ParamValue
  | [] => none
  | e :: es => (lastUnmapped name es).or (if e.1 = name then e.2.unmapped else none)

theorem exists_of_lastUnmapped {name : Text} {obj : Obj} {p : ParamValue}
    (h : lastUnmapped name obj = some p) : ∃ e : Elem, e.unmapped = some p := by
  induction obj with
  | nil => cases h
  | cons e es ih =>
    rw [lastUnmapped, Option.or_eq_some_iff] at h
    rcases h with h | ⟨-, h⟩
    · exact ih h
    · split at h
      · exact ⟨e.2, h⟩
      · cases h

namespace Exchange
variable (ex : Exchange) (w : Work)

/-- An entry in `_pMapKeyField`, under its name. -/
def putView (v : View) (p : ParamValue) : View :=
  if ex.own then { v with entry := some p } else { v with field := some p }

def mappedView (v : View) : Bool :=
  (if ex.own then v.entry else v.field).any ParamValue.hasMapped ||
    ex.hasCold && v.coldField.any ParamValue.hasMapped

theorem isMapped_eq (name : Text) : ex.isMapped w name = ex.mappedView (w.view name) := by
  unfold isMapped keyField mappedView
  split <;> rfl

theorem view_put (name : Text) (p : ParamValue) (a : Text) : (ex.put w name p).view a =
    if a = name then ex.putView (w.view a) p else w.view a := by
  unfold put putView
  split_ifs with ho ha ha
  · subst ha
    simp [Work.view]
  · simp [Work.view, AList.lookup_insert_ne ha]
  · subst ha
    simp [Work.view]
  · simp [Work.view, AList.lookup_insert_ne ha]

theorem putView_putView (v : View) (p q : ParamValue) :
    ex.putView (ex.putView v q) p = ex.putView v p := by
  unfold putView
  split <;> rfl

theorem view_addUnmapped (e : Text × Elem) (a : Text) : (ex.addUnmapped w e).view a =
    if ex.mappedView (w.view a) then w.view a
    else (if e.1 = a then e.2.unmapped else none).elim (w.view a) (ex.putView (w.view a)) := by
  unfold addUnmapped
  rw [isMapped_eq]
  by_cases ha : e.1 = a
  · subst ha
    rw [if_pos rfl]
    split
    · rfl
    · cases he : e.2 <;> simp [Elem.unmapped, view_put]
  · rw [if_neg ha]
    have hput : ∀ p, (ex.put w e.1 p).view a = w.view a := by
      intro p
      rw [view_put, if_neg (Ne.symm ha)]
    split
    · simp
    · cases he : e.2 <;> simp [hput]

theorem mappedView_putView {v : View} (h : ex.mappedView v = false) {e : Elem} {p : ParamValue}
    (hp : e.unmapped = some p) : ex.mappedView (ex.putView v p) = false := by
  have hm := Elem.hasMapped_unmapped hp
  unfold mappedView putView at *
  split at h <;> simp_all

theorem view_foldl_addUnmapped (obj : Obj) (a : Text) : (obj.foldl ex.addUnmapped w).view a =
    if ex.mappedView (w.view a) then w.view a
    else (lastUnmapped a obj).elim (w.view a) (ex.putView (w.view a)) := by
  induction obj generalizing w with
  | nil => simp [lastUnmapped]
  | cons e es ih =>
    rw [List.foldl_cons, ih, view_addUnmapped]
    by_cases hm : ex.mappedView (w.view a) = true
    · simp [hm]
    rw [if_neg hm, if_neg hm, lastUnmapped]
    cases he : (if e.1 = a then e.2.unmapped else none) with
    | none => simp [hm]
    | some q =>
      have hq : ex.mappedView (ex.putView (w.view a) q) = false := by
        refine ex.mappedView_putView (Bool.eq_false_iff.mpr hm) (e := e.2) ?_
        split at he
        · exact he
        · cases he
      rw [Option.elim_some, hq]
      cases lastUnmapped a es <;> simp [putView_putView]

/-- **What `getKVMap` does** under a name. -/
theorem view_getKVMap (a : Text) : (ex.getKVMap w).view a =
    if ex.mappedView (w.view a) then w.view a
    else (lastUnmapped a ex.src.elements).elim (w.view a) (ex.putView (w.view a)) := by
  rw [← view_foldl_addUnmapped]
  unfold getKVMap Source.elements
  cases ex.src with
  | bson obj => rfl
  | cmd pVMCmd pVMFile => rw [List.foldl_append]

theorem coldField_getKVMap (a : Text) :
    (ex.getKVMap w).coldField.lookup a = w.coldField.lookup a := by
  have hput : ∀ v p, (ex.putView v p).coldField = v.coldField := by
    intro v p
    unfold putView
    split <;> rfl
  have hview := congrArg View.coldField (ex.view_getKVMap w a)
  refine hview.trans ?_
  split
  · rfl
  · cases lastUnmapped a ex.src.elements with
    | none => rfl
    | some p => exact hput (w.view a) p

end Exchange

end Novachains.Util.Cfg
