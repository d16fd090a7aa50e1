import Novachains.Dms.Collection

/-!
# Full names of collections

A full name is the name of a collection space, a dot and the name of a collection.
`dmsCheckFullCLName` copies at most 255 characters of it into a buffer, cuts that at the first dot
and checks both parts.  A space name of the largest length leaves exactly 127 characters, so that a
longer collection name is cut to a length that is accepted.
-/

namespace Novachains.Dms

open List

abbrev collectionSpaceNameSz : ℕ := 127

/-- The name begins with `SYS`. -/
def dmsIsSysCSName (collectionSpaceName : CStr) : Bool :=
  collectionSpaceName.take 3 = [83, 89, 83]

/-- The characters `. \ / : * ? " < > |`. -/
def invalidArray : CStr := [46, 92, 47, 58, 42, 63, 34, 60, 62, 124]

/-- The check of a collection space name. -/
def dmsCheckCSName (collectionSpaceName : CStr) (sys : Bool) : Rc :=
  if collectionSpaceNameSz < collectionSpaceName.length ∨ collectionSpaceName.length ≤ 0 then
    .invalidArg
  else if collectionSpaceName.head? = some 36 then .invalidArg
  else if !sys && dmsIsSysCSName collectionSpaceName then .invalidArg
  else if invalidArray.any (· ∈ collectionSpaceName) then .invalidArg
  else .ok

def splitDot (s : CStr) : Option (CStr × CStr) :=
  if 46 ∈ s then some (s.takeWhile (· ≠ 46), (s.dropWhile (· ≠ 46)).tail) else none

/-- Both parts of the name are checked. -/
def dmsCheckFullCLName (fullCollectionName : CStr) (sys : Bool) : Rc :=
  let buffer := fullCollectionName.take (collectionNameSz + collectionSpaceNameSz + 1)
  match splitDot buffer with
  | none => .invalidArg
  | some (space, p) =>
    if dmsCheckCSName space sys ≠ .ok then dmsCheckCSName space sys else dmsCheckCLName p sys

def FullNameOk (s : CStr) (sys : Bool) : Prop :=
  ∃ p ∈ splitDot s, dmsCheckCSName p.1 sys = .ok ∧ dmsCheckCLName p.2 sys = .ok

/-- The space name fills its share, the collection name is longer than what is left, and what is
left passes. -/
def CutToValid (s : CStr) (sys : Bool) : Prop :=
  ∃ p ∈ splitDot s, dmsCheckCSName p.1 sys = .ok ∧ p.1.length = collectionSpaceNameSz
    ∧ collectionNameSz < p.2.length ∧ dmsCheckCLName (p.2.take collectionNameSz) sys = .ok

theorem splitDot_of_not_mem {s : CStr} (h : 46 ∉ s) : splitDot s = none := by simp [splitDot, h]

@[simp] theorem splitDot_append {space p : CStr} (h : 46 ∉ space) :
    splitDot (space ++ 46 :: p) = some (space, p) := by
  have hall : ∀ c ∈ space, decide (c ≠ 46) = true := by
    intro c hc
    simp only [decide_eq_true_eq]
    rintro rfl
    exact h hc
  rw [splitDot, if_pos (by simp), takeWhile_append_of_pos hall, dropWhile_append_of_pos hall]
  simp

theorem exists_splitDot (s : CStr) : 46 ∉ s ∨ ∃ space p, s = space ++ 46 :: p ∧ 46 ∉ space := by
  by_cases h : 46 ∈ s
  · obtain ⟨space, p, rfl, hnot⟩ := eq_append_cons_of_mem h
    exact .inr ⟨space, p, rfl, hnot⟩
  · exact .inl h

theorem length_of_dmsCheckCSName {name : CStr} {sys : Bool} (h : dmsCheckCSName name sys = .ok) :
    name.length ≤ collectionSpaceNameSz := by
  unfold dmsCheckCSName at h
  split at h
  · cases h
  · omega

theorem length_of_dmsCheckCLName {name : CStr} {sys : Bool} (h : dmsCheckCLName name sys = .ok) :
    name.length ≤ collectionNameSz := by
  rw [← take_of_dmsCheckCLName h]
  exact length_take_le _ _

/-! ## The buffer -/

section

variable {space p : CStr} {sys : Bool}

theorem take_append_dot (n : ℕ) (h : space.length ≤ n) :
    (space ++ 46 :: p).take (n + 1) = space ++ 46 :: p.take (n - space.length) := by
  rw [List.take_append, take_of_length_le (by omega), Nat.succ_sub h, take_succ_cons]

theorem dmsCheckFullCLName_append (hnot : 46 ∉ space) :
    dmsCheckFullCLName (space ++ 46 :: p) sys = .ok
      ↔ dmsCheckCSName space sys = .ok
        ∧ dmsCheckCLName (p.take (collectionNameSz + collectionSpaceNameSz - space.length)) sys
          = .ok := by
  by_cases hlen : space.length ≤ collectionNameSz + collectionSpaceNameSz
  · rw [dmsCheckFullCLName, take_append_dot _ hlen, splitDot_append hnot]
    by_cases hspace : dmsCheckCSName space sys = .ok <;> simp [hspace]
  -- the buffer ends before the dot, and the name is too long anyway
  have htake : (space ++ 46 :: p).take (collectionNameSz + collectionSpaceNameSz + 1)
      = space.take (collectionNameSz + collectionSpaceNameSz + 1) :=
    take_append_of_le_length (by omega)
  have hbuf : 46 ∉ space.take (collectionNameSz + collectionSpaceNameSz + 1) := fun hmem =>
    hnot (mem_of_mem_take hmem)
  have hspace : dmsCheckCSName space sys ≠ .ok := by
    intro hok
    have := length_of_dmsCheckCSName hok
    omega
  rw [dmsCheckFullCLName, htake, splitDot_of_not_mem hbuf]
  simp [hspace]

theorem fullNameOk_append (hnot : 46 ∉ space) :
    FullNameOk (space ++ 46 :: p) sys
      ↔ dmsCheckCSName space sys = .ok ∧ dmsCheckCLName p sys = .ok := by
  simp [FullNameOk, hnot]

theorem cutToValid_append (hnot : 46 ∉ space) :
    CutToValid (space ++ 46 :: p) sys
      ↔ dmsCheckCSName space sys = .ok ∧ space.length = collectionSpaceNameSz
        ∧ collectionNameSz < p.length ∧ dmsCheckCLName (p.take collectionNameSz) sys = .ok := by
  simp [CutToValid, hnot]

theorem dmsCheckCLName_take (hlen : space.length ≤ collectionSpaceNameSz) :
    dmsCheckCLName (p.take (collectionNameSz + collectionSpaceNameSz - space.length)) sys = .ok
      ↔ dmsCheckCLName p sys = .ok
        ∨ space.length = collectionSpaceNameSz ∧ collectionNameSz < p.length
          ∧ dmsCheckCLName (p.take collectionNameSz) sys = .ok := by
  by_cases hfit : p.length ≤ collectionNameSz
  · rw [take_of_length_le (by omega)]
    simp [not_lt.mpr hfit]
  have hlong : dmsCheckCLName p sys ≠ .ok := fun hok => hfit (length_of_dmsCheckCLName hok)
  by_cases hfull : space.length = collectionSpaceNameSz
  · rw [hfull, Nat.add_sub_cancel]
    simp [hlong, not_le.mp hfit]
  have hcut : dmsCheckCLName
      (p.take (collectionNameSz + collectionSpaceNameSz - space.length)) sys ≠ .ok := by
    intro hok
    have := length_of_dmsCheckCLName hok
    rw [length_take] at this
    omega
  simp [hlong, hfull, hcut]

end

/-- **The check of a full name accepts exactly the names whose parts are both accepted**, unless the
collection name is cut to an accepted one. -/
theorem full_name_checked_iff (s : CStr) (sys : Bool) :
    (dmsCheckFullCLName s sys = .ok ↔ FullNameOk s sys) ↔ ¬ CutToValid s sys := by
  obtain hdot | ⟨space, p, rfl, hnot⟩ := exists_splitDot s
  · have hbuf : 46 ∉ s.take (collectionNameSz + collectionSpaceNameSz + 1) := fun hmem =>
      hdot (mem_of_mem_take hmem)
    simp [dmsCheckFullCLName, FullNameOk, CutToValid, splitDot_of_not_mem hdot,
      splitDot_of_not_mem hbuf]
  · rw [dmsCheckFullCLName_append hnot, fullNameOk_append hnot, cutToValid_append hnot]
    by_cases hspace : dmsCheckCSName space sys = .ok
    · rw [dmsCheckCLName_take (length_of_dmsCheckCSName hspace)]
      by_cases hp : dmsCheckCLName p sys = .ok
      · have := length_of_dmsCheckCLName hp
        simp [hspace, hp, not_lt.mpr this]
      · simp [hspace, hp]
    · simp [hspace]

def longName : CStr := List.replicate 127 97 ++ 46 :: List.replicate 128 98

/-- It is accepted although the collection name is too long. -/
theorem long_name_accepted :
    dmsCheckFullCLName longName false = .ok ∧ ¬ FullNameOk longName false := by
  have hnot : (46 : UInt8) ∉ List.replicate 127 97 := by simp
  refine ⟨by decide +kernel, ?_⟩
  rw [longName, fullNameOk_append hnot]
  decide +kernel

end Novachains.Dms
