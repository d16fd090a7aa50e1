import Mathlib.Tactic.Linarith

/-!
# The order of dates and timestamps

A date counts milliseconds; a timestamp has seconds and an increment, and two of them are compared
by the seconds first.  A date and a timestamp are compared as if the increment counted microseconds,
of which it may have more than a second: a date between two timestamps can then close a cycle.

There is no result where the difference of a date and a timestamp overflows its `long long`.
-/

namespace Novachains.Bson

open Option

/-- A BSON element of type `Date` or `Timestamp`. -/
inductive TimeElement
  | date (millis : Int64)
  | timestamp (secs : Int32) (inc : UInt32)
  deriving DecidableEq

namespace TimeElement

/-- The seconds of a timestamp in milliseconds and the whole milliseconds of its increment. -/
def macroOf (secs : Int32) (inc : UInt32) : ℤ := secs.toInt * 1000 + (inc.toNat / 1000 : ℕ)

/-- A difference of two `long long`s. -/
def longSub (x y : ℤ) : Option ℤ :=
  if -2 ^ 63 ≤ x - y ∧ x - y < 2 ^ 63 then some (x - y) else none

/-- `compareElementValues`, on dates and timestamps. -/
def compareElementValues : TimeElement → TimeElement → Option ℤ
  | timestamp lSecs lInc, timestamp rSecs rInc =>
    if (if lSecs ≠ rSecs then lSecs.toInt < rSecs.toInt else lInc.toNat < rInc.toNat) then some (-1)
    else if lInc = rInc ∧ lSecs = rSecs then some 0
    else some 1
  | timestamp secs inc, date millis =>
    (longSub (macroOf secs inc) millis.toInt).map fun x =>
      if x ≠ 0 then if macroOf secs inc > millis.toInt then 1 else -1
      else if inc.toNat % 1000 > 0 then 1 else 0
  | date iL, date iR =>
    if iL.toInt < iR.toInt then some (-1) else if iL = iR then some 0 else some 1
  | date millis, timestamp secs inc =>
    (longSub millis.toInt (macroOf secs inc)).map fun x =>
      if x ≠ 0 then if millis.toInt > macroOf secs inc then 1 else -1
      else if inc.toNat % 1000 > 0 then -1 else 0

structure OrderOn (S : Set TimeElement) : Prop where
  defined : ∀ a ∈ S, ∀ b ∈ S, (compareElementValues a b).isSome
  refl : ∀ a ∈ S, compareElementValues a a = some 0
  antisymm : ∀ a ∈ S, ∀ b ∈ S,
    (compareElementValues b a).map Int.sign = (compareElementValues a b).map (Int.sign <| -·)
  trans : ∀ a ∈ S, ∀ b ∈ S, ∀ c ∈ S, ∀ x ∈ compareElementValues a b,
    ∀ y ∈ compareElementValues b c, ∀ z ∈ compareElementValues a c, x ≤ 0 → y ≤ 0 → z ≤ 0

def stamp (secs : Int32) (inc : UInt32) : ℤ := secs.toInt * 2 ^ 32 + inc.toNat

def micros (secs : Int32) (inc : UInt32) : ℤ := secs.toInt * 1000000 + inc.toNat

def cmpInt (x y : ℤ) : ℤ := if x < y then -1 else if x = y then 0 else 1

theorem cmpInt_nonpos {x y : ℤ} : cmpInt x y ≤ 0 ↔ x ≤ y := by
  unfold cmpInt
  split_ifs <;> omega

theorem cmpInt_self (x : ℤ) : cmpInt x x = 0 := by simp [cmpInt]

theorem cmpInt_swap (x y : ℤ) : cmpInt y x = -cmpInt x y := by
  unfold cmpInt
  split_ifs <;> omega

variable {s : Int32} {i : UInt32}

theorem stamp_inj {s' : Int32} {i' : UInt32} : stamp s i = stamp s' i' ↔ s = s' ∧ i = i' := by
  have hi := i.toNat_lt
  have hi' := i'.toNat_lt
  constructor
  · intro h
    unfold stamp at h
    exact ⟨Int32.toInt_inj.mp (by omega), UInt32.toNat_inj.mp (by omega)⟩
  · rintro ⟨rfl, rfl⟩
    rfl

theorem compare_timestamps (s s' : Int32) (i i' : UInt32) :
    compareElementValues (timestamp s i) (timestamp s' i') =
      some (cmpInt (stamp s i) (stamp s' i')) := by
  have hi := i.toNat_lt
  have hi' := i'.toNat_lt
  have hlt : (if s ≠ s' then s.toInt < s'.toInt else i.toNat < i'.toNat)
      ↔ stamp s i < stamp s' i' := by
    by_cases hs : s = s'
    · subst hs
      simp [stamp]
    · have hne : s.toInt ≠ s'.toInt := fun h => hs (Int32.toInt_inj.mp h)
      simp only [ne_eq, hs, not_false_eq_true, if_true, stamp]
      omega
  have heq : (i = i' ∧ s = s') ↔ stamp s i = stamp s' i' := by
    rw [stamp_inj, and_comm]
  simp only [compareElementValues, hlt, heq, cmpInt]
  split_ifs <;> rfl

theorem compare_dates (d d' : Int64) :
    compareElementValues (date d) (date d') = some (cmpInt d.toInt d'.toInt) := by
  simp only [compareElementValues, cmpInt, Int64.toInt_inj]
  split_ifs <;> rfl

def InRange (secs : Int32) (inc : UInt32) (millis : Int64) : Prop :=
  |macroOf secs inc - millis.toInt| < 2 ^ 63

variable {d : Int64}

theorem compare_timestamp_date (h : InRange s i d) :
    compareElementValues (timestamp s i) (date d) = some (cmpInt (micros s i) (1000 * d.toInt)) := by
  obtain ⟨h1, h2⟩ := abs_lt.mp h
  have hsub : longSub (macroOf s i) d.toInt = some (macroOf s i - d.toInt) := by
    rw [longSub, if_pos ⟨h1.le, h2⟩]
  rw [compareElementValues, hsub, map_some, some_inj]
  simp only [cmpInt, micros, macroOf]
  split_ifs <;> omega

theorem compare_date_timestamp (h : InRange s i d) :
    compareElementValues (date d) (timestamp s i) = some (cmpInt (1000 * d.toInt) (micros s i)) := by
  obtain ⟨h1, h2⟩ := abs_lt.mp h
  have hsub : longSub d.toInt (macroOf s i) = some (d.toInt - macroOf s i) := by
    rw [longSub, if_pos ⟨by linarith, by linarith⟩]
  rw [compareElementValues, hsub, map_some, some_inj]
  simp only [cmpInt, micros, macroOf]
  split_ifs <;> omega

theorem inRange_of_isSome (h1 : (compareElementValues (timestamp s i) (date d)).isSome)
    (h2 : (compareElementValues (date d) (timestamp s i)).isSome) : InRange s i d := by
  simp only [compareElementValues, isSome_map] at h1 h2
  unfold longSub at h1 h2
  split at h1 <;> split at h2 <;> simp at h1 h2
  rw [InRange, abs_lt]
  constructor <;> linarith

/-! ## The order -/

/-- No date of the set stands between two timestamps that are ordered the other way. -/
def Unseparated (S : Set TimeElement) : Prop :=
  ∀ s i, timestamp s i ∈ S → ∀ s' i', timestamp s' i' ∈ S → ∀ d, date d ∈ S →
    stamp s i < stamp s' i' → ¬ (micros s' i' ≤ 1000 * d.toInt ∧ 1000 * d.toInt ≤ micros s i)

def AllInRange (S : Set TimeElement) : Prop :=
  ∀ s i, timestamp s i ∈ S → ∀ d, date d ∈ S → InRange s i d

def keys : TimeElement → TimeElement → ℤ × ℤ
  | timestamp s i, timestamp s' i' => (stamp s i, stamp s' i')
  | timestamp s i, date d => (micros s i, 1000 * d.toInt)
  | date d, timestamp s i => (1000 * d.toInt, micros s i)
  | date d, date d' => (d.toInt, d'.toInt)

theorem keys_swap (a b : TimeElement) : keys b a = (keys a b).swap := by
  cases a <;> cases b <;> rfl

theorem keys_self (a : TimeElement) : (keys a a).1 = (keys a a).2 := by
  cases a <;> rfl

section

variable {S : Set TimeElement}

theorem compare_eq_keys (h : AllInRange S) {a b : TimeElement} (ha : a ∈ S) (hb : b ∈ S) :
    compareElementValues a b = some (cmpInt (keys a b).1 (keys a b).2) := by
  cases a with
  | date d =>
    cases b with
    | date d' => exact compare_dates d d'
    | timestamp s i => exact compare_date_timestamp (h s i hb d ha)
  | timestamp s i =>
    cases b with
    | date d => exact compare_timestamp_date (h s i ha d hb)
    | timestamp s' i' => exact compare_timestamps s s' i i'

theorem keys_trans (h : Unseparated S) {a b c : TimeElement} (ha : a ∈ S) (hb : b ∈ S) (hc : c ∈ S)
    (hab : (keys a b).1 ≤ (keys a b).2) (hbc : (keys b c).1 ≤ (keys b c).2) :
    (keys a c).1 ≤ (keys a c).2 := by
  cases a with
  | date d =>
    cases b with
    | date d' =>
      cases c with
      | date d'' => exact le_trans hab hbc
      | timestamp s i =>
        simp only [keys] at hab hbc ⊢
        omega
    | timestamp s i =>
      cases c with
      | date d'' =>
        simp only [keys] at hab hbc ⊢
        omega
      | timestamp s' i' =>
        simp only [keys] at hab hbc ⊢
        rcases lt_or_eq_of_le hbc with hlt | heq
        · have := h s i hb s' i' hc d ha hlt
          omega
        · obtain ⟨rfl, rfl⟩ := stamp_inj.mp heq
          exact hab
  | timestamp s i =>
    cases b with
    | date d =>
      cases c with
      | date d'' =>
        simp only [keys] at hab hbc ⊢
        omega
      | timestamp s' i' =>
        simp only [keys] at hab hbc ⊢
        by_contra hgt
        exact h s' i' hc s i ha d hb (not_le.mp hgt) ⟨hab, hbc⟩
    | timestamp s' i' =>
      cases c with
      | date d =>
        simp only [keys] at hab hbc ⊢
        rcases lt_or_eq_of_le hab with hlt | heq
        · have := h s i ha s' i' hb d hc hlt
          omega
        · obtain ⟨rfl, rfl⟩ := stamp_inj.mp heq
          exact hbc
      | timestamp s'' i'' => exact le_trans hab hbc

theorem orderOn_of (hrange : AllInRange S) (h : Unseparated S) : OrderOn S where
  defined a ha b hb := by rw [compare_eq_keys hrange ha hb, isSome_some]
  refl a ha := by rw [compare_eq_keys hrange ha ha, keys_self, cmpInt_self]
  antisymm a ha b hb := by
    rw [compare_eq_keys hrange ha hb, compare_eq_keys hrange hb ha, keys_swap]
    simp only [map_some, Prod.fst_swap, Prod.snd_swap, cmpInt_swap (keys a b).1]
  trans a ha b hb c hc x hx y hy z hz hx0 hy0 := by
    rw [compare_eq_keys hrange ha hb, mem_some_iff] at hx
    rw [compare_eq_keys hrange hb hc, mem_some_iff] at hy
    rw [compare_eq_keys hrange ha hc, mem_some_iff] at hz
    subst hx hy hz
    rw [cmpInt_nonpos] at hx0 hy0 ⊢
    exact keys_trans h ha hb hc hx0 hy0

theorem OrderOn.allInRange (h : OrderOn S) : AllInRange S := fun _ _ ht _ hd =>
  inRange_of_isSome (h.defined _ ht _ hd) (h.defined _ hd _ ht)

theorem OrderOn.unseparated (h : OrderOn S) : Unseparated S := by
  intro s i ht s' i' ht' d hd hlt hbetween
  have hrange := h.allInRange
  have hle := h.trans _ ht' _ hd _ ht _ (compare_eq_keys hrange ht' hd)
    _ (compare_eq_keys hrange hd ht) _ (compare_eq_keys hrange ht' ht)
    (cmpInt_nonpos.mpr hbetween.1) (cmpInt_nonpos.mpr hbetween.2)
  exact absurd hlt (not_lt.mpr (cmpInt_nonpos.mp hle))

end

/-- **Dates and timestamps are ordered** exactly when no date stands between reversed timestamps and
no difference overflows. -/
theorem mixed_order_iff (S : Set TimeElement) : OrderOn S ↔ Unseparated S ∧ AllInRange S :=
  ⟨fun h => ⟨h.unseparated, h.allInRange⟩, fun h => orderOn_of h.2 h.1⟩

/-- The timestamp `(0, 4000000000)` is below `(1, 0)`, which is below the date 2000, which is below
the first. -/
theorem mixed_order_cycle :
    ¬ OrderOn {timestamp 0 4000000000, timestamp 1 0, date 2000} := by
  intro h
  have hcycle := h.trans (timestamp 0 4000000000) (by simp) (timestamp 1 0) (by simp)
    (date 2000) (by simp) (-1) (by decide) (-1) (by decide) 1 (by decide) (by decide) (by decide)
  cases hcycle

end TimeElement

end Novachains.Bson
