import Novachains.Bson.Decimal
import Mathlib.Data.Sign.Basic

/-!
# Comparing decimals

`_decimal_cmp_abs` skips the digits of the longer integer part, compares the digits that have the
same weight and then looks for a non-zero digit in what is left over.  It needs no normal form.
`decimal_cmp` puts the special values in their places and looks at signs and digit counts first.
-/

namespace Novachains.Bson

open Lib

namespace Decimal

/-- Skip the digits with a weight above `w'`; there is no rest when one of them is not zero. -/
def skipAbove (w' : ℤ) : ℤ → List ℕ → Option (ℤ × List ℕ)
  | w, [] => some (w, [])
  | w, d :: ds =>
    if w' < w then
      if d ≠ 0 then none else skipAbove w' (w - 1) ds
    else some (w, d :: ds)

def cmpRest (ds es : List ℕ) : ℤ :=
  if ds.any (· ≠ 0) then 1 else if es.any (· ≠ 0) then -1 else 0

def cmpCommon : List ℕ → List ℕ → ℤ
  | d :: ds, e :: es => if d = e then cmpCommon ds es else if e < d then 1 else -1
  | ds, es => cmpRest ds es

/-- `_decimal_cmp_abs`. -/
def cmpAbs (left right : Decimal) : ℤ :=
  match skipAbove right.weight left.weight left.digits with
  | none => 1
  | some (weight1, digits1) =>
    match skipAbove weight1 right.weight right.digits with
    | none => -1
    | some (weight2, digits2) =>
      if weight1 = weight2 then cmpCommon digits1 digits2 else cmpRest digits1 digits2

/-- The part of `decimal_cmp` behind the special values. -/
def cmpFinite (left right : Decimal) : ℤ :=
  if left.digits = [] then
    if right.digits = [] then 0 else if right.sign = .neg then 1 else -1
  else if right.digits = [] then
    if left.sign = .pos then 1 else -1
  else if left.sign = .pos then
    if right.sign = .neg then 1 else cmpAbs left right
  else if right.sign = .pos then -1
  else cmpAbs right left

/-- `decimal_cmp`. -/
def cmp (left right : Decimal) : ℤ :=
  if left.isMin then
    if right.isMin then 0 else -1
  else if right.isMin then 1
  else if left.isMax then
    if right.isMax then 0 else 1
  else if right.isMax then -1
  else if left.isNan then
    if right.isNan then 0 else -1
  else if right.isNan then 1
  else cmpFinite left right

theorem skipAbove_none {w' w : ℤ} {ds : List ℕ} (h : skipAbove w' w ds = none) :
    (nbase : ℚ) ^ (w' + 1) ≤ radix nbase ds w := by
  induction ds generalizing w with
  | nil => simp [skipAbove] at h
  | cons d ds ih =>
    rw [skipAbove] at h
    split at h
    · rename_i hw
      split at h
      · rename_i hd
        calc (nbase : ℚ) ^ (w' + 1) ≤ (nbase : ℚ) ^ w :=
              zpow_le_zpow_right₀ (by norm_num) (by omega)
          _ ≤ radix nbase (d :: ds) w := le_radix hd w
      · rename_i hd
        rw [not_not.mp hd, radix_cons, Nat.cast_zero, zero_mul, zero_add]
        exact ih h
    · simp at h

/-- What is left after skipping: the same number, with no digit above the other weight. -/
structure Skipped (w' w : ℤ) (ds : List ℕ) (w1 : ℤ) (ds1 : List ℕ) : Prop where
  radix : radix nbase ds1 w1 = radix nbase ds w
  below : w1 ≤ w' ∨ ds1 = []
  above : w' ≤ w → w' ≤ w1
  mem : ∀ x ∈ ds1, x ∈ ds

theorem skipAbove_some {w' w w1 : ℤ} {ds ds1 : List ℕ} (h : skipAbove w' w ds = some (w1, ds1)) :
    Skipped w' w ds w1 ds1 := by
  induction ds generalizing w with
  | nil =>
    obtain ⟨rfl, rfl⟩ : w = w1 ∧ ([] : List ℕ) = ds1 := by simpa [skipAbove] using h
    exact ⟨rfl, .inr rfl, id, fun _ => id⟩
  | cons d ds ih =>
    rw [skipAbove] at h
    split at h
    · rename_i hw
      split at h
      · simp at h
      rename_i hd
      have hs := ih h
      have hradix : Lib.radix nbase (d :: ds) w = Lib.radix nbase ds (w - 1) := by
        rw [radix_cons, not_not.mp hd, Nat.cast_zero, zero_mul, zero_add]
      exact ⟨hs.radix.trans hradix.symm, hs.below, fun _ => hs.above (by omega),
        fun x hx => List.mem_cons_of_mem d (hs.mem x hx)⟩
    · rename_i hw
      cases h
      exact ⟨rfl, .inl (by omega), fun _ => by omega, fun _ => id⟩

theorem any_ne_zero_iff {ds : List ℕ} {w : ℤ} :
    ds.any (· ≠ 0) = true ↔ 0 < radix nbase ds w := by
  rw [lt_iff_le_and_ne, and_iff_right (radix_nonneg w), ne_comm, ne_eq,
    radix_eq_zero_iff (by decide)]
  simp

theorem cmpRest_eq {ds es : List ℕ} (h : ds = [] ∨ es = []) (w w' : ℤ) :
    cmpRest ds es = SignType.sign (radix nbase ds w - radix nbase es w') := by
  have hds : ds.any (· ≠ 0) = true ↔ 0 < radix nbase ds w := any_ne_zero_iff
  have hes : es.any (· ≠ 0) = true ↔ 0 < radix nbase es w' := any_ne_zero_iff
  have hds0 : 0 ≤ radix nbase ds w := radix_nonneg w
  have hes0 : 0 ≤ radix nbase es w' := radix_nonneg w'
  rw [cmpRest]
  split
  · rename_i hany
    have hpos := hds.mp hany
    have hz : radix nbase es w' = 0 := by
      rcases h with rfl | rfl
      · simp at hany
      · rfl
    rw [hz, sub_zero, sign_pos hpos, SignType.coe_one]
  · rename_i hany
    have hz : radix nbase ds w = 0 := le_antisymm (not_lt.mp fun h' => hany (hds.mpr h')) hds0
    split
    · rename_i hany'
      rw [hz, zero_sub, sign_neg (neg_lt_zero.mpr (hes.mp hany')), SignType.coe_neg_one]
    rename_i hany'
    have hz' : radix nbase es w' = 0 :=
      le_antisymm (not_lt.mp fun h' => hany' (hes.mpr h')) hes0
    rw [hz, hz', sub_zero, sign_zero, SignType.coe_zero]

theorem cmpCommon_eq {ds es : List ℕ} (hds : ∀ x ∈ ds, x < nbase) (hes : ∀ x ∈ es, x < nbase)
    (w : ℤ) : cmpCommon ds es = SignType.sign (radix nbase ds w - radix nbase es w) := by
  induction ds generalizing es w with
  | nil => exact cmpRest_eq (.inl rfl) w w
  | cons d ds ih =>
    cases es with
    | nil => exact cmpRest_eq (.inr rfl) w w
    | cons e es =>
      obtain ⟨hd, hds⟩ := List.forall_mem_cons.mp hds
      obtain ⟨he, hes⟩ := List.forall_mem_cons.mp hes
      -- the digits behind the first difference are worth less than one unit of it
      have hltd : radix nbase ds (w - 1) < (nbase : ℚ) ^ w := by
        simpa using radix_lt (by decide) hds (w - 1)
      have hlte : radix nbase es (w - 1) < (nbase : ℚ) ^ w := by
        simpa using radix_lt (by decide) hes (w - 1)
      have hd0 : 0 ≤ radix nbase ds (w - 1) := radix_nonneg _
      have he0 : 0 ≤ radix nbase es (w - 1) := radix_nonneg _
      rw [cmpCommon, radix_cons, radix_cons]
      split
      · rename_i heq
        rw [ih hds hes (w - 1), heq, add_sub_add_left_eq_sub]
      rename_i hne
      split
      · rename_i hlt
        have hcast : (e : ℚ) + 1 ≤ d := by exact_mod_cast hlt
        rw [sign_pos (by nlinarith), SignType.coe_one]
      rename_i hge
      have hlt : d + 1 ≤ e := by omega
      have hcast : (d : ℚ) + 1 ≤ e := by exact_mod_cast hlt
      rw [sign_neg (by nlinarith), SignType.coe_neg_one]

/-- **`_decimal_cmp_abs` compares the absolute values**, whatever zero digits the operands
carry. -/
theorem cmpAbs_eq {a b : Decimal} (ha : a.DigitsOk) (hb : b.DigitsOk) :
    cmpAbs a b = SignType.sign (a.mag - b.mag) := by
  rw [cmpAbs]
  cases h1 : skipAbove b.weight a.weight a.digits with
  | none =>
    have hle : (nbase : ℚ) ^ (b.weight + 1) ≤ a.mag := skipAbove_none h1
    have hlt : b.mag < (nbase : ℚ) ^ (b.weight + 1) := mag_lt hb
    rw [sign_pos (by linarith), SignType.coe_one]
  | some p1 =>
    obtain ⟨w1, ds⟩ := p1
    have hs1 := skipAbove_some h1
    dsimp only
    cases h2 : skipAbove w1 b.weight b.digits with
    | none =>
      have hle : (nbase : ℚ) ^ (w1 + 1) ≤ b.mag := skipAbove_none h2
      have hlt : a.mag < (nbase : ℚ) ^ (w1 + 1) := by
        rw [mag, ← hs1.radix]
        exact radix_lt (by decide) (fun x hx => ha x (hs1.mem x hx)) w1
      rw [sign_neg (by linarith), SignType.coe_neg_one]
    | some p2 =>
      obtain ⟨w2, es⟩ := p2
      have hs2 := skipAbove_some h2
      have hmag : a.mag - b.mag = radix nbase ds w1 - radix nbase es w2 := by
        rw [hs1.radix, hs2.radix, mag, mag]
      dsimp only
      rw [hmag]
      split
      · rename_i heq
        subst heq
        exact cmpCommon_eq (fun x hx => ha x (hs1.mem x hx)) (fun x hx => hb x (hs2.mem x hx)) w1
      rename_i hne
      -- with digits left on both sides the two weights have met
      refine cmpRest_eq ?_ w1 w2
      rcases hs1.below with hle1 | hnil
      · rcases hs2.below with hle2 | hnil
        · exact absurd (le_antisymm (hs2.above hle1) hle2) hne
        · exact .inr hnil
      · exact .inl hnil

theorem cast_sign_eq_zero {x : ℚ} : ((SignType.sign x : SignType) : ℤ) = 0 ↔ x = 0 := by
  rcases lt_trichotomy x 0 with h | rfl | h
  · simp [sign_neg h, h.ne]
  · simp
  · simp [sign_pos h, h.ne']

theorem cmpAbs_eq_zero_iff {a b : Decimal} (ha : a.DigitsOk) (hb : b.DigitsOk) :
    cmpAbs a b = 0 ↔ a.mag = b.mag := by
  rw [cmpAbs_eq ha hb, cast_sign_eq_zero, sub_eq_zero]

end Decimal

end Novachains.Bson
