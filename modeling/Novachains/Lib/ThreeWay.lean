import Mathlib.Data.Prod.Lex
import Mathlib.Data.Sign.Basic
import Mathlib.Tactic.Linarith

/-!
# Three-way comparison

The result of comparing two elements of a linear order as C's comparison functions give it: `-1`,
`0` or `1`.  A function that agrees with `threeWay` on some keys inherits the laws of an order from
the keys.
-/

namespace Novachains.Lib

variable {α β : Type*} [LinearOrder α] [LinearOrder β]

/-- `-1` when `x` is below `y`, `1` when it is above, and `0` when they are equal. -/
def threeWay (x y : α) : ℤ := if x < y then -1 else if y < x then 1 else 0

theorem threeWay_of_lt {x y : α} (h : x < y) : threeWay x y = -1 := if_pos h

theorem threeWay_of_gt {x y : α} (h : y < x) : threeWay x y = 1 := by
  rw [threeWay, if_neg h.not_gt, if_pos h]

@[simp]
theorem threeWay_self (x : α) : threeWay x x = 0 := by simp [threeWay]

theorem threeWay_swap (x y : α) : threeWay y x = -threeWay x y := by
  rcases lt_trichotomy x y with h | rfl | h
  · rw [threeWay_of_lt h, threeWay_of_gt h, neg_neg]
  · simp
  · rw [threeWay_of_lt h, threeWay_of_gt h]

theorem threeWay_nonpos_iff {x y : α} : threeWay x y ≤ 0 ↔ x ≤ y := by
  rcases lt_trichotomy x y with h | rfl | h
  · simp [threeWay_of_lt h, h.le]
  · simp
  · simp [threeWay_of_gt h, h]

theorem threeWay_eq_zero_iff {x y : α} : threeWay x y = 0 ↔ x = y := by
  rcases lt_trichotomy x y with h | rfl | h
  · simp [threeWay_of_lt h, h.ne]
  · simp
  · simp [threeWay_of_gt h, h.ne']

theorem threeWay_toLex (x₁ x₂ : α) (y₁ y₂ : β) :
    threeWay (toLex (x₁, y₁)) (toLex (x₂, y₂))
      = if x₁ = x₂ then threeWay y₁ y₂ else threeWay x₁ x₂ := by
  rcases lt_trichotomy x₁ x₂ with h | rfl | h
  · rw [if_neg h.ne, threeWay_of_lt h, threeWay_of_lt (Prod.Lex.toLex_lt_toLex.mpr (.inl h))]
  · simp [threeWay, Prod.Lex.toLex_lt_toLex]
  · rw [if_neg h.ne', threeWay_of_gt h, threeWay_of_gt (Prod.Lex.toLex_lt_toLex.mpr (.inl h))]

theorem threeWay_eq_sign_sub (x y : ℚ) : threeWay x y = SignType.sign (x - y) := by
  rcases lt_trichotomy x y with h | rfl | h
  · rw [threeWay_of_lt h, sign_neg (sub_neg.mpr h), SignType.coe_neg_one]
  · simp
  · rw [threeWay_of_gt h, sign_pos (sub_pos.mpr h), SignType.coe_one]

end Novachains.Lib
