import Mathlib.Data.Nat.Basic

/-!
# Bitmaps in arrays of bytes

Bit `n` of a bitmap is kept in byte `n / 8`, most significant bit first.  The three
accessors are written with the shifts and masks such code uses; the lemmas say that
they read and write single bits.
-/

namespace Novachains.Lib

def Bitmap : Type := ℕ → BitVec 8

namespace Bitmap

variable (b : Bitmap) (n : ℕ)

def get : Bool :=
  ((b (n >>> 3) >>> (7 - (n &&& 7))) &&& 1#8) = 1#8

def set : Bitmap := fun i =>
  if i = n >>> 3 then b i ||| (1#8 <<< (7 - (n &&& 7))) else b i

def clear : Bitmap := fun i =>
  if i = n >>> 3 then b i &&& ~~~(1#8 <<< (7 - (n &&& 7))) else b i

def zero : Bitmap := fun _ => 0#8

private theorem and_seven : n &&& 7 = n % 8 := Nat.and_two_pow_sub_one_eq_mod n 3

private theorem shift_three : n >>> 3 = n / 8 := Nat.shiftRight_eq_div_pow n 3

private theorem and_one_eq_one (b : BitVec 8) : (b &&& 1#8 = 1#8) ↔ b.getLsbD 0 = true := by
  constructor
  · intro h
    have := congrArg (fun v => v.getLsbD 0) h
    simpa using this
  intro h
  apply BitVec.eq_of_getLsbD_eq
  intro i hi
  simp only [BitVec.getLsbD_and, BitVec.getLsbD_one]
  rcases Nat.eq_zero_or_pos i with rfl | hpos
  · simp [h]
  · simp [ne_of_gt hpos]

theorem get_eq : b.get n = (b (n / 8)).getLsbD (7 - n % 8) := by
  rw [get, and_seven, shift_three, Bool.eq_iff_iff, decide_eq_true_eq, and_one_eq_one]
  simp

theorem get_set (n p : ℕ) : (b.set n).get p = (decide (p = n) || b.get p) := by
  simp only [get_eq, set, and_seven, shift_three]
  by_cases hb : p / 8 = n / 8
  · by_cases hp : p = n
    · subst hp; simp; omega
    rw [if_pos hb, BitVec.getLsbD_or, BitVec.getLsbD_shiftLeft, BitVec.getLsbD_one]
    have hne : ¬ (7 - p % 8 - (7 - n % 8) = 0 ∧ ¬ 7 - p % 8 < 7 - n % 8) := by omega
    simp only [hp, decide_false, Bool.false_or, Bool.or_eq_left_iff_imp]
    intro h
    simp only [Bool.and_eq_true, Bool.not_eq_true', decide_eq_false_iff_not, decide_eq_true_eq] at h
    exact absurd ⟨h.2.2, h.1.2⟩ hne
  · have hp : p ≠ n := by intro h; exact hb (by rw [h])
    simp [hb, hp]

theorem get_clear (n p : ℕ) : (b.clear n).get p = (!decide (p = n) && b.get p) := by
  simp only [get_eq, clear, and_seven, shift_three]
  by_cases hb : p / 8 = n / 8
  · by_cases hp : p = n
    · subst hp; simp
    rw [if_pos hb, BitVec.getLsbD_and, BitVec.getLsbD_not, BitVec.getLsbD_shiftLeft,
      BitVec.getLsbD_one]
    have hne : ¬ (7 - p % 8 - (7 - n % 8) = 0 ∧ ¬ 7 - p % 8 < 7 - n % 8) := by omega
    have hlt : 7 - p % 8 < 8 := by omega
    simp only [hp, decide_false, Bool.not_false, Bool.true_and, Bool.and_eq_left_iff_imp]
    intro _
    simp only [hlt, decide_true, Bool.true_and, Bool.not_eq_true', Bool.and_eq_false_imp,
      Bool.not_eq_true', decide_eq_false_iff_not]
    intro h _ h0
    exact hne ⟨h0, h⟩
  · have hp : p ≠ n := by intro h; exact hb (by rw [h])
    simp [hb, hp]

@[simp] theorem get_zero : zero.get n = false := by
  rw [get_eq, zero]; simp

end Bitmap

end Novachains.Lib
