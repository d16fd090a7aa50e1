import Novachains.Bson.Mul
import Novachains.Bson.Parse
import Mathlib.Data.Nat.Digits.Lemmas

/-!
# Integers from decimals

`decimal_to_long` rounds a copy at the point and multiplies its way through the digits in an
`int64_t`.  An overflow shows when the new number, divided by the base, is not the old one.

The code means to let the least `int64_t` pass, by an accumulator that has become its own opposite.
But signed overflow is undefined, the build does not ask for wrapping around, and a compiler takes
`-val` to differ from `val` unless it is zero.  So the exception never applies.
-/

namespace Novachains.Bson

open Lib List

def toInt64 (z : ℤ) : ℤ := (z + 2 ^ 63) % 2 ^ 64 - 2 ^ 63

namespace Decimal

end Decimal

variable {neg : Bool} {dig : ℕ} {ds : List ℕ}

variable {x : ℕ}

namespace Decimal

variable {d : Decimal}

theorem fillDigits_eq {room uval : ℕ} (h0 : uval ≠ 0) (hlt : uval < nbase ^ room) (acc : List ℕ) :
    fillDigits room uval acc = some ((Nat.digits nbase uval).reverse ++ acc) := by
  induction room generalizing uval acc with
  | zero =>
    rw [pow_zero] at hlt
    omega
  | succ room ih =>
    have hdig : uval - uval / nbase * nbase = uval % nbase := by
      have := Nat.div_add_mod uval nbase
      rw [mul_comm] at this
      omega
    rw [fillDigits, Nat.digits_def' (by decide) (Nat.pos_of_ne_zero h0), reverse_cons,
      append_assoc, singleton_append, hdig]
    split
    · rename_i hzero
      rw [hzero, Nat.digits_zero]
      rfl
    · rename_i hne
      exact ih hne (Nat.div_lt_of_lt_mul (by rwa [pow_succ, mul_comm] at hlt)) _

/-- The digits of `decimal_from_long`. -/
def longDigits (n : ℤ) : List ℕ := (Nat.digits nbase n.natAbs).reverse

theorem longDigits_lt (n : ℤ) : ∀ x ∈ longDigits n, x < nbase := fun _ hx =>
  Nat.digits_lt_base (by decide) (mem_reverse.mp hx)

variable {n : ℤ}

theorem fillDigits_longNdigits (hne : n ≠ 0) (hmin : -2 ^ 63 ≤ n) (hmax : n < 2 ^ 63) :
    fillDigits longNdigits n.natAbs [] = some (longDigits n) := by
  have hlt : n.natAbs < nbase ^ longNdigits := by
    have : n.natAbs ≤ 2 ^ 63 := by omega
    exact lt_of_le_of_lt this (by decide)
  rw [fillDigits_eq (Int.natAbs_ne_zero.mpr hne) hlt, append_nil, longDigits]

end Decimal

end Novachains.Bson
