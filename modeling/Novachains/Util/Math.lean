import Mathlib.Tactic.Linarith

/-!
# Overflow predicates (`utilMath.cpp`)

Each predicate sees the operands and the result after it has wrapped. The product test divides, so
it is a partial function: a division that overflows or divides by zero has no value.
-/

namespace Novachains.Util

/-- The exact value does not fit in an `INT64`. -/
def Overflows (n : ℤ) : Prop := n < -2 ^ 63 ∨ 2 ^ 63 ≤ n

instance (n : ℤ) : Decidable (Overflows n) := inferInstanceAs (Decidable (_ ∨ _))

/-- The sum wrapped around. -/
def utilAddIsOverflow (l r result : Int64) : Bool :=
  if l > 0 && r > 0 && result < 0 then true
  else if l < 0 && r < 0 && result ≥ 0 then true
  else false

/-- The difference wrapped around. -/
def utilSubIsOverflow (l r result : Int64) : Bool :=
  if l ≥ 0 && r < 0 && result < 0 then true
  else if l < 0 && r > 0 && result > 0 then true
  else false

def utilDivIsOverflow (l r : Int64) : Bool := Int64.minValue = l && -1 = r

/-- The quotient, if the division is defined. -/
def div? (l r : Int64) : Option Int64 :=
  if r = 0 || utilDivIsOverflow l r then none else some (l / r)

/-- The product wrapped around. -/
def utilMulIsOverflow (l r result : Int64) : Option Bool :=
  if l ≠ l.toInt32.toInt64 || r ≠ r.toInt32.toInt64 then
    if r = 0 then some false
    else if r = -1 && l < 0 && result < 0 then some true
    else (div? result r).map fun q => q ≠ l
  else some false

variable (l r : Int64)

theorem toInt_range : -2 ^ 63 ≤ l.toInt ∧ l.toInt < 2 ^ 63 := ⟨l.le_toInt, l.toInt_lt⟩

theorem exists_wrap {n : ℤ} (h : l.toInt = n.bmod (2 ^ 64)) : ∃ k, l.toInt = n + 2 ^ 64 * k := by
  obtain ⟨k, hk⟩ := Int.dvd_bmod_sub_self (x := n) (m := 2 ^ 64)
  exact ⟨k, by omega⟩

theorem utilAddIsOverflow_eq :
    utilAddIsOverflow l r (l + r) = decide (Overflows (l.toInt + r.toInt)) := by
  obtain ⟨k, hk⟩ := exists_wrap _ (Int64.toInt_add l r)
  have hl := toInt_range l
  have hr := toInt_range r
  have hs := toInt_range (l + r)
  rw [Bool.eq_iff_iff, decide_eq_true_iff, Overflows]
  simp [utilAddIsOverflow, Int64.lt_iff_toInt_lt, Int64.le_iff_toInt_le, -Int64.toInt_add]
  omega

theorem utilSubIsOverflow_eq :
    utilSubIsOverflow l r (l - r) = decide (Overflows (l.toInt - r.toInt)) := by
  obtain ⟨k, hk⟩ := exists_wrap _ (Int64.toInt_sub l r)
  have hl := toInt_range l
  have hr := toInt_range r
  have hs := toInt_range (l - r)
  rw [Bool.eq_iff_iff, decide_eq_true_iff, Overflows]
  simp [utilSubIsOverflow, Int64.lt_iff_toInt_lt, Int64.le_iff_toInt_le, -Int64.toInt_sub]
  omega

theorem not_overflows_of_toInt32 (hl : l = l.toInt32.toInt64) (hr : r = r.toInt32.toInt64) :
    ¬Overflows (l.toInt * r.toInt) := by
  rw [hl, hr, Int32.toInt_toInt64, Int32.toInt_toInt64]
  have := l.toInt32.toInt_lt
  have := l.toInt32.le_toInt
  have := r.toInt32.toInt_lt
  have := r.toInt32.le_toInt
  rintro (h | h) <;> nlinarith

/-- A quotient that gives the other operand back excludes a wrap, which moves by 2^64. -/
theorem tdiv_ne_iff (h0 : r ≠ 0) :
    (l * r).toInt.tdiv r.toInt ≠ l.toInt ↔ Overflows (l.toInt * r.toInt) := by
  have h0 : r.toInt ≠ 0 := by simpa [← Int64.toInt_inj] using h0
  have hr := toInt_range r
  have hs := toInt_range (l * r)
  obtain ⟨k, hk⟩ := exists_wrap _ (Int64.toInt_mul l r)
  rw [Overflows]
  constructor
  · intro hne
    by_contra hov
    refine hne ?_
    rw [show (l * r).toInt = l.toInt * r.toInt by omega, Int.mul_tdiv_cancel _ h0]
  · intro hov heq
    have hd := Int.mul_tdiv_add_tmod (l * r).toInt r.toInt
    have hm := Int.natAbs_tmod (l * r).toInt r.toInt
    have := Nat.mod_lt (l * r).toInt.natAbs (Int.natAbs_pos.mpr h0)
    rw [heq, mul_comm] at hd
    omega

theorem utilMulIsOverflow_eq :
    utilMulIsOverflow l r (l * r) = some (decide (Overflows (l.toInt * r.toInt))) := by
  have hl := toInt_range l
  have hs := toInt_range (l * r)
  obtain ⟨k, hk⟩ := exists_wrap _ (Int64.toInt_mul l r)
  rw [utilMulIsOverflow]
  split_ifs with h32 h0 hm
  · simp [h0, Overflows]
  · obtain ⟨⟨rfl, hneg⟩, hres⟩ : (r = -1 ∧ l.toInt < 0) ∧ (l * r).toInt < 0 := by
      simpa [Int64.lt_iff_toInt_lt, -Int64.toInt_mul] using hm
    rw [show (-1 : Int64).toInt = -1 from rfl] at hk ⊢
    have hov : Overflows (l.toInt * -1) := by
      rw [Overflows]
      omega
    simp only [hov, decide_true]
  · have hmin : ¬(l * r = Int64.minValue ∧ r = -1) := by
      rintro ⟨hmin, rfl⟩
      have hmin : (l * -1).toInt = -2 ^ 63 := hmin ▸ rfl
      rw [show (-1 : Int64).toInt = -1 from rfl] at hk
      have hm : l.toInt < 0 → 0 ≤ (l * -1).toInt := by
        simpa [Int64.lt_iff_toInt_lt, -Int64.toInt_mul] using hm
      omega
    have hq : (l * r / r).toInt = (l * r).toInt.tdiv r.toInt := by
      rcases not_and_or.mp hmin with h | h
      · exact Int64.toInt_div_of_ne_left _ _ h
      · exact Int64.toInt_div_of_ne_right _ _ h
    simp only [← tdiv_ne_iff l r h0, ← hq, ne_eq, Int64.toInt_inj]
    grind [div?, utilDivIsOverflow]
  · simpa using not_overflows_of_toInt32 l r (by grind) (by grind)

/-- **The overflow predicates are exact**, and the product test makes no undefined division. -/
theorem isOverflow_exact :
    utilAddIsOverflow l r (l + r) = decide (Overflows (l.toInt + r.toInt)) ∧
      utilSubIsOverflow l r (l - r) = decide (Overflows (l.toInt - r.toInt)) ∧
      utilMulIsOverflow l r (l * r) = some (decide (Overflows (l.toInt * r.toInt))) :=
  ⟨utilAddIsOverflow_eq l r, utilSubIsOverflow_eq l r, utilMulIsOverflow_eq l r⟩

end Novachains.Util
