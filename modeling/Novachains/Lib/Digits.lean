import Mathlib.Algebra.Order.Field.Power
import Mathlib.Data.Nat.Digits.Defs
import Mathlib.Tactic.FieldSimp
import Mathlib.Tactic.Positivity

/-!
# The values of digit lists

A list of digits is read in base `b`, the most significant digit first.  `beVal` is the natural
number it stands for; `radix` is the rational number when the first digit has weight `b ^ w`.
Loops that run from the last digit to the first see the reversed list, whose value is
`Nat.ofDigits`.
-/

namespace Novachains.Lib

open List

variable {b : ℕ} {ds es : List ℕ}

/-- The natural number that digits in base `b` stand for, the most significant first. -/
def beVal (b : ℕ) (ds : List ℕ) : ℕ := Nat.ofDigits b ds.reverse

@[simp] theorem beVal_nil : beVal b [] = 0 := rfl

theorem beVal_append : beVal b (ds ++ es) = beVal b ds * b ^ es.length + beVal b es := by
  rw [beVal, reverse_append, Nat.ofDigits_append, length_reverse]
  simp only [beVal]
  ring

@[simp] theorem beVal_singleton {d : ℕ} : beVal b [d] = d := by simp [beVal]

theorem beVal_cons {d : ℕ} : beVal b (d :: ds) = d * b ^ ds.length + beVal b ds := by
  rw [← singleton_append, beVal_append, beVal_singleton]

@[simp] theorem beVal_replicate_zero {k : ℕ} : beVal b (List.replicate k 0) = 0 := by
  simp [beVal]

theorem beVal_lt (hb : 1 < b) (h : ∀ d ∈ ds, d < b) : beVal b ds < b ^ ds.length := by
  have hrev : ∀ d ∈ ds.reverse, d < b := fun d hd => h d (mem_reverse.mp hd)
  simpa [beVal] using Nat.ofDigits_lt_base_pow_length hb hrev

theorem beVal_append_div (hb : 1 < b) (h : ∀ d ∈ es, d < b) :
    beVal b (ds ++ es) / b ^ es.length = beVal b ds := by
  rw [beVal_append, add_comm, Nat.add_mul_div_right _ _ (by positivity),
    Nat.div_eq_of_lt (beVal_lt hb h), zero_add]

theorem beVal_take (hb : 1 < b) (h : ∀ d ∈ ds, d < b) (k : ℕ) :
    beVal b (ds.take k) = beVal b ds / b ^ (ds.length - k) := by
  have hdrop : ∀ d ∈ ds.drop k, d < b := fun d hd => h d (mem_of_mem_drop hd)
  have hdiv : beVal b (ds.take k ++ ds.drop k) / b ^ (ds.drop k).length = beVal b (ds.take k) :=
    beVal_append_div hb hdrop
  rw [take_append_drop, length_drop] at hdiv
  exact hdiv.symm

theorem beVal_inj (hb : 1 < b) (hlen : ds.length = es.length) (hd : ∀ d ∈ ds, d < b)
    (he : ∀ d ∈ es, d < b) (h : beVal b ds = beVal b es) : ds = es := by
  apply reverse_injective
  exact Nat.ofDigits_inj_of_len_eq hb (by simpa using hlen) (by simpa using hd)
    (by simpa using he) h

theorem ofDigits_range_getD (hb : 0 < b) {l : List ℕ} (h : ∀ x ∈ l, x < b) (n : ℕ) :
    Nat.ofDigits b ((List.range n).map fun k => l.getD k 0) = Nat.ofDigits b l % b ^ n := by
  induction l generalizing n with
  | nil => simp
  | cons x xs ih =>
    obtain ⟨hx, hxs⟩ := forall_mem_cons.mp h
    cases n with
    | zero => simp [Nat.mod_one]
    | succ n =>
      rw [range_succ_eq_map, map_cons, List.map_map, Nat.ofDigits_cons, Nat.ofDigits_cons,
        pow_succ', Nat.mod_mul, Nat.add_mul_mod_self_left, Nat.mod_eq_of_lt hx,
        Nat.add_mul_div_left _ _ hb, Nat.div_eq_of_lt hx, zero_add, ← ih hxs n]
      rfl

theorem mul_le_mul_add_iff {p r x y : ℕ} (hr : r < p) : x * p ≤ y * p + r ↔ x ≤ y := by
  constructor
  · intro h
    by_contra hlt
    have : (y + 1) * p ≤ x * p := Nat.mul_le_mul_right p (by omega)
    nlinarith
  · intro h
    exact (Nat.mul_le_mul_right p h).trans (Nat.le_add_right _ _)

theorem pow_le_beVal_iff (hb : 1 < b) (h : ∀ d ∈ ds, d < b) :
    b ^ (ds.length - 1) ≤ beVal b ds ↔ ds.getD 0 0 ≠ 0 := by
  cases ds with
  | nil => simp
  | cons d ds =>
    obtain ⟨-, hds⟩ := forall_mem_cons.mp h
    rw [beVal_cons, length_cons, Nat.add_sub_cancel, getD_cons_zero]
    constructor
    · rintro hle rfl
      have := beVal_lt hb hds
      omega
    · intro hd
      exact (Nat.le_mul_of_pos_left _ (Nat.pos_of_ne_zero hd)).trans (Nat.le_add_right _ _)

/-- The number that `ds` stands for when its first digit counts `b ^ w`. -/
def radix (b : ℕ) : List ℕ → ℤ → ℚ
  | [], _ => 0
  | d :: ds, w => d * (b : ℚ) ^ w + radix b ds (w - 1)

@[simp] theorem radix_nil (w : ℤ) : radix b [] w = 0 := rfl

theorem radix_cons (d : ℕ) (w : ℤ) : radix b (d :: ds) w = d * (b : ℚ) ^ w + radix b ds (w - 1) :=
  rfl

theorem radix_eq (hb : b ≠ 0) (w : ℤ) :
    radix b ds w = beVal b ds * (b : ℚ) ^ (w + 1 - ds.length) := by
  induction ds generalizing w with
  | nil => simp
  | cons d ds ih =>
    have hb' : (b : ℚ) ≠ 0 := Nat.cast_ne_zero.mpr hb
    have hw : (b : ℚ) ^ w = (b : ℚ) ^ ds.length * (b : ℚ) ^ (w - ds.length) := by
      rw [← zpow_natCast, ← zpow_add₀ hb']
      congr 1
      ring
    have hlen : w + 1 - ((d :: ds).length : ℤ) = w - ds.length := by
      rw [length_cons]
      push_cast
      ring
    rw [radix_cons, ih, beVal_cons, hlen, hw, show w - 1 + 1 - (ds.length : ℤ) = w - ds.length by ring]
    push_cast
    ring

theorem radix_append (w : ℤ) :
    radix b (ds ++ es) w = radix b ds w + radix b es (w - ds.length) := by
  induction ds generalizing w with
  | nil => simp
  | cons d ds ih =>
    have hw : w - 1 - (ds.length : ℤ) = w - ((d :: ds).length : ℤ) := by
      rw [length_cons]
      push_cast
      ring
    rw [cons_append, radix_cons, radix_cons, ih, hw, add_assoc]

@[simp] theorem radix_replicate_zero (k : ℕ) (w : ℤ) : radix b (List.replicate k 0) w = 0 := by
  induction k generalizing w with
  | zero => rfl
  | succ k ih => rw [replicate_succ, radix_cons, ih]; simp

theorem radix_nonneg (w : ℤ) : 0 ≤ radix b ds w := by
  induction ds generalizing w with
  | nil => exact le_refl _
  | cons d ds ih =>
    rw [radix_cons]
    have := ih (w - 1)
    positivity

theorem radix_lt (hb : 1 < b) (h : ∀ d ∈ ds, d < b) (w : ℤ) : radix b ds w < (b : ℚ) ^ (w + 1) := by
  have hb' : (0 : ℚ) < b := by exact_mod_cast hb.trans' Nat.one_pos
  have hlt : (beVal b ds : ℚ) < (b : ℚ) ^ (ds.length : ℤ) := by
    rw [zpow_natCast]
    exact_mod_cast beVal_lt hb h
  calc radix b ds w = beVal b ds * (b : ℚ) ^ (w + 1 - ds.length) := radix_eq (by omega) w
    _ < (b : ℚ) ^ (ds.length : ℤ) * (b : ℚ) ^ (w + 1 - ds.length) := by gcongr
    _ = (b : ℚ) ^ (w + 1) := by rw [← zpow_add₀ hb'.ne']; congr 1; ring

theorem le_radix {d : ℕ} (hd : d ≠ 0) (w : ℤ) : (b : ℚ) ^ w ≤ radix b (d :: ds) w := by
  have hnat : 1 ≤ d := Nat.one_le_iff_ne_zero.mpr hd
  have h1 : (1 : ℚ) ≤ d := by exact_mod_cast hnat
  have hpow : (0 : ℚ) ≤ (b : ℚ) ^ w := by positivity
  rw [radix_cons]
  have htail : 0 ≤ radix b ds (w - 1) := radix_nonneg (w - 1)
  nlinarith

theorem radix_eq_zero_iff (hb : b ≠ 0) (w : ℤ) : radix b ds w = 0 ↔ ∀ d ∈ ds, d = 0 := by
  induction ds generalizing w with
  | nil => simp
  | cons d ds ih =>
    have hpow : (0 : ℚ) < (b : ℚ) ^ w := by positivity
    have hnonneg : 0 ≤ radix b ds (w - 1) := radix_nonneg (w - 1)
    have hd : (0 : ℚ) ≤ d * (b : ℚ) ^ w := by positivity
    rw [radix_cons, add_eq_zero_iff_of_nonneg hd hnonneg, ih, mul_eq_zero,
      or_iff_left hpow.ne', Nat.cast_eq_zero, forall_mem_cons]

end Novachains.Lib
