import Novachains.Lib.Digits

/-!
# Loops over digits

Arithmetic on digit arrays runs from the last digit to the first, so the lists here have the least
significant digit first and their value is `Nat.ofDigits`.  A loop over two arrays reads a list of
pairs.  Each loop has one equation between what it reads, what it writes and the carry it leaves.
-/

namespace Novachains.Lib

open List
open Nat (ofDigits ofDigits_cons)

variable {b : ℕ}

structure Written (b n : ℕ) (ds : List ℕ) : Prop where
  length : ds.length = n
  lt : ∀ d ∈ ds, d < b

theorem Written.nil : Written b 0 [] where
  length := rfl
  lt := by simp

theorem Written.cons {n d : ℕ} {ds : List ℕ} (hd : d < b) (h : Written b n ds) :
    Written b (n + 1) (d :: ds) where
  length := by rw [length_cons, h.length]
  lt := forall_mem_cons.mpr ⟨hd, h.lt⟩

/-! ## Sum and difference -/

def addDigits (b : ℕ) : List (ℕ × ℕ) → ℕ → List ℕ × ℕ
  | [], c => ([], c)
  | (x, y) :: ps, c =>
    if b ≤ c + x + y then
      ((c + x + y - b) :: (addDigits b ps 1).1, (addDigits b ps 1).2)
    else
      ((c + x + y) :: (addDigits b ps 0).1, (addDigits b ps 0).2)

theorem addDigits_written {ps : List (ℕ × ℕ)} (h : ∀ p ∈ ps, p.1 < b ∧ p.2 < b) {c : ℕ}
    (hc : c ≤ 1) : Written b ps.length (addDigits b ps c).1 := by
  induction ps generalizing c with
  | nil => exact .nil
  | cons p ps ih =>
    obtain ⟨⟨hx, hy⟩, hps⟩ := forall_mem_cons.mp h
    rw [addDigits]
    split
    · exact .cons (by omega) (ih hps (le_refl 1))
    · exact .cons (by omega) (ih hps (Nat.zero_le 1))

theorem ofDigits_addDigits (ps : List (ℕ × ℕ)) (c : ℕ) :
    ofDigits b (addDigits b ps c).1 + (addDigits b ps c).2 * b ^ ps.length
      = ofDigits b (ps.map Prod.fst) + ofDigits b (ps.map Prod.snd) + c := by
  induction ps generalizing c with
  | nil => simp [addDigits]
  | cons p ps ih =>
    have ih1 := ih 1
    have ih0 := ih 0
    rw [addDigits, length_cons, pow_succ]
    split <;> simp only [ofDigits_cons, map_cons]
    · have hs : c + p.1 + p.2 - b + b = c + p.1 + p.2 := Nat.sub_add_cancel ‹_›
      nlinarith
    · nlinarith

/-- Subtract `c + q * y` from `x` in every pair, with `c` the carry of the products and `r` the
borrow of the difference. -/
def mulSubDigits (b q : ℕ) : List (ℕ × ℕ) → ℕ → ℕ → List ℕ × ℕ
  | [], _, r => ([], r)
  | (x, y) :: ps, c, r =>
    let c' := c + y * q
    let t : ℤ := x - (c' % b : ℕ) - r
    if t < 0 then
      ((t + b).toNat :: (mulSubDigits b q ps (c' / b) 1).1, (mulSubDigits b q ps (c' / b) 1).2)
    else
      (t.toNat :: (mulSubDigits b q ps (c' / b) 0).1, (mulSubDigits b q ps (c' / b) 0).2)

theorem mulSubDigits_written (hb : 0 < b) (q : ℕ) {ps : List (ℕ × ℕ)} (h : ∀ p ∈ ps, p.1 < b)
    (c : ℕ) {r : ℕ} (hr : r ≤ 1) : Written b ps.length (mulSubDigits b q ps c r).1 := by
  induction ps generalizing c r with
  | nil => exact .nil
  | cons p ps ih =>
    obtain ⟨hx, hps⟩ := forall_mem_cons.mp h
    have hmod : (c + p.2 * q) % b < b := Nat.mod_lt _ hb
    rw [mulSubDigits]
    split
    · exact .cons (by omega) (ih hps _ (le_refl 1))
    · exact .cons (by omega) (ih hps _ (Nat.zero_le 1))

theorem ofDigits_mulSubDigits (hb : 0 < b) (q : ℕ) (ps : List (ℕ × ℕ)) (c : ℕ) {r : ℕ}
    (hr : r ≤ 1) :
    ofDigits b (mulSubDigits b q ps c r).1
        + (c + q * ofDigits b (ps.map Prod.snd)) % b ^ ps.length + r
      = ofDigits b (ps.map Prod.fst) + b ^ ps.length * (mulSubDigits b q ps c r).2 := by
  induction ps generalizing c r with
  | nil => simp [mulSubDigits, Nat.mod_one]
  | cons p ps ih =>
    -- the product of the last digit splits into what is subtracted here and what is carried
    have hsplit : (c + q * (p.2 + b * ofDigits b (ps.map Prod.snd))) % (b * b ^ ps.length)
        = (c + p.2 * q) % b
          + b * (((c + p.2 * q) / b + q * ofDigits b (ps.map Prod.snd)) % b ^ ps.length) := by
      have hsum : c + q * (p.2 + b * ofDigits b (ps.map Prod.snd))
          = c + p.2 * q + b * (q * ofDigits b (ps.map Prod.snd)) := by ring
      rw [hsum, Nat.mod_mul, Nat.add_mul_mod_self_left, Nat.add_mul_div_left _ _ hb]
    have ih1 := ih ((c + p.2 * q) / b) (le_refl 1)
    have ih0 := ih ((c + p.2 * q) / b) (Nat.zero_le 1)
    have hmod : (c + p.2 * q) % b < b := Nat.mod_lt _ hb
    rw [mulSubDigits, length_cons, pow_succ']
    split <;> simp only [ofDigits_cons, map_cons] <;> rw [hsplit]
    · have hdigit : ((p.1 : ℤ) - ((c + p.2 * q) % b : ℕ) - r + b).toNat + (c + p.2 * q) % b + r
          = p.1 + b := by omega
      nlinarith
    · have hdigit : ((p.1 : ℤ) - ((c + p.2 * q) % b : ℕ) - r).toNat + (c + p.2 * q) % b + r
          = p.1 := by omega
      nlinarith

def subDigits (b : ℕ) : List (ℕ × ℕ) → ℕ → List ℕ × ℕ
  | [], r => ([], r)
  | (x, y) :: ps, r =>
    let t : ℤ := x - y - r
    if t < 0 then
      ((t + b).toNat :: (subDigits b ps 1).1, (subDigits b ps 1).2)
    else
      (t.toNat :: (subDigits b ps 0).1, (subDigits b ps 0).2)

theorem subDigits_eq {ps : List (ℕ × ℕ)} (h : ∀ p ∈ ps, p.2 < b) (r : ℕ) :
    subDigits b ps r = mulSubDigits b 1 ps 0 r := by
  induction ps generalizing r with
  | nil => rfl
  | cons p ps ih =>
    obtain ⟨hy, hps⟩ := forall_mem_cons.mp h
    rw [subDigits, mulSubDigits]
    simp only [zero_add, mul_one, Nat.mod_eq_of_lt hy, Nat.div_eq_of_lt hy, ih hps]

/-- Multiply by `d`. -/
def scaleDigits (b d : ℕ) : List ℕ → ℕ → List ℕ × ℕ
  | [], c => ([], c)
  | x :: xs, c =>
    let c' := c + x * d
    (c' % b :: (scaleDigits b d xs (c' / b)).1, (scaleDigits b d xs (c' / b)).2)

theorem scaleDigits_written (hb : 0 < b) (d : ℕ) (xs : List ℕ) (c : ℕ) :
    Written b xs.length (scaleDigits b d xs c).1 := by
  induction xs generalizing c with
  | nil => exact .nil
  | cons x xs ih => exact .cons (Nat.mod_lt _ hb) (ih _)

theorem ofDigits_scaleDigits (d : ℕ) (xs : List ℕ) (c : ℕ) :
    ofDigits b (scaleDigits b d xs c).1 + (scaleDigits b d xs c).2 * b ^ xs.length
      = ofDigits b xs * d + c := by
  induction xs generalizing c with
  | nil => simp [scaleDigits]
  | cons x xs ih =>
    have hdiv := Nat.mod_add_div (c + x * d) b
    have hih := ih ((c + x * d) / b)
    simp only [scaleDigits, ofDigits_cons, length_cons, pow_succ]
    nlinarith

/-- Add `c` to the first digit and carry on while there is a carry. -/
def bump (b : ℕ) : List ℕ → ℕ → List ℕ × ℕ
  | [], c => ([], c)
  | x :: xs, c =>
    if c = 0 then (x :: xs, 0)
    else if b ≤ c + x then ((c + x - b) :: (bump b xs 1).1, (bump b xs 1).2)
    else ((c + x) :: xs, 0)

theorem bump_written {xs : List ℕ} (h : ∀ x ∈ xs, x < b) {c : ℕ} (hc : c ≤ b) :
    Written b xs.length (bump b xs c).1 := by
  induction xs generalizing c with
  | nil => exact .nil
  | cons x xs ih =>
    obtain ⟨hx, hxs⟩ := forall_mem_cons.mp h
    have hrest : Written b xs.length xs := ⟨rfl, hxs⟩
    rw [bump]
    split
    · exact .cons hx hrest
    · split
      · exact .cons (by omega) (ih hxs (by omega))
      · exact .cons (by omega) hrest

theorem bump_carry_le {xs : List ℕ} {c : ℕ} (h : xs ≠ [] ∨ c ≤ 1) : (bump b xs c).2 ≤ 1 := by
  induction xs generalizing c with
  | nil => exact h.resolve_left (· rfl)
  | cons x xs ih =>
    rw [bump]
    split
    · exact Nat.zero_le 1
    · split
      · exact ih (.inr (le_refl 1))
      · exact Nat.zero_le 1

theorem ofDigits_bump (xs : List ℕ) (c : ℕ) :
    ofDigits b (bump b xs c).1 + (bump b xs c).2 * b ^ xs.length = ofDigits b xs + c := by
  induction xs generalizing c with
  | nil => simp [bump]
  | cons x xs ih =>
    have hih := ih 1
    rw [bump]
    split
    · simp [*]
    split
    · have hs : c + x - b + b = c + x := Nat.sub_add_cancel ‹_›
      simp only [ofDigits_cons, length_cons, pow_succ]
      nlinarith
    · simp only [ofDigits_cons]
      omega

end Novachains.Lib
