import Novachains.Lib.DigitLoops
import Mathlib.Data.List.GetD

/-!
# Long division

`longDiv` divides a number, digit by digit, by a divisor that is one number.  `knuthLoop` has a
divisor of several digits: every quotient digit is guessed from the first digits of both numbers,
lowered while three digits of the dividend show that it is too large, and corrected once more if the
subtraction borrows.

Digit lists have the most significant digit first; the dividend is the array from the current
position on.
-/

namespace Novachains.Lib

open List
open Nat (ofDigits)

variable {b : ℕ}

/-- Divide by `v`, with `r` the remainder so far. -/
def longDiv (b v : ℕ) : ℕ → List ℕ → List ℕ
  | _, [] => []
  | r, x :: xs => (r * b + x) / v :: longDiv b v ((r * b + x) % v) xs

@[simp] theorem length_longDiv (v r : ℕ) (xs : List ℕ) : (longDiv b v r xs).length = xs.length := by
  induction xs generalizing r with
  | nil => rfl
  | cons x xs ih => simp [longDiv, ih]

theorem longDiv_written {v r : ℕ} {xs : List ℕ} (hr : r < v) (h : ∀ x ∈ xs, x < b) :
    Written b xs.length (longDiv b v r xs) := by
  induction xs generalizing r with
  | nil => exact .nil
  | cons x xs ih =>
    obtain ⟨hx, hxs⟩ := forall_mem_cons.mp h
    have hlt : r * b + x < v * b := by nlinarith
    exact .cons (Nat.div_lt_of_lt_mul hlt) (ih (Nat.mod_lt _ (by omega)) hxs)

theorem beVal_longDiv {v r : ℕ} (hr : r < v) (xs : List ℕ) :
    beVal b (longDiv b v r xs) = (r * b ^ xs.length + beVal b xs) / v := by
  induction xs generalizing r with
  | nil => simp [longDiv, Nat.div_eq_of_lt hr]
  | cons x xs ih =>
    have hv : 0 < v := by omega
    -- the first quotient digit takes its multiple of the divisor away
    have hsplit : r * b ^ (x :: xs).length + beVal b (x :: xs)
        = v * ((r * b + x) / v * b ^ xs.length)
          + ((r * b + x) % v * b ^ xs.length + beVal b xs) := by
      rw [length_cons, beVal_cons]
      have hdiv := Nat.div_add_mod (r * b + x) v
      calc r * b ^ (xs.length + 1) + (x * b ^ xs.length + beVal b xs)
          = (r * b + x) * b ^ xs.length + beVal b xs := by ring
        _ = (v * ((r * b + x) / v) + (r * b + x) % v) * b ^ xs.length + beVal b xs := by rw [hdiv]
        _ = _ := by ring
    rw [longDiv, beVal_cons, length_longDiv, ih (Nat.mod_lt _ hv), hsplit, Nat.mul_add_div hv]

def guess (b v1 u0 u1 : ℕ) : ℕ := if u0 = v1 then b - 1 else (u0 * b + u1) / v1

/-- Lower the guess while it is too large for three digits of the dividend and two of the divisor.
-/
def lower (b v1 v2 next2 u2 : ℕ) : ℕ → ℕ
  | 0 => 0
  | q + 1 =>
    if ((next2 : ℤ) - (q + 1) * v1) * b + u2 < v2 * (q + 1) then lower b v1 v2 next2 u2 q
    else q + 1

theorem lower_eq (b v1 v2 next2 u2 q : ℕ) :
    lower b v1 v2 next2 u2 q
      = Nat.findGreatest (fun q => q * (v1 * b + v2) ≤ next2 * b + u2) q := by
  induction q with
  | zero => rfl
  | succ q ih =>
    have hcond : ((next2 : ℤ) - (q + 1) * v1) * b + u2 < v2 * (q + 1)
        ↔ ¬ (q + 1) * (v1 * b + v2) ≤ next2 * b + u2 := by
      rw [not_le, ← Int.ofNat_lt]
      push_cast
      constructor <;> intro h <;> linarith
    rw [lower, Nat.findGreatest_succ, ih]
    by_cases h : (q + 1) * (v1 * b + v2) ≤ next2 * b + u2
    · rw [if_pos h, if_neg (mt hcond.mp (not_not.mpr h))]
    · rw [if_neg h, if_pos (hcond.mpr h)]

section estimate

variable {v1 v2 u0 u1 u2 : ℕ}

theorem guess_le (hu : u0 ≤ v1) (hu1 : u1 < b) : guess b v1 u0 u1 ≤ b - 1 := by
  rw [guess]
  split
  · exact le_refl _
  · have hlt : u0 * b + u1 < v1 * b := by nlinarith [lt_of_le_of_ne hu ‹_›]
    exact Nat.le_sub_one_of_lt (Nat.div_lt_of_lt_mul hlt)

theorem le_guess (hu : u0 ≤ v1) (hu2 : u2 < b) {q : ℕ} (hq : q ≤ b - 1)
    (h : q * (v1 * b + v2) ≤ (u0 * b + u1) * b + u2) : q ≤ guess b v1 u0 u1 := by
  rw [guess]
  split
  · exact hq
  have hpos : 0 < v1 := by omega
  rw [Nat.le_div_iff_mul_le hpos]
  by_contra hlt
  have hstep : (u0 * b + u1 + 1) * b ≤ q * v1 * b := Nat.mul_le_mul_right b (by omega)
  nlinarith

def estimate (b v1 v2 u0 u1 u2 : ℕ) : ℕ := lower b v1 v2 (u0 * b + u1) u2 (guess b v1 u0 u1)

theorem estimate_le (v2 u2 : ℕ) (hu : u0 ≤ v1) (hu1 : u1 < b) :
    estimate b v1 v2 u0 u1 u2 ≤ b - 1 := by
  rw [estimate, lower_eq]
  exact (Nat.findGreatest_le _).trans (guess_le hu hu1)

theorem estimate_mul_le (b v1 v2 u0 u1 u2 : ℕ) :
    estimate b v1 v2 u0 u1 u2 * (v1 * b + v2) ≤ (u0 * b + u1) * b + u2 := by
  rw [estimate, lower_eq]
  exact Nat.findGreatest_spec (P := fun q => q * (v1 * b + v2) ≤ (u0 * b + u1) * b + u2)
    (Nat.zero_le _) (by simp)

theorem le_estimate (hu : u0 ≤ v1) (hu2 : u2 < b) {q : ℕ} (hq : q ≤ b - 1)
    (h : q * (v1 * b + v2) ≤ (u0 * b + u1) * b + u2) : q ≤ estimate b v1 v2 u0 u1 u2 := by
  rw [estimate, lower_eq]
  exact Nat.le_findGreatest (le_guess hu hu2 hq h) h

end estimate

theorem quotient_of_leading {q V U p vr : ℕ} (ur : ℕ) (hvr : vr < p) (hq : q ≤ V) (hle : q * V ≤ U) :
    (q - 1) * (V * p + vr) ≤ U * p + ur := by
  obtain _ | q := q
  · simp
  rw [Nat.add_sub_cancel]
  calc q * (V * p + vr) ≤ q * (V * p + p) := by gcongr
    _ ≤ (q + 1) * V * p := by nlinarith
    _ ≤ U * p := Nat.mul_le_mul_right p hle
    _ ≤ U * p + ur := Nat.le_add_right _ _

theorem leading_of_quotient {q V U p vr ur : ℕ} (hur : ur < p)
    (hle : q * (V * p + vr) ≤ U * p + ur) : q * V ≤ U := by
  by_contra hlt
  have hstep : (U + 1) * p ≤ q * V * p := Nat.mul_le_mul_right p (by omega)
  nlinarith

/-! ## Several digits as divisor -/

/-- One quotient digit, from as many digits of the dividend as the divisor has and one more, and
what is left of them. -/
def knuthStep (b : ℕ) (divisor window : List ℕ) : ℕ × List ℕ :=
  if window.getD 0 0 * b + window.getD 1 0 = 0 then (0, window)
  else
    let qhat := estimate b (divisor.getD 0 0) (divisor.getD 1 0) (window.getD 0 0)
      (window.getD 1 0) (window.getD 2 0)
    if qhat = 0 then (0, window)
    else
      let r := mulSubDigits b qhat (window.reverse.zip (0 :: divisor).reverse) 0 0
      if r.2 = 0 then (qhat, r.1.reverse)
      else
        -- one too large: add the divisor back
        (qhat - 1, (addDigits b (r.1.zip (0 :: divisor).reverse) 0).1.reverse)

/-- The first `n` quotient digits of a dividend. -/
def knuthLoop (b : ℕ) (divisor : List ℕ) : ℕ → List ℕ → List ℕ
  | 0, _ => []
  | n + 1, dividend =>
    let r := knuthStep b divisor (dividend.take (divisor.length + 1))
    r.1 :: knuthLoop b divisor n (r.2.tail ++ dividend.drop (divisor.length + 1))

structure Window (b : ℕ) (divisor window : List ℕ) : Prop where
  two : 2 ≤ divisor.length
  leading : divisor.getD 0 0 ≠ 0
  length : window.length = divisor.length + 1
  divisorLt : ∀ x ∈ divisor, x < b
  windowLt : ∀ x ∈ window, x < b
  lt : beVal b window < beVal b divisor * b

namespace Window

variable {divisor window : List ℕ}

section
variable (h : Window b divisor window)
include h

theorem one_lt : 1 < b := by
  have hpos : 0 < divisor.length := by have := h.two; omega
  have hlead := h.leading
  rw [getD_eq_getElem _ _ hpos] at hlead
  have := h.divisorLt _ (getElem_mem hpos)
  omega

/-- **The estimate is the quotient digit, or one too large.** -/
theorem estimate_near :
    let qhat := estimate b (divisor.getD 0 0) (divisor.getD 1 0) (window.getD 0 0)
      (window.getD 1 0) (window.getD 2 0)
    qhat ≤ b - 1 ∧ beVal b window / beVal b divisor ≤ qhat
      ∧ qhat ≤ beVal b window / beVal b divisor + 1 := by
  obtain ⟨htwo, hlead, hlen, hdl, hwl, hlt⟩ := h
  match divisor, window, htwo, hlead, hlen, hdl, hwl, hlt with
  | v1 :: v2 :: vs, u0 :: u1 :: u2 :: us, _, hlead, hlen, hdl, hwl, hlt =>
    simp only [getD_cons_zero, getD_cons_succ, length_cons, forall_mem_cons]
      at hlead hlen hdl hwl ⊢
    obtain ⟨hv1, hv2, hvs⟩ := hdl
    obtain ⟨hu0, hu1, hu2, hus⟩ := hwl
    have hb : 1 < b := by omega
    have hvr : beVal b vs < b ^ vs.length := beVal_lt hb hvs
    have hur : beVal b us < b ^ vs.length := by
      have := beVal_lt hb hus
      rwa [show us.length = vs.length by omega] at this
    have hv : beVal b (v1 :: v2 :: vs) = (v1 * b + v2) * b ^ vs.length + beVal b vs := by
      rw [beVal_cons, beVal_cons, length_cons]
      ring
    have hu : beVal b (u0 :: u1 :: u2 :: us)
        = ((u0 * b + u1) * b + u2) * b ^ vs.length + beVal b us := by
      rw [beVal_cons, beVal_cons, beVal_cons, length_cons, length_cons,
        show us.length = vs.length by omega]
      ring
    rw [hv, hu] at hlt
    rw [hv, hu]
    have hpos : 0 < (v1 * b + v2) * b ^ vs.length + beVal b vs := Nat.pos_of_lt_mul_right hlt
    have hle : u0 ≤ v1 := by
      by_contra hgt
      have hchain : ((v1 * b + v2) * b ^ vs.length + beVal b vs) * b
          ≤ ((u0 * b + u1) * b + u2) * b ^ vs.length + beVal b us :=
        calc ((v1 * b + v2) * b ^ vs.length + beVal b vs) * b
            ≤ ((v1 * b + v2) * b ^ vs.length + b ^ vs.length) * b := by gcongr
          _ = (v1 * b + (v2 + 1)) * b ^ vs.length * b := by ring
          _ ≤ (v1 * b + b) * b ^ vs.length * b := by gcongr; omega
          _ = (v1 + 1) * b * b * b ^ vs.length := by ring
          _ ≤ u0 * b * b * b ^ vs.length := by gcongr; omega
          _ ≤ ((u0 * b + u1) * b + u2) * b ^ vs.length + beVal b us := by
            rw [add_mul, add_mul, add_mul]
            omega
      omega
    have hmax := estimate_le v2 u2 hle hu1
    refine ⟨hmax, ?_, ?_⟩
    · have hq := Nat.le_sub_one_of_lt (Nat.div_lt_of_lt_mul hlt)
      exact le_estimate hle hu2 hq (leading_of_quotient hur (Nat.div_mul_le_self _ _))
    have hV : b ≤ v1 * b + v2 := by nlinarith [Nat.pos_of_ne_zero hlead]
    have hback := quotient_of_leading (beVal b us) hvr (hmax.trans (by omega))
      (estimate_mul_le b v1 v2 u0 u1 u2)
    have := (Nat.le_div_iff_mul_le hpos).mpr hback
    omega

theorem mulSub_spec {q : ℕ} (hq : q ≤ b - 1) :
    let r := mulSubDigits b q (window.reverse.zip (0 :: divisor).reverse) 0 0
    Written b window.length r.1 ∧ ofDigits b r.1 + q * beVal b divisor
      = beVal b window + b ^ window.length * r.2 := by
  have hb : 0 < b := by have := h.one_lt; omega
  have hlen : (window.reverse.zip (0 :: divisor).reverse).length = window.length := by
    simp [h.length]
  have hfst : ∀ p ∈ window.reverse.zip (0 :: divisor).reverse, p.1 < b := fun p hp =>
    h.windowLt _ (mem_reverse.mp (of_mem_zip hp).1)
  have hw := mulSubDigits_written hb q hfst 0 (Nat.zero_le 1)
  have heq := ofDigits_mulSubDigits hb q (window.reverse.zip (0 :: divisor).reverse) 0
    (Nat.zero_le 1)
  have hzero : ofDigits b (0 :: divisor).reverse = beVal b divisor := by
    rw [← beVal, beVal_cons, Nat.zero_mul, Nat.zero_add]
  have hfits : q * beVal b divisor < b ^ window.length := by
    rw [h.length, pow_succ']
    exact Nat.mul_lt_mul'' (by omega) (beVal_lt h.one_lt h.divisorLt)
  rw [hlen] at hw heq
  rw [map_fst_zip (by simp [h.length]), map_snd_zip (by simp [h.length]), hzero, Nat.zero_add,
    Nat.mod_eq_of_lt hfits, Nat.add_zero] at heq
  exact ⟨hw, heq⟩

theorem divisor_lt_pow : beVal b divisor < b ^ window.length := by
  rw [h.length]
  exact (beVal_lt h.one_lt h.divisorLt).trans (Nat.pow_lt_pow_right h.one_lt (Nat.lt_succ_self _))

theorem addBack_spec {ds : List ℕ} (hds : Written b window.length ds) :
    let r := addDigits b (ds.zip (0 :: divisor).reverse) 0
    Written b window.length r.1
      ∧ ofDigits b r.1 = (ofDigits b ds + beVal b divisor) % b ^ window.length := by
  have hlen : ds.length = (0 :: divisor).reverse.length := by simp [hds.length, h.length]
  have hzip : (ds.zip (0 :: divisor).reverse).length = window.length := by
    rw [length_zip, ← hlen, Nat.min_self, hds.length]
  have hlt : ∀ p ∈ ds.zip (0 :: divisor).reverse, p.1 < b ∧ p.2 < b := by
    intro p hp
    obtain ⟨h1, h2⟩ := of_mem_zip hp
    refine ⟨hds.lt _ h1, ?_⟩
    rcases mem_cons.mp (mem_reverse.mp h2) with h0 | h2
    · have := h.one_lt
      omega
    · exact h.divisorLt _ h2
  have hw := addDigits_written hlt (Nat.zero_le 1)
  have hsum := ofDigits_addDigits (b := b) (ds.zip (0 :: divisor).reverse) 0
  have hzero : ofDigits b (0 :: divisor).reverse = beVal b divisor := by
    rw [← beVal, beVal_cons, Nat.zero_mul, Nat.zero_add]
  rw [hzip] at hw hsum
  rw [map_fst_zip hlen.le, map_snd_zip hlen.ge, hzero, Nat.add_zero] at hsum
  refine ⟨hw, ?_⟩
  have hout : ofDigits b (addDigits b (ds.zip (0 :: divisor).reverse) 0).1
      < b ^ window.length := by
    rw [← hw.length]
    exact Nat.ofDigits_lt_base_pow_length h.one_lt hw.lt
  rw [← hsum, Nat.add_mul_mod_self_right, Nat.mod_eq_of_lt hout]

end

end Window

structure Divided (b : ℕ) (divisor window : List ℕ) (r : ℕ × List ℕ) : Prop where
  quotient : r.1 = beVal b window / beVal b divisor
  remainder : beVal b r.2 = beVal b window % beVal b divisor
  written : Written b window.length r.2

theorem Written.reverse {n : ℕ} {ds : List ℕ} (h : Written b n ds) : Written b n ds.reverse where
  length := by rw [length_reverse, h.length]
  lt := fun x hx => h.lt x (mem_reverse.mp hx)

theorem beVal_reverse (ds : List ℕ) : beVal b ds.reverse = ofDigits b ds := by
  rw [beVal, reverse_reverse]

section step

variable {divisor window : List ℕ}

theorem Divided.zero (h : Window b divisor window) (h0 : beVal b window / beVal b divisor = 0) :
    Divided b divisor window (0, window) where
  quotient := h0.symm
  remainder := by
    have hpos : 0 < beVal b divisor := Nat.pos_of_lt_mul_right h.lt
    exact (Nat.mod_eq_of_lt ((Nat.div_eq_zero_iff_lt hpos).mp h0)).symm
  written := ⟨rfl, h.windowLt⟩

/-- **One step of the division.** -/
theorem knuthStep_spec (h : Window b divisor window) :
    Divided b divisor window (knuthStep b divisor window) := by
  have hpos : 0 < beVal b divisor := Nat.pos_of_lt_mul_right h.lt
  obtain ⟨hmax, hge, hle⟩ := h.estimate_near
  have hfits := estimate_mul_le b (divisor.getD 0 0) (divisor.getD 1 0) (window.getD 0 0)
    (window.getD 1 0) (window.getD 2 0)
  rw [knuthStep]
  generalize hqhat : estimate b (divisor.getD 0 0) (divisor.getD 1 0) (window.getD 0 0)
    (window.getD 1 0) (window.getD 2 0) = qhat at *
  split
  · rename_i hnext
    -- the first two digits are zero, so the window is below the divisor
    have hq : qhat = 0 := by
      by_contra hne
      have hthree : window.getD 2 0 < b := by
        have := h.two
        rw [getD_eq_getElem _ _ (by have := h.length; omega)]
        exact h.windowLt _ (getElem_mem _)
      have hlead : 1 ≤ divisor.getD 0 0 := Nat.one_le_iff_ne_zero.mpr h.leading
      have hq1 : 1 ≤ qhat := Nat.one_le_iff_ne_zero.mpr hne
      rw [hnext, zero_mul, zero_add] at hfits
      have hb : b ≤ qhat * (divisor.getD 0 0 * b + divisor.getD 1 0) := by
        calc b = 1 * (1 * b + 0) := by ring
          _ ≤ qhat * (divisor.getD 0 0 * b + divisor.getD 1 0) := by gcongr; omega
      omega
    exact .zero h (Nat.le_zero.mp (hge.trans hq.le))
  · dsimp only
    split
    · rename_i hq
      exact .zero h (Nat.le_zero.mp (hge.trans hq.le))
    obtain ⟨hw, heq⟩ := h.mulSub_spec hmax
    generalize mulSubDigits b qhat (window.reverse.zip (0 :: divisor).reverse) 0 0 = r at *
    have hdm := Nat.div_add_mod (beVal b window) (beVal b divisor)
    have hmod := Nat.mod_lt (beVal b window) hpos
    split
    · rename_i hborrow
      rw [hborrow, mul_zero, add_zero] at heq
      have hq : qhat = beVal b window / beVal b divisor := by
        refine le_antisymm ?_ hge
        rw [Nat.le_div_iff_mul_le hpos]
        omega
      refine ⟨hq, ?_, hw.reverse⟩
      rw [beVal_reverse]
      rw [hq, mul_comm] at heq
      omega
    · rename_i hborrow
      have hlt : ofDigits b r.1 < b ^ window.length := by
        rw [← hw.length]
        exact Nat.ofDigits_lt_base_pow_length h.one_lt hw.lt
      have hcarry : b ^ window.length ≤ b ^ window.length * r.2 :=
        Nat.le_mul_of_pos_right _ (Nat.pos_of_ne_zero hborrow)
      have hq : qhat = beVal b window / beVal b divisor + 1 := by
        refine le_antisymm hle (Nat.succ_le_of_lt (Nat.div_lt_of_lt_mul ?_))
        rw [mul_comm]
        omega
      obtain ⟨hw', hback⟩ := h.addBack_spec hw
      refine ⟨by rw [hq, Nat.add_sub_cancel], ?_, hw'.reverse⟩
      rw [beVal_reverse, hback]
      have hsum : ofDigits b r.1 + beVal b divisor
          = beVal b window % beVal b divisor + b ^ window.length * r.2 := by
        rw [hq, add_mul, one_mul, mul_comm] at heq
        omega
      rw [hsum, Nat.add_mul_mod_self_left, Nat.mod_eq_of_lt (hmod.trans h.divisor_lt_pow)]

end step

/-! ## The whole division -/

theorem beVal_tail_of_lt {ds : List ℕ} (h : beVal b ds < b ^ (ds.length - 1)) :
    beVal b ds.tail = beVal b ds := by
  cases ds with
  | nil => rfl
  | cons x xs =>
    rw [beVal_cons, length_cons, Nat.add_sub_cancel] at h
    have hx : x = 0 := by
      by_contra hne
      have := Nat.le_mul_of_pos_left (b ^ xs.length) (Nat.pos_of_ne_zero hne)
      omega
    rw [hx, tail_cons, beVal_cons, zero_mul, zero_add]

/-- **The division by several digits is the division by their number**, by induction on the
quotient digits. -/
theorem knuthLoop_eq {divisor : List ℕ} (htwo : 2 ≤ divisor.length)
    (hlead : divisor.getD 0 0 ≠ 0) (hdiv : ∀ x ∈ divisor, x < b) {n : ℕ} {dividend : List ℕ}
    (hdigits : ∀ x ∈ dividend, x < b) (hlen : divisor.length + n ≤ dividend.length)
    (hlt : beVal b (dividend.take divisor.length) < beVal b divisor) :
    knuthLoop b divisor n dividend
      = longDiv b (beVal b divisor) (beVal b (dividend.take divisor.length))
          ((dividend.drop divisor.length).take n) := by
  induction n generalizing dividend with
  | zero => simp [knuthLoop, longDiv]
  | succ n ih =>
    have hin : divisor.length < dividend.length := by omega
    have hx : dividend[divisor.length] < b := hdigits _ (getElem_mem hin)
    have hwindow : beVal b (dividend.take (divisor.length + 1))
        = beVal b (dividend.take divisor.length) * b + dividend[divisor.length] := by
      rw [take_succ_eq_append_getElem hin, beVal_append, beVal_singleton, length_singleton, pow_one]
    have hwin : Window b divisor (dividend.take (divisor.length + 1)) :=
      ⟨htwo, hlead, by rw [length_take]; omega, hdiv,
        fun x hx => hdigits x (mem_of_mem_take hx), by rw [hwindow]; nlinarith⟩
    have hstep := knuthStep_spec hwin
    rw [knuthLoop]
    generalize knuthStep b divisor (dividend.take (divisor.length + 1)) = r at *
    have hrlen : r.2.length = divisor.length + 1 := by
      rw [hstep.written.length, length_take]
      omega
    have hpos : 0 < beVal b divisor := by omega
    have hrlt : beVal b r.2 < beVal b divisor := by
      rw [hstep.remainder]
      exact Nat.mod_lt _ hpos
    have htail : beVal b r.2.tail = beVal b r.2 := by
      refine beVal_tail_of_lt (hrlt.trans ?_)
      rw [hrlen, Nat.add_sub_cancel]
      exact beVal_lt hwin.one_lt hdiv
    have htake : (r.2.tail ++ dividend.drop (divisor.length + 1)).take divisor.length = r.2.tail :=
      take_left' (by rw [length_tail, hrlen, Nat.add_sub_cancel])
    have hdrop : (r.2.tail ++ dividend.drop (divisor.length + 1)).drop divisor.length
        = dividend.drop (divisor.length + 1) :=
      drop_left' (by rw [length_tail, hrlen, Nat.add_sub_cancel])
    have hnext := @ih (r.2.tail ++ dividend.drop (divisor.length + 1))
      (by
        intro y hy
        rcases mem_append.mp hy with hy | hy
        · exact hstep.written.lt y (mem_of_mem_tail hy)
        · exact hdigits y (mem_of_mem_drop hy))
      (by rw [List.length_append, length_tail, hrlen, length_drop]; omega)
      (by rwa [htake, htail])
    rw [htake, hdrop, htail, hstep.remainder] at hnext
    rw [drop_eq_getElem_cons hin, take_succ_cons, longDiv, ← hwindow, hnext, hstep.quotient]

theorem knuthLoop_spec {divisor : List ℕ} (htwo : 2 ≤ divisor.length)
    (hlead : divisor.getD 0 0 ≠ 0) (hdiv : ∀ x ∈ divisor, x < b) {n : ℕ} {dividend : List ℕ}
    (hdigits : ∀ x ∈ dividend, x < b) (hlen : divisor.length + n ≤ dividend.length)
    (hlt : beVal b dividend < beVal b divisor * b ^ (dividend.length - divisor.length)) :
    Written b n (knuthLoop b divisor n dividend)
      ∧ beVal b (knuthLoop b divisor n dividend)
        = beVal b dividend / (b ^ (dividend.length - (divisor.length + n)) * beVal b divisor) := by
  have hb : 1 < b := by
    rw [getD_eq_getElem _ _ (by omega)] at hlead
    have := hdiv _ (getElem_mem (by omega : 0 < divisor.length))
    omega
  have hfirst : beVal b (dividend.take divisor.length) < beVal b divisor := by
    rw [beVal_take hb hdigits]
    exact Nat.div_lt_of_lt_mul (by rwa [mul_comm])
  have htake : ((dividend.drop divisor.length).take n).length = n := by
    rw [length_take, length_drop]
    omega
  have hrest : ∀ x ∈ (dividend.drop divisor.length).take n, x < b := fun x hx =>
    hdigits x (mem_of_mem_drop (mem_of_mem_take hx))
  rw [knuthLoop_eq htwo hlead hdiv hdigits hlen hfirst]
  constructor
  · have hw := longDiv_written hfirst hrest
    rwa [htake] at hw
  have happ : beVal b (dividend.take divisor.length ++ (dividend.drop divisor.length).take n)
      = _ := beVal_append
  rw [← take_add, htake, beVal_take hb hdigits] at happ
  rw [beVal_longDiv hfirst, htake, ← happ, Nat.div_div_eq_div_mul]

end Novachains.Lib
