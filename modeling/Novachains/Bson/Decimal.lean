import Novachains.Basic
import Novachains.Lib.Digits
import Mathlib.Data.List.DropRight

/-!
# `bson_decimal`

A decimal is an array of digits in base 10000, the weight of the first digit, a sign and a display
scale, the number of decimals that are shown.  The sign also marks the special values, whose kind is
in the display scale.

Rounding may write into the cell in front of the first digit, so the model keeps the cells in front
of the digits: `_decimal_alloc` clears one, stripping a leading zero leaves one, and
`decimal_from_long` leaves cells that were never written.  A function has no result where the C
program would read such a cell, read outside an array or overflow an `int` accumulator.  Allocations
succeed.
-/

namespace Novachains.Bson

open Lib List

abbrev nbase : ℕ := 10000

abbrev halfNbase : ℕ := 5000

/-- `DECIMAL_DEC_DIGITS`, the decimal digits of one digit. -/
abbrev decDigits : ℕ := 4

abbrev maxWeight : ℕ := 32768

abbrev maxDscale : ℕ := 16383

abbrev maxPrecision : ℕ := 1000

/-- The `SDB_DECIMAL_*` signs; `unused` is the bit pattern that no function writes. -/
inductive Sign
  | pos
  | neg
  | special
  | unused
  deriving DecidableEq, Repr

/-- A cell of the buffer in front of the digits: it holds zero, or was never written. -/
inductive Cell
  | zero
  | unset
  deriving DecidableEq, Repr

/-- `bson_decimal` after `decimal_init`; `front` has the cells in front of the digits, the nearest
first. -/
structure Decimal where
  typemod : ℤ := -1
  sign : Sign := .pos
  dscale : ℤ := 0
  weight : ℤ := 0
  isOwn : Bool := false
  front : List Cell := []
  digits : List ℕ := []
  deriving DecidableEq, Repr

namespace Decimal

variable {d : Decimal}

def setZero : Decimal := {}

def setNan : Decimal := { sign := .special, dscale := 0 }

def setMin : Decimal := { sign := .special, dscale := 1 }

def setMax : Decimal := { sign := .special, dscale := 2 }

def isSpecial (d : Decimal) : Bool := d.sign = .special

def isNan (d : Decimal) : Bool := d.isSpecial && d.dscale = 0

def isMin (d : Decimal) : Bool := d.isSpecial && d.dscale = 1

def isMax (d : Decimal) : Bool := d.isSpecial && d.dscale = 2

/-- `decimal_init1`; nothing is initialised when the precision or the scale is refused. -/
def init1 (precision scale : ℤ) : Option Decimal :=
  if precision < 1 ∨ maxPrecision < precision then none
  else if scale < 0 ∨ precision < scale then none
  else some { typemod := precision * 2 ^ 16 + scale }

/-- `decimal_copy`; nothing of the target is kept. -/
def copy (source : Decimal) : Decimal := { source with isOwn := true, front := [.zero] }

/-- `_decimal_is_out_of_bound`. -/
def isOutOfBound (d : Decimal) : Bool := maxWeight ≤ d.weight || maxDscale < d.dscale

/-- `_decimal_strip`. -/
def strip (d : Decimal) : Decimal :=
  if d.isOwn then
    let leading := (d.digits.takeWhile (· = 0)).length
    let digits := (d.digits.dropWhile (· = 0)).rdropWhile (· = 0)
    { d with
      front := List.replicate leading .zero ++ d.front
      digits
      sign := if digits = [] then .pos else d.sign
      weight := if digits = [] then 0 else d.weight - leading }
  else d

def mag (d : Decimal) : ℚ := radix nbase d.digits d.weight

def value (d : Decimal) : ℚ := if d.sign = .neg then -d.mag else d.mag

def Finite (d : Decimal) : Prop := d.sign = .pos ∨ d.sign = .neg

def DigitsOk (d : Decimal) : Prop := ∀ x ∈ d.digits, x < nbase

structure Normal (d : Decimal) : Prop where
  finite : d.Finite
  digits : d.DigitsOk
  leading : d.digits.head? ≠ some 0
  trailing : d.digits.getLast? ≠ some 0
  zero : d.digits = [] → d.sign = .pos

def Shown (d : Decimal) : Prop := ∃ m : ℕ, d.mag * 10 ^ d.dscale = m

theorem mag_nonneg : 0 ≤ d.mag := radix_nonneg _

theorem mag_eq (d : Decimal) :
    d.mag = beVal nbase d.digits * (nbase : ℚ) ^ (d.weight + 1 - d.digits.length) :=
  radix_eq (by decide) _

theorem mag_lt (h : d.DigitsOk) : d.mag < (nbase : ℚ) ^ (d.weight + 1) := radix_lt (by decide) h _

theorem abs_value : |d.value| = d.mag := by
  unfold value
  split
  · rw [abs_neg, abs_of_nonneg mag_nonneg]
  · exact abs_of_nonneg mag_nonneg

theorem Normal.le_mag (h : d.Normal) (hne : d.digits ≠ []) : (nbase : ℚ) ^ d.weight ≤ d.mag := by
  obtain ⟨x, ds, hd⟩ := exists_cons_of_ne_nil hne
  have hx : x ≠ 0 := by
    rintro rfl
    exact h.leading (by rw [hd, head?_cons])
  rw [mag, hd]
  exact le_radix hx _

theorem Normal.mag_eq_zero_iff (h : d.Normal) : d.mag = 0 ↔ d.digits = [] := by
  refine ⟨fun h0 => ?_, fun hd => by rw [mag, hd, radix_nil]⟩
  by_contra hne
  have hpos : (0 : ℚ) < (nbase : ℚ) ^ d.weight := by positivity
  linarith [h.le_mag hne]

theorem zero_normal (s : ℤ) : ({ setZero with dscale := s } : Decimal).Normal :=
  ⟨.inl rfl, by simp [DigitsOk, setZero], by simp [setZero], by simp [setZero], fun _ => rfl⟩

theorem isOutOfBound_eq_false :
    d.isOutOfBound = false ↔ d.weight < maxWeight ∧ d.dscale ≤ maxDscale := by
  simp [isOutOfBound]

/-! ## Stripping -/

theorem strip_of_not_own (h : d.isOwn = false) : d.strip = d := by simp [strip, h]

theorem strip_digits (h : d.isOwn = true) :
    d.strip.digits = (d.digits.dropWhile (· = 0)).rdropWhile (· = 0) := by simp [strip, h]

theorem strip_weight (h : d.isOwn = true) :
    d.strip.weight = if d.strip.digits = [] then 0
      else d.weight - (d.digits.takeWhile (· = 0)).length := by simp [strip, h]

theorem strip_sign (h : d.isOwn = true) :
    d.strip.sign = if d.strip.digits = [] then .pos else d.sign := by simp [strip, h]

@[simp] theorem strip_dscale : d.strip.dscale = d.dscale := by unfold strip; split <;> rfl

@[simp] theorem strip_typemod : d.strip.typemod = d.typemod := by unfold strip; split <;> rfl

@[simp] theorem strip_isOwn : d.strip.isOwn = d.isOwn := by unfold strip; split <;> simp [*]

theorem strip_front (h : d.front.head? = some .zero) : d.strip.front.head? = some .zero := by
  cases hown : d.isOwn with
  | false => rwa [strip_of_not_own hown]
  | true =>
    simp only [strip, hown, if_true]
    cases (d.digits.takeWhile (· = 0)).length with
    | zero => simpa using h
    | succ k => simp [replicate_succ]

theorem digits_eq_strip (h : d.isOwn = true) : ∃ k,
    d.digits = List.replicate (d.digits.takeWhile (· = 0)).length 0
      ++ (d.strip.digits ++ List.replicate k 0) := by
  refine ⟨((d.digits.dropWhile (· = 0)).rtakeWhile (· = 0)).length, ?_⟩
  have hlead : d.digits.takeWhile (· = 0)
      = List.replicate (d.digits.takeWhile (· = 0)).length 0 :=
    eq_replicate_of_mem fun x hx => by simpa using mem_takeWhile_imp hx
  have htail : (d.digits.dropWhile (· = 0)).rtakeWhile (· = 0)
      = List.replicate ((d.digits.dropWhile (· = 0)).rtakeWhile (· = 0)).length 0 :=
    eq_replicate_of_mem fun x hx => by simpa using mem_rtakeWhile_imp hx
  rw [← hlead, ← htail, strip_digits h, rdropWhile_append_rtakeWhile, takeWhile_append_dropWhile]

theorem strip_mag : d.strip.mag = d.mag := by
  cases hown : d.isOwn with
  | false => rw [strip_of_not_own hown]
  | true =>
    obtain ⟨k, hk⟩ := digits_eq_strip hown
    have hmag : d.mag = radix nbase d.strip.digits
        (d.weight - (d.digits.takeWhile (· = 0)).length) := by
      rw [mag, hk, radix_append, radix_append]
      simp only [radix_replicate_zero, zero_add, add_zero, length_replicate]
      rw [← hk]
    rw [hmag, mag, strip_weight hown]
    by_cases hnil : d.strip.digits = []
    · rw [hnil, radix_nil, radix_nil]
    · rw [if_neg hnil]

theorem strip_value : d.strip.value = d.value := by
  cases hown : d.isOwn with
  | false => rw [strip_of_not_own hown]
  | true =>
    rw [value, value, strip_mag, strip_sign hown]
    by_cases hnil : d.strip.digits = []
    · have h0 : d.mag = 0 := by rw [← strip_mag, mag, hnil, radix_nil]
      simp [h0]
    · rw [if_neg hnil]

theorem strip_digitsOk (h : d.DigitsOk) : d.strip.DigitsOk := by
  cases hown : d.isOwn with
  | false => rwa [strip_of_not_own hown]
  | true =>
    obtain ⟨k, hk⟩ := digits_eq_strip hown
    intro x hx
    refine h x ?_
    rw [hk]
    simp [hx]

theorem strip_normal (hown : d.isOwn = true) (hfin : d.Finite) (hok : d.DigitsOk) :
    d.strip.Normal where
  finite := by
    rw [Finite, strip_sign hown]
    split
    · exact .inl rfl
    · exact hfin
  digits := strip_digitsOk hok
  leading := by
    intro hhead
    obtain ⟨t, ht⟩ := rdropWhile_prefix (p := (· = 0)) (l := d.digits.dropWhile (· = 0))
    rw [← strip_digits hown] at ht
    have hfirst := head?_dropWhile_not (· = 0) d.digits
    rw [← ht, head?_append, hhead] at hfirst
    simp at hfirst
  trailing := by
    intro hlast
    have hne : d.strip.digits ≠ [] := by
      rintro hnil
      simp [hnil] at hlast
    rw [getLast?_eq_some_getLast hne] at hlast
    have hnot := rdropWhile_last_not (· = 0) (d.digits.dropWhile (· = 0))
      (by rwa [← strip_digits hown])
    simp only [← strip_digits hown] at hnot
    simp_all
  zero := fun hnil => by rw [strip_sign hown, if_pos hnil]

end Decimal

end Novachains.Bson
