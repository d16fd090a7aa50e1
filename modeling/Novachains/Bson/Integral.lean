import Novachains.Bson.Div
import Novachains.Bson.Parse

/-!
# Ceiling and floor

`decimal_ceil` and `decimal_floor` cut a copy off at the point, compare it with the original and
step by one if the two differ and the sign is the right one.  Only the step strips its result, so
digits cut off without a step keep the zero digits in front of the point.  And `decimal_cmp` takes a
zero without digits to differ from one with digits, as rounding leaves them: the ceiling of such a
zero is one.
-/

namespace Novachains.Bson.Decimal

open Lib

/-- `const_one`, whose digit is not in a buffer of its own. -/
def constOne : Decimal := { digits := [1] }

/-- `decimal_ceil`; the temporary is the left operand and the result of the addition. -/
def ceil (d : Decimal) : Except Rc Decimal :=
  if d.isSpecial then .ok setNan
  else
    let tmp := d.copy.trunc 0
    if d.sign = .pos ∧ cmp d tmp ≠ 0 then (add { isLeft := true } tmp constOne).map copy
    else .ok tmp.copy

/-- `decimal_floor`, which also checks its result. -/
def floor (d : Decimal) : Except Rc Decimal :=
  if d.isSpecial then .ok setNan
  else
    let tmp := d.copy.trunc 0
    (if d.sign = .neg ∧ cmp d tmp ≠ 0 then (sub { isLeft := true } tmp constOne).map copy
      else .ok tmp.copy).bind fun r => if r.isOutOfBound then .error .invalidArg else .ok r

variable {d r tmp : Decimal}

/-! ## The temporary -/

def whole (d : Decimal) : Decimal :=
  { d with digits := d.digits.take (d.weight + 1).toNat, dscale := 0 }

def cleared (typemod : ℤ) : Decimal := { typemod, isOwn := true, front := [.zero] }

theorem trunc_of_neg (hw : d.weight < 0) : d.copy.trunc 0 = cleared d.typemod := by
  have hdi : (d.copy.weight + 1) * (decDigits : ℕ) + 0 ≤ 0 := by
    simp only [copy, decDigits]
    omega
  rw [trunc, if_neg (by simp [copy])]
  rw [if_pos hdi]
  rfl

theorem trunc_of_nonneg (hw : 0 ≤ d.weight) : d.copy.trunc 0 = d.whole.copy := by
  obtain ⟨k, hk⟩ := Int.eq_ofNat_of_zero_le hw
  have hdi : (d.copy.weight + 1) * (decDigits : ℕ) + 0 = (4 * (k + 1) : ℕ) := by
    simp only [copy, decDigits, hk]
    push_cast
    ring
  have hnd : (4 * (k + 1) + decDigits - 1) / decDigits = k + 1 := by
    simp only [decDigits]
    omega
  have hmod : 4 * (k + 1) % decDigits = 0 := by
    simp only [decDigits]
    omega
  rw [trunc, if_neg (by simp [copy])]
  dsimp only
  have htake : (d.weight + 1).toNat = k + 1 := by omega
  rw [hdi, if_neg (by omega), Int.toNat_natCast, hnd, hmod, whole, htake]
  split
  · simp [copy, keepDigits]
  · rename_i hlen
    rw [List.take_of_length_le (by simp only [copy] at hlen; omega)]
    rfl

theorem copy_normal_iff : d.copy.Normal ↔ d.Normal :=
  ⟨fun h => ⟨h.finite, h.digits, h.leading, h.trailing, h.zero⟩,
    fun h => ⟨h.finite, h.digits, h.leading, h.trailing, h.zero⟩⟩

theorem whole_mag (hok : d.DigitsOk) (hw : 0 ≤ d.weight) : d.whole.copy.mag = ⌊d.mag⌋₊ := by
  have h := (trunc_spec (d := d.copy) rfl hok 0).mag
  rwa [trunc_of_nonneg hw, truncTo_zero_eq] at h

theorem whole_digitsOk (hok : d.DigitsOk) : d.whole.copy.DigitsOk :=
  fun x hx => hok x (List.mem_of_mem_take hx)

theorem whole_finite (hfin : d.Finite) : d.whole.copy.Finite := hfin

theorem whole_isOutOfBound : d.whole.copy.isOutOfBound = true ↔ (maxWeight : ℤ) ≤ d.weight := by
  rw [← not_iff_not, Bool.not_eq_true, isOutOfBound_eq_false, not_le]
  exact and_iff_left (show (0 : ℤ) ≤ maxDscale by decide)

theorem whole_digits_eq_nil (hw : 0 ≤ d.weight) : d.whole.copy.digits = [] ↔ d.digits = [] := by
  have hne : (d.weight + 1).toNat ≠ 0 := by omega
  simp [copy, whole, hne]

theorem mag_lt_one (hok : d.DigitsOk) (hw : d.weight < 0) : d.mag < 1 :=
  calc d.mag < (nbase : ℚ) ^ (d.weight + 1) := mag_lt hok
    _ ≤ (nbase : ℚ) ^ (0 : ℤ) := zpow_le_zpow_right₀ (by norm_num) (by omega)
    _ = 1 := zpow_zero _

theorem cmp_of_finite {a b : Decimal} (ha : a.Finite) (hb : b.Finite) : cmp a b = cmpFinite a b := by
  simp [cmp, isMin, isMax, isNan, isSpecial_of_finite ha, isSpecial_of_finite hb]

theorem cmp_trunc_of_neg (hfin : d.Finite) (hw : d.weight < 0) :
    cmp d (d.copy.trunc 0) = 0 ↔ d.digits = [] := by
  rw [trunc_of_neg hw, cmp_of_finite hfin (.inl rfl), cmpFinite]
  by_cases hnil : d.digits = []
  · simp [hnil, cleared]
  · simp only [hnil, if_false, cleared, if_true, iff_false]
    split <;> decide

theorem cmp_trunc_of_nonneg (hfin : d.Finite) (hok : d.DigitsOk) (hw : 0 ≤ d.weight) :
    cmp d (d.copy.trunc 0) = 0 ↔ (⌊d.mag⌋₊ : ℚ) = d.mag := by
  rw [trunc_of_nonneg hw, cmp_of_finite hfin (whole_finite hfin), cmpFinite]
  by_cases hnil : d.digits = []
  · have hmag : d.mag = 0 := by rw [mag, hnil, radix_nil]
    simp [hnil, whole_digits_eq_nil hw, hmag]
  rw [if_neg hnil, if_neg ((whole_digits_eq_nil hw).not.mpr hnil)]
  rcases hfin with hs | hs
  · have hsign : d.whole.copy.sign = .pos := hs
    rw [if_pos hs, if_neg (by rw [hsign]; decide), cmpAbs_eq hok (whole_digitsOk hok),
      whole_mag hok hw, cast_sign_eq_zero, sub_eq_zero]
    exact eq_comm
  · have hsign : d.whole.copy.sign = .neg := hs
    rw [if_neg (by rw [hs]; decide), if_neg (by rw [hsign]; decide),
      cmpAbs_eq (whole_digitsOk hok) hok, whole_mag hok hw, cast_sign_eq_zero, sub_eq_zero]

theorem constOne_value : constOne.value = 1 := by simp [value, mag, constOne, radix]

theorem constOne_digitsOk : constOne.DigitsOk := by simp [DigitsOk, constOne]

def IsInteger (d : Decimal) : Prop := ∃ z : ℤ, d.value = z

theorem isInteger_iff : d.IsInteger ↔ (⌊d.mag⌋₊ : ℚ) = d.mag := by
  constructor
  · rintro ⟨z, hz⟩
    have habs : d.mag = (z.natAbs : ℕ) := by
      rw [← abs_value, hz, ← Int.cast_natCast, Int.natCast_natAbs, Int.cast_abs]
    rw [habs, Nat.floor_natCast]
  · intro h
    rw [IsInteger, value]
    split
    · exact ⟨-(⌊d.mag⌋₊ : ℤ), by push_cast; rw [h]⟩
    · exact ⟨(⌊d.mag⌋₊ : ℤ), by push_cast; rw [h]⟩

theorem ceil_mag (h : ¬ (⌊d.mag⌋₊ : ℚ) = d.mag) : (⌈d.mag⌉ : ℚ) = ⌊d.mag⌋₊ + 1 := by
  have hle : (⌊d.mag⌋₊ : ℚ) ≤ d.mag := Nat.floor_le mag_nonneg
  have hlt : d.mag < ⌊d.mag⌋₊ + 1 := Nat.lt_floor_add_one d.mag
  have hceil : ⌈d.mag⌉ = (⌊d.mag⌋₊ : ℤ) + 1 := by
    rw [Int.ceil_eq_iff]
    push_cast
    exact ⟨by linarith [lt_of_le_of_ne hle h], hlt.le⟩
  rw [hceil]
  push_cast
  rfl

theorem ceil_mag_of_eq (h : (⌊d.mag⌋₊ : ℚ) = d.mag) : (⌈d.mag⌉ : ℚ) = ⌊d.mag⌋₊ := by
  rw [← h, Nat.floor_natCast, Int.ceil_natCast, Int.cast_natCast]

theorem one_eq_ceil_mag_iff (hlt : d.mag < 1) : (1 : ℚ) = ⌈d.mag⌉ ↔ ¬ d.mag = 0 := by
  have hfloor : ⌊d.mag⌋₊ = 0 := Nat.floor_eq_zero.mpr hlt
  by_cases h0 : d.mag = 0
  · simp [h0]
  · rw [ceil_mag (by rw [hfloor]; exact fun h => h0 (by simpa using h.symm)), hfloor]
    simp [h0]

theorem floor_mag : (⌊d.mag⌋ : ℚ) = ⌊d.mag⌋₊ := by
  rw [← Int.natCast_floor_eq_floor mag_nonneg, Int.cast_natCast]

/-! ## Without a digit in front of the point -/

def StaleZero (d : Decimal) : Prop := d.weight < 0 ∧ d.digits ≠ [] ∧ d.value = 0

/-- A ceiling that succeeds is the least integer from the value on, in normal form. -/
def CeilOk (d : Decimal) : Prop := ∀ r, d.ceil = .ok r → r.value = ⌈d.value⌉ ∧ r.Normal

/-- A floor that succeeds is the greatest integer up to the value, in normal form. -/
def FloorOk (d : Decimal) : Prop := ∀ r, d.floor = .ok r → r.value = ⌊d.value⌋ ∧ r.Normal

theorem ceilOk_of_eq (h : d.ceil = .ok r) : CeilOk d ↔ r.value = ⌈d.value⌉ ∧ r.Normal := by
  simp [CeilOk, h]

theorem floorOk_of_eq (h : d.floor = .ok r) : FloorOk d ↔ r.value = ⌊d.value⌋ ∧ r.Normal := by
  simp [FloorOk, h]

def stepped (sign : Sign) : Decimal := { sign, isOwn := true, front := [.zero], digits := [1] }

theorem stepped_normal {sign : Sign} (hs : sign = .pos ∨ sign = .neg) : (stepped sign).Normal :=
  ⟨hs, by simp [DigitsOk, stepped], by simp [stepped], by simp [stepped], by simp [stepped]⟩

theorem stepped_value {sign : Sign} : (stepped sign).value = signed sign 1 := by
  simp [value, mag, stepped, radix, signed]

theorem cleared_normal (typemod : ℤ) : (cleared typemod).Normal :=
  ⟨.inl rfl, by simp [DigitsOk, cleared], by simp [cleared], by simp [cleared], fun _ => rfl⟩

theorem cleared_value (typemod : ℤ) : (cleared typemod).value = 0 := by simp [value, mag, cleared]

theorem add_cleared (typemod : ℤ) :
    (add { isLeft := true } (cleared typemod) constOne).map copy = .ok (stepped .pos) := by
  have htypemod : add { isLeft := true } (cleared typemod) constOne
      = add { isLeft := true } (cleared (-1)) constOne := rfl
  rw [htypemod]
  decide +kernel

theorem sub_cleared (typemod : ℤ) :
    (sub { isLeft := true } (cleared typemod) constOne).map copy = .ok (stepped .neg) := by
  have htypemod : sub { isLeft := true } (cleared typemod) constOne
      = sub { isLeft := true } (cleared (-1)) constOne := rfl
  rw [htypemod]
  decide +kernel

/-- What the two functions share. -/
def stepFrom (sign : Sign) (op : Target → Decimal → Decimal → Except Rc Decimal)
    (d tmp : Decimal) : Except Rc Decimal :=
  if d.sign = sign ∧ cmp d tmp ≠ 0 then (op { isLeft := true } tmp constOne).map copy
  else .ok tmp.copy

/-- The operation makes a step of one to the side of `side`. -/
structure StepsTo (side : Sign) (op : Target → Decimal → Decimal → Except Rc Decimal) : Prop where
  sign : side = .pos ∨ side = .neg
  ok : ∀ {tmp r : Decimal} {t : Target}, tmp.Finite → tmp.DigitsOk → op t tmp constOne = .ok r →
    r.value = tmp.value + signed side 1 ∧ r.Normal
  of_cleared : ∀ typemod,
    (op { isLeft := true } (cleared typemod) constOne).map copy = .ok (stepped side)

theorem add_stepsTo : StepsTo .pos add where
  sign := .inl rfl
  of_cleared := add_cleared
  ok hfin hok h := by
    obtain ⟨e, hsum, hadd⟩ := add_eq hfin hok (.inl rfl) constOne_digitsOk _
    rw [hadd] at h
    obtain ⟨-, rfl⟩ := stripChecked_ok.mp h
    refine ⟨?_, hsum.normal⟩
    rw [strip_value, hsum.value, ← value_eq_signed, ← value_eq_signed, constOne_value]
    rfl

theorem sub_stepsTo : StepsTo .neg sub where
  sign := .inr rfl
  of_cleared := sub_cleared
  ok hfin hok h := by
    obtain ⟨e, hsum, hsub⟩ := sub_eq hfin hok (.inl rfl) constOne_digitsOk _
    rw [hsub] at h
    obtain ⟨-, rfl⟩ := stripChecked_ok.mp h
    refine ⟨?_, hsum.normal⟩
    have hone : constOne.sign = .pos ∨ constOne.sign = .neg := .inl rfl
    rw [strip_value, hsum.value, signed_flip hone, ← value_eq_signed, ← value_eq_signed,
      constOne_value]
    rfl

/-- The value rounded to the side of `side`. -/
def toward (side : Sign) (d : Decimal) : ℚ := signed side ⌈signed side d.value⌉

variable {side : Sign} {op : Target → Decimal → Decimal → Except Rc Decimal} {keep : Decimal → Prop}

theorem toward_of_eq (hs : d.sign = side) : d.toward side = signed side ⌈d.mag⌉ := by
  have hmag : signed side d.value = d.mag := by
    rw [value_eq_signed, hs, signed, signed]
    split <;> simp
  rw [toward, hmag]

theorem toward_of_ne (hside : side = .pos ∨ side = .neg) (hfin : d.Finite) (hs : d.sign ≠ side) :
    d.toward side = signed d.sign ⌊d.mag⌋₊ := by
  have hmag : signed side d.value = -d.mag := by
    rcases hside with rfl | rfl <;> rcases hfin with h | h <;> simp [signed, value, h] at hs ⊢
  rw [toward, hmag, Int.ceil_neg, Int.cast_neg, floor_mag]
  rcases hside with rfl | rfl <;> rcases hfin with h | h <;> simp [signed, h] at hs ⊢

/-- The result of the step is right wherever it is not refused. -/
def StepRight (keep : Decimal → Prop) (side : Sign)
    (op : Target → Decimal → Decimal → Except Rc Decimal) (d : Decimal) : Prop :=
  ∀ r, stepFrom side op d (d.copy.trunc 0) = .ok r → keep r → r.value = d.toward side ∧ r.Normal

section
variable (hfin : d.Finite)
include hfin

theorem ceilOk_iff : CeilOk d ↔ StepRight (fun _ => True) .pos add d := by
  have hceil : d.ceil = stepFrom .pos add d (d.copy.trunc 0) := by
    rw [ceil, isSpecial_of_finite hfin, if_neg Bool.false_ne_true]
    rfl
  simp [CeilOk, StepRight, hceil, toward, signed]

theorem floorOk_iff : FloorOk d ↔ StepRight (fun r => r.isOutOfBound = false) .neg sub d := by
  have hfloor : ∀ r, d.floor = .ok r ↔
      stepFrom .neg sub d (d.copy.trunc 0) = .ok r ∧ r.isOutOfBound = false := by
    intro r
    rw [floor, isSpecial_of_finite hfin, if_neg Bool.false_ne_true, except_bind_eq_ok]
    grind [stepFrom]
  simp [FloorOk, StepRight, hfloor, toward, signed, Int.ceil_neg]

/-- Without a digit in front of the point. -/
theorem stepRight_of_weight_neg (hop : StepsTo side op) (hok : d.DigitsOk) (hw : d.weight < 0)
    (hstepped : keep (stepped side)) (hcleared : keep (cleared d.typemod)) :
    StepRight keep side op d ↔ ¬ (d.StaleZero ∧ d.sign = side) := by
  have hlt := mag_lt_one hok hw
  have hres : stepFrom side op d (d.copy.trunc 0) =
      .ok (if d.sign = side ∧ d.digits ≠ [] then stepped side else cleared d.typemod) := by
    have hcmp := (cmp_trunc_of_neg hfin hw).not
    rw [trunc_of_neg hw] at hcmp ⊢
    rw [stepFrom, hop.of_cleared]
    simp only [hcmp]
    split <;> rfl
  simp only [StepRight, hres, Except.ok.injEq, forall_eq', StaleZero]
  by_cases hs : d.sign = side
  · rw [toward_of_eq hs]
    by_cases hnil : d.digits = []
    · have hmag : d.mag = 0 := by rw [mag, hnil, radix_nil]
      simp [hnil, hmag, cleared_value, cleared_normal, hcleared, signed_zero]
    · have hzero : d.value = 0 ↔ d.mag = 0 := by
        rw [value_eq_signed, signed]
        split <;> simp
      simp [hs, hnil, hw, hstepped, stepped_value, signed_inj, one_eq_ceil_mag_iff hlt,
        stepped_normal hop.sign, hzero]
  · rw [toward_of_ne hop.sign hfin hs, Nat.floor_eq_zero.mpr hlt]
    simp [hs, hcleared, cleared_value, cleared_normal, signed_zero]

/-- With digits in front of the point. -/
theorem stepRight_of_weight_nonneg (hop : StepsTo side op) (hok : d.DigitsOk) (hw : 0 ≤ d.weight) :
    StepRight keep side op d ↔
      (d.sign = side ∧ ¬ d.IsInteger) ∨ ¬ keep d.whole.copy ∨ d.whole.Normal := by
  have hcmp := (cmp_trunc_of_nonneg hfin hok hw).not
  have hwhole : d.whole.copy.value = signed d.sign ⌊d.mag⌋₊ := by
    rw [value_eq_signed, whole_mag hok hw]
    rfl
  rw [isInteger_iff, ← hcmp, StepRight, stepFrom]
  by_cases hstep : d.sign = side ∧ cmp d (d.copy.trunc 0) ≠ 0
  · refine iff_of_true (fun r hr _ => ?_) (.inl hstep)
    rw [if_pos hstep, trunc_of_nonneg hw] at hr
    obtain ⟨e, he, rfl⟩ := except_map_eq_ok.mp hr
    obtain ⟨hvalue, hnormal⟩ := hop.ok (whole_finite hfin) (whole_digitsOk hok) he
    refine ⟨?_, copy_normal_iff.mpr hnormal⟩
    rw [hwhole, hstep.1] at hvalue
    calc e.copy.value = signed side ⌊d.mag⌋₊ + signed side 1 := hvalue
      _ = signed side (⌊d.mag⌋₊ + 1) := by
        rw [signed, signed, signed]
        split <;> ring
      _ = d.toward side := by rw [toward_of_eq hstep.1, ceil_mag (hcmp.mp hstep.2)]
  · have hright : signed d.sign ⌊d.mag⌋₊ = d.toward side := by
      by_cases hs : d.sign = side
      · rw [toward_of_eq hs, hs, ceil_mag_of_eq (not_not.mp fun hne => hstep ⟨hs, hcmp.mpr hne⟩)]
      · rw [toward_of_ne hop.sign hfin hs]
    rw [if_neg hstep, or_iff_right hstep, trunc_of_nonneg hw]
    simp only [Except.ok.injEq, forall_eq']
    rw [show d.whole.copy.copy = d.whole.copy from rfl, hwhole, copy_normal_iff, imp_iff_not_or,
      and_iff_right hright]

end

/-! ## Both together -/

/-- Where ceiling and floor are right: behind the point, no zero that has digits; in front of it,
digits that are in normal form without the decimals. Out of bound, a positive number with decimals
has a ceiling that steps and a floor that is refused. -/
def IntegralSafe (d : Decimal) : Prop :=
  (d.weight < 0 → ¬ d.StaleZero)
    ∧ (0 ≤ d.weight → d.whole.Normal
      ∨ maxWeight ≤ d.weight ∧ d.sign = .pos ∧ ¬ d.IsInteger)

/-- **Ceiling and floor are right**, in value and form, exactly for the decimals that are safe. -/
theorem ceil_floor_iff (hfin : d.Finite) (hok : d.DigitsOk) :
    (CeilOk d ∧ FloorOk d) ↔ d.IntegralSafe := by
  rw [ceilOk_iff hfin, floorOk_iff hfin, IntegralSafe]
  rcases lt_or_ge d.weight 0 with hw | hw
  · rw [stepRight_of_weight_neg hfin add_stepsTo hok hw trivial trivial,
      stepRight_of_weight_neg hfin sub_stepsTo hok hw (by rfl) (by rfl)]
    simp only [hw, forall_const, not_le.mpr hw, false_implies, and_true]
    rcases hfin with hs | hs <;> simp [hs]
  rw [stepRight_of_weight_nonneg hfin add_stepsTo hok hw,
    stepRight_of_weight_nonneg hfin sub_stepsTo hok hw, Bool.not_eq_false, whole_isOutOfBound]
  simp only [hw, forall_const, not_lt.mpr hw, false_implies, true_and]
  rcases hfin with hs | hs <;> simp only [hs, true_and] <;> tauto

/-- `0.00`, as rounding leaves it. -/
def roundedAway : Decimal := {
  typemod := 655362
  dscale := 2
  weight := -1
  isOwn := true
  front := [.zero, .zero]
  digits := [0] }

theorem minusSevenHalf_integralSafe : minusSevenHalf.IntegralSafe := by
  refine ⟨fun h => absurd h (by decide), fun _ => .inl ?_⟩
  exact ⟨.inr rfl, by simp [DigitsOk, whole, minusSevenHalf, nbase], by decide, by decide, by decide⟩

/-- The ceiling of `-7.5` cuts off, its floor steps. -/
theorem ceil_floor_half : CeilOk minusSevenHalf ∧ FloorOk minusSevenHalf :=
  (ceil_floor_iff (.inr rfl) minusSevenHalf_normal.digits).mpr minusSevenHalf_integralSafe

/-- The floor of `10000.5` keeps a zero digit; the ceiling of `0.004`, read with two decimals, is
one. -/
theorem ceil_floor_wrong :
    (fromStr (-1) "10000.5".toList = some (.ok tenThousandHalf)
        ∧ ∃ r, tenThousandHalf.floor = .ok r ∧ r.digits = [1, 0])
      ∧ (fromStr 655362 "0.004".toList = some (.ok roundedAway)
        ∧ roundedAway.value = 0 ∧ ∃ r, roundedAway.ceil = .ok r ∧ r.value = 1)
      ∧ ¬ FloorOk tenThousandHalf ∧ ¬ CeilOk roundedAway := by
  have hfloor : tenThousandHalf.floor = .ok { tenThousandHalf with dscale := 0, digits := [1, 0] } := by
    decide +kernel
  have hceil : roundedAway.ceil = .ok (stepped .pos) := by decide +kernel
  have hzero : roundedAway.value = 0 := by simp [value, mag, roundedAway, radix]
  have hone : (stepped .pos).value = 1 := by simp [stepped_value, signed]
  refine ⟨⟨by decide +kernel, _, hfloor, rfl⟩, ⟨by decide +kernel, hzero, _, hceil, hone⟩, ?_, ?_⟩
  · rw [floorOk_of_eq hfloor]
    intro h
    exact h.2.trailing rfl
  · rw [ceilOk_of_eq hceil, hone, hzero]
    simp

end Novachains.Bson.Decimal
