import Novachains.Bson.Storage

/-!
# Precision and scale

A `typemod` packs a precision and a scale.  `_decimal_apply_typmod` rounds to the scale and refuses
a number with more digits in front of the point than the precision leaves, counted from the first
base-10000 digit that is not zero.  `decimal_update_typemod` gives an existing decimal a `typemod`,
or takes it away where the number does not fit.
-/

namespace Novachains.Bson.Decimal

open Lib

def precisionOf (typemod : ℤ) : ℤ := typemod / 2 ^ 16 % 2 ^ 16

def scaleOf (typemod : ℤ) : ℤ := typemod % 2 ^ 16

/-- `decimal_is_zero`, which looks at the first digit only. -/
def isZero (d : Decimal) : Bool := !d.isSpecial && (d.digits = [] || d.digits.getD 0 0 = 0)

/-- `decimal_is_out_of_precision`. -/
def isOutOfPrecision (d : Decimal) (typemod : ℤ) : Bool :=
  if typemod = -1 then false
  else
    let maxdigits := precisionOf typemod - scaleOf typemod
    if scaleOf typemod < d.dscale then true
    else
      let ddigits := (d.weight + 1) * decDigits
      maxdigits < ddigits ∧ tooLong maxdigits ddigits d.digits

/-- `decimal_update_typemod`. -/
def updateTypemod (d : Decimal) (typemod : ℤ) : Option (Rc × Decimal) :=
  if d.isOutOfPrecision typemod then some (.ok, { d with typemod := -1 })
  else if d.isSpecial then some (.ok, d)
  else if d.isZero then some (.ok, { d with typemod })
  else
    match d.applyTypmod typemod with
    | none => none
    | some (.ok, r) => some (.ok, { r with typemod })
    | some (rc, r) => some (rc, r)

/-! ## Counting digits -/

/-- The decimal digits of the first base-10000 digit, as the loop counts them. -/
def leadingDigits (dig : ℕ) : ℤ :=
  if dig < 10 then 1 else if dig < 100 then 2 else if dig < 1000 then 3 else 4

theorem leadingDigits_spec {dig : ℕ} (h0 : dig ≠ 0) (hlt : dig < nbase) :
    (10 : ℚ) ^ (leadingDigits dig - 1) ≤ dig ∧ (dig : ℚ) + 1 ≤ 10 ^ leadingDigits dig := by
  have hle : (dig : ℚ) + 1 ≤ 10000 := by exact_mod_cast hlt
  unfold leadingDigits
  split_ifs with h10 h100 h1000
  · have : (dig : ℚ) + 1 ≤ 10 := by exact_mod_cast h10
    norm_num
    exact ⟨Nat.pos_of_ne_zero h0, this⟩
  · have : (dig : ℚ) + 1 ≤ 100 := by exact_mod_cast h100
    norm_num
    constructor <;> linarith
  · have : (dig : ℚ) + 1 ≤ 1000 := by exact_mod_cast h1000
    have : (100 : ℚ) ≤ dig := by exact_mod_cast not_lt.mp h100
    norm_num
    constructor <;> linarith
  · have : (1000 : ℚ) ≤ dig := by exact_mod_cast not_lt.mp h1000
    norm_num
    constructor <;> linarith

theorem tooLong_cons {m dd : ℤ} {dig : ℕ} {ds : List ℕ} (h0 : dig ≠ 0) :
    tooLong m dd (dig :: ds) = decide (m < dd - 4 + leadingDigits dig) := by
  rw [tooLong, if_pos h0, leadingDigits]
  split_ifs <;> simp only [decide_eq_decide] <;> omega

/-- **The loop finds the first decimal digit**: it refuses just the numbers from `10 ^ m` on. -/
theorem tooLong_iff {m w : ℤ} {ds : List ℕ} (hok : ∀ x ∈ ds, x < nbase) :
    tooLong m ((w + 1) * decDigits) ds = true ↔ (10 : ℚ) ^ m ≤ radix nbase ds w := by
  induction ds generalizing w with
  | nil =>
    rw [tooLong, radix_nil]
    exact iff_of_false Bool.false_ne_true (not_le.mpr (ten_zpow_pos m))
  | cons dig ds ih =>
    obtain ⟨hdig, hds⟩ := List.forall_mem_cons.mp hok
    rw [radix_cons]
    by_cases h0 : dig = 0
    · have hstep : (w + 1) * (decDigits : ℕ) - (decDigits : ℕ) = (w - 1 + 1) * (decDigits : ℕ) := by
        ring
      rw [tooLong, if_neg (not_not.mpr h0), hstep, ih hds, h0, Nat.cast_zero, zero_mul, zero_add]
    obtain ⟨hlow, hhigh⟩ := leadingDigits_spec h0 hdig
    have hexp : (w + 1) * (decDigits : ℕ) - 4 + leadingDigits dig = 4 * w + leadingDigits dig := by
      simp only [decDigits]
      push_cast
      ring
    have hrest : radix nbase ds (w - 1) < (nbase : ℚ) ^ w := by
      have := radix_lt (by decide) hds (w - 1)
      rwa [sub_add_cancel] at this
    have hpos : (0 : ℚ) < 10 ^ (4 * w) := ten_zpow_pos _
    rw [nbase_zpow] at hrest ⊢
    rw [tooLong_cons h0, decide_eq_true_iff, hexp]
    constructor
    · intro hlt
      calc (10 : ℚ) ^ m ≤ 10 ^ (leadingDigits dig - 1 + 4 * w) :=
            zpow_le_zpow_right₀ (by norm_num) (by omega)
        _ = 10 ^ (leadingDigits dig - 1) * 10 ^ (4 * w) := zpow_add₀ (by norm_num) _ _
        _ ≤ dig * 10 ^ (4 * w) := mul_le_mul_of_nonneg_right hlow hpos.le
        _ ≤ _ := le_add_of_nonneg_right (radix_nonneg _)
    · intro hle
      by_contra hge
      have : (dig : ℚ) * 10 ^ (4 * w) + radix nbase ds (w - 1) < 10 ^ m :=
        calc (dig : ℚ) * 10 ^ (4 * w) + radix nbase ds (w - 1)
            < (dig + 1) * 10 ^ (4 * w) := by linarith
          _ ≤ 10 ^ leadingDigits dig * 10 ^ (4 * w) := mul_le_mul_of_nonneg_right hhigh hpos.le
          _ = 10 ^ (leadingDigits dig + 4 * w) := (zpow_add₀ (by norm_num) _ _).symm
          _ ≤ 10 ^ m := zpow_le_zpow_right₀ (by norm_num) (by omega)
      exact absurd hle (not_le.mpr this)

variable {d r : Decimal} {typemod : ℤ}

theorem tooLong_mag_iff (hok : d.DigitsOk) (m : ℤ) :
    (m < (d.weight + 1) * decDigits ∧ tooLong m ((d.weight + 1) * decDigits) d.digits = true)
      ↔ (10 : ℚ) ^ m ≤ d.mag := by
  rw [tooLong_iff hok]
  refine and_iff_right_of_imp fun hle => ?_
  have hlt : (10 : ℚ) ^ m < 10 ^ (4 * (d.weight + 1)) := by
    rw [← nbase_zpow]
    exact lt_of_le_of_lt hle (mag_lt hok)
  have := (zpow_lt_zpow_iff_right₀ (by norm_num)).mp hlt
  simp only [decDigits]
  omega

/-- The absolute value, rounded to the scale of a `typemod`. -/
def rounded (d : Decimal) (typemod : ℤ) : ℚ := roundTo (scaleOf typemod) d.mag

/-- The rounded number has more digits in front of the point than the precision leaves. -/
def Exceeds (typemod : ℤ) (x : ℚ) : Prop := (10 : ℚ) ^ (precisionOf typemod - scaleOf typemod) ≤ x

theorem applyTypmod_of_none (hne : typemod ≠ -1) (h : d.round (scaleOf typemod) = none) :
    d.applyTypmod typemod = none := by
  have h' : d.round (typemod % 2 ^ 16) = none := h
  simp only [applyTypmod, if_neg hne, h']

theorem applyTypmod_of_ok (hne : typemod ≠ -1) (h : d.round (scaleOf typemod) = some (.ok, r))
    (hok : r.DigitsOk) : ∃ rc, d.applyTypmod typemod = some (rc, r)
      ∧ (rc = .ok ↔ ¬ Exceeds typemod r.mag) := by
  have h' : d.round (typemod % 2 ^ 16) = some (.ok, r) := h
  have hlong := tooLong_mag_iff hok (precisionOf typemod - scaleOf typemod)
  simp only [precisionOf, scaleOf] at hlong
  simp only [applyTypmod, if_neg hne, h', hlong, Exceeds, precisionOf, scaleOf]
  split
  · rename_i hle
    exact ⟨.sys, rfl, iff_of_false (by decide) (not_not.mpr hle)⟩
  · rename_i hle
    exact ⟨.ok, rfl, iff_of_true rfl hle⟩

theorem applyTypmod_of_not_own (hne : typemod ≠ -1) (hown : d.isOwn = false) :
    d.applyTypmod typemod = some (.invalidArg, d) := by
  simp [applyTypmod, hne, round, hown]

/-- **What applying a `typemod` does.** -/
theorem applyTypmod_cases (hown : d.isOwn = true) (hok : d.DigitsOk) (hne : typemod ≠ -1) :
    (d.applyTypmod typemod = none ∧ ¬ CarryFits d (d.rounded typemod))
      ∨ ∃ r rc, Rounded (scaleOf typemod) d r ∧ CarryFits d (d.rounded typemod)
        ∧ d.applyTypmod typemod = some (rc, r)
        ∧ (rc = .ok ↔ ¬ Exceeds typemod (d.rounded typemod)) := by
  obtain ⟨hfit, r, hr, hround⟩ | ⟨hfit, hnone⟩ := round_cases hown hok (scaleOf typemod)
  · obtain ⟨rc, happly, hrc⟩ := applyTypmod_of_ok hne hr hround.digits
    refine .inr ⟨r, rc, hround, hfit, happly, ?_⟩
    rw [hrc, hround.mag]
    rfl
  · exact .inl ⟨applyTypmod_of_none hne hnone, hfit⟩

/-- `decimal_update_typemod` keeps the number or reports an error. -/
def UpdateOk (d : Decimal) (typemod : ℤ) : Prop :=
  ∃ rc r, d.updateTypemod typemod = some (rc, r) ∧ (rc = .ok → r.value = d.value)

/-- The decimal is not rounded, has no decimals behind the scale, or exceeds the precision once
rounded. -/
def UpdateSafe (d : Decimal) (typemod : ℤ) : Prop :=
  typemod = -1 ∨ d.isOutOfPrecision typemod = true ∨ d.isSpecial = true ∨ d.isZero = true
    ∨ d.isOwn = false ∨ d.rounded typemod = d.mag
    ∨ Exceeds typemod (d.rounded typemod) ∧ CarryFits d (d.rounded typemod)

theorem value_eq_iff_of_rounded {s : ℤ} (h : Rounded s d r) :
    r.value = d.value ↔ roundTo s d.mag = d.mag := by
  rw [h.value, roundHalfAway_value, value]
  split
  · exact neg_inj
  · exact Iff.rfl

/-- **A new `typemod` keeps the number**, or an error is reported, exactly for the safe decimals. -/
theorem updateOk_iff (hok : d.DigitsOk) (typemod : ℤ) : UpdateOk d typemod ↔ UpdateSafe d typemod := by
  unfold UpdateOk UpdateSafe updateTypemod
  by_cases hout : d.isOutOfPrecision typemod = true
  · simp only [hout, if_true, true_or, or_true, iff_true]
    exact ⟨_, _, rfl, fun _ => rfl⟩
  by_cases hspecial : d.isSpecial = true
  · simp only [hout, hspecial, if_true, true_or, or_true, iff_true]
    exact ⟨_, _, rfl, fun _ => rfl⟩
  by_cases hzero : d.isZero = true
  · simp only [hout, hspecial, hzero, if_true, true_or, or_true, iff_true]
    exact ⟨_, _, rfl, fun _ => rfl⟩
  simp only [hout, hspecial, hzero, Bool.false_eq_true, if_false, false_or]
  by_cases hne : typemod = -1
  · simp only [hne, true_or, iff_true]
    exact ⟨_, _, rfl, fun _ => rfl⟩
  by_cases hown : d.isOwn = false
  · rw [applyTypmod_of_not_own hne hown]
    simp only [hown, true_or, or_true, iff_true]
    exact ⟨_, _, rfl, fun h => absurd h (by decide)⟩
  rw [Bool.not_eq_false] at hown
  simp only [hne, hown, Bool.true_eq_false, false_or]
  rcases applyTypmod_cases hown hok hne with ⟨happly, hfit⟩ | ⟨r, rc, hround, hfit, happly, hrc⟩
  · rw [happly]
    refine iff_of_false (by simp) ?_
    rintro (heq | ⟨-, hfits⟩)
    · exact hfit (.inr (by rw [heq]; exact mag_lt hok))
    · exact hfit hfits
  · rw [happly]
    by_cases hexceeds : Exceeds typemod (d.rounded typemod)
    · refine iff_of_true ?_ (.inr ⟨hexceeds, hfit⟩)
      have hbad : rc ≠ .ok := fun h => hrc.mp h hexceeds
      cases rc with
      | ok => exact absurd rfl hbad
      | _ => exact ⟨_, _, rfl, fun h => absurd h (by decide)⟩
    · obtain rfl : rc = .ok := hrc.mpr hexceeds
      simp only [hexceeds, false_and, or_false]
      rw [rounded, ← value_eq_iff_of_rounded hround]
      constructor
      · rintro ⟨rc, r', heq, hvalue⟩
        cases heq
        exact hvalue rfl
      · intro hvalue
        exact ⟨_, _, rfl, fun _ => hvalue⟩

/-! ## Texts -/

/-- `decimal_from_str` succeeds exactly when the number, rounded to the scale, fits the precision,
and holds it then. -/
def FromStrOk (precision scale typemod : ℤ) (n : Numeral) : Prop :=
  ((∃ r, fromStr typemod n.text = some (.ok r))
      ↔ |roundHalfAway scale n.value| < 10 ^ (precision - scale))
    ∧ ∀ r, fromStr typemod n.text = some (.ok r) →
      r.value = roundHalfAway scale n.value ∧ r.dscale = scale

theorem zpow_weight_le_rounded (h : d.Normal) (hne : d.digits ≠ []) (hw : 0 ≤ d.weight) {s : ℤ}
    (hs : 0 ≤ s) : (10 : ℚ) ^ (4 * d.weight) ≤ roundTo s d.mag := by
  obtain ⟨k, hk⟩ := Int.eq_ofNat_of_zero_le hw
  obtain ⟨j, rfl⟩ := Int.eq_ofNat_of_zero_le hs
  have hnat : (nbase : ℚ) ^ d.weight * 10 ^ (j : ℤ) = (nbase ^ k * 10 ^ j : ℕ) := by
    rw [hk, zpow_natCast, zpow_natCast]
    push_cast
    rfl
  rw [← nbase_zpow, ← roundTo_of_natCast hnat]
  exact roundTo_mono (h.le_mag hne) _

theorem isOutOfBound_of_rounded {text ws : List Char} {n : Numeral}
    (h : ReadNumber typemod text n ws d) (hscale : scaleOf typemod ≤ maxPrecision)
    (hprec : precisionOf typemod - scaleOf typemod ≤ maxPrecision)
    (hround : Rounded (scaleOf typemod) d r) (hfits : ¬ Exceeds typemod (d.rounded typemod)) :
    r.isOutOfBound = false := by
  rw [isOutOfBound_eq_false, hround.dscale]
  simp only [maxPrecision, maxWeight, maxDscale] at hscale hprec ⊢
  refine ⟨?_, by omega⟩
  have hlt := h.weight_lt
  simp only [maxWeight] at hlt
  by_contra hge
  -- a digit was carried out of the weight 32767
  have hw : 32767 ≤ d.weight := by
    rcases hround.weight with hr | hr | hr <;> omega
  have hne : d.digits ≠ [] := by
    intro hnil
    have := h.zero hnil
    omega
  refine hfits ?_
  calc (10 : ℚ) ^ (precisionOf typemod - scaleOf typemod) ≤ 10 ^ (4 * d.weight) :=
        zpow_le_zpow_right₀ (by norm_num) (by omega)
    _ ≤ d.rounded typemod := zpow_weight_le_rounded h.normal hne (by omega)
        (Int.emod_nonneg _ (by decide))

theorem checked_withTypmod {text ws : List Char} {n : Numeral} (h : ReadNumber typemod text n ws d)
    (hne : typemod ≠ -1) (hscale : scaleOf typemod ≤ maxPrecision)
    (hprec : precisionOf typemod - scaleOf typemod ≤ maxPrecision) :
    ∃ r rc, Rounded (scaleOf typemod) d r
      ∧ checked (d.withTypmod typemod) = some (if rc = .ok then .ok r else .error rc)
      ∧ (rc = .ok ↔ ¬ Exceeds typemod (d.rounded typemod)) := by
  rcases applyTypmod_cases h.isOwn h.normal.digits hne with ⟨-, hfit⟩ | ⟨r, rc, hround, -, happly, hrc⟩
  · exact absurd (.inl h.front) hfit
  refine ⟨r, rc, hround, ?_, hrc⟩
  rw [checked, withTypmod, happly]
  simp only [Option.map_some]
  by_cases hok : rc = .ok
  · rw [if_pos hok]
    simp only [Except.bind, isOutOfBound_of_rounded h hscale hprec hround (hrc.mp hok),
      Bool.false_eq_true, if_false]
  · rw [if_neg hok]
    rfl

variable {precision scale : ℤ} {e : Decimal}

theorem init1_typemod (h : init1 precision scale = some e) :
    precisionOf e.typemod = precision ∧ scaleOf e.typemod = scale ∧ e.typemod ≠ -1
      ∧ 0 ≤ scale ∧ scale ≤ precision ∧ precision ≤ maxPrecision := by
  unfold init1 at h
  simp only [maxPrecision] at h ⊢
  split_ifs at h with hp hs
  obtain rfl : _ = e := Option.some_inj.mp h
  unfold precisionOf scaleOf
  dsimp only
  omega

theorem fromStrOk_iff (h : init1 precision scale = some e)
    (n : Numeral) :
    FromStrOk precision scale e.typemod n
      ↔ InLimits n ∨ 10 ^ (precision - scale) ≤ |roundHalfAway scale n.value| := by
  obtain ⟨hprec, hscale, hne, h0, hle, hmax⟩ := init1_typemod h
  rcases fromStr_reads (specialWord_numeral n) with hrefused | ⟨n', ws, hread⟩
  · -- refused whatever the limits of the object are
    have hno : ∀ typemod, ¬ ∃ r, fromStr typemod n.text = some (.ok r) := by
      rintro typemod ⟨r, hr⟩
      obtain ⟨rc, hrc⟩ := hrefused typemod
      rw [hrc] at hr
      simp at hr
    have hout : ¬ InLimits n := by
      intro hin
      obtain ⟨d, hd, -⟩ := fromStr_numeral hin
      exact hno (-1) ⟨d, hd⟩
    rw [FromStrOk, iff_false_left (hno _), not_lt, or_iff_right hout]
    refine and_iff_left fun r hr => absurd ⟨r, hr⟩ (hno _)
  · obtain ⟨d0, hd0, -⟩ := hread (-1)
    obtain rfl : n' = n :=
      (Numeral.text_injective (hd0.text_eq (no_space_numeral n))).symm
    refine iff_of_true ?_ (.inl hd0.limits)
    obtain ⟨d, hd, hfrom⟩ := hread e.typemod
    obtain ⟨r, rc, hround, hchecked, hrc⟩ := checked_withTypmod hd hne
      (by rw [hscale]; omega) (by rw [hprec, hscale]; omega)
    rw [Exceeds, hprec, hscale, rounded, hscale, not_le] at hrc
    rw [hscale] at hround
    rw [FromStrOk, hfrom, hchecked, ← hd.value, abs_roundHalfAway_value, ← hrc]
    by_cases hok : rc = .ok
    · rw [if_pos hok]
      refine ⟨iff_of_true ⟨r, rfl⟩ hok, fun r' hr' => ?_⟩
      cases hr'
      exact ⟨hround.value, hround.dscale⟩
    · simp [hok]

/-- **The limits are enforced exactly** for the texts in the limits of `decimal_from_str` and those
that exceed the precision anyway; a new `typemod` keeps safe decimals. -/
theorem typemod_limits_iff (h : init1 precision scale = some e)
    (n : Numeral) (hok : d.DigitsOk) (typemod : ℤ) :
    (FromStrOk precision scale e.typemod n
        ↔ InLimits n ∨ 10 ^ (precision - scale) ≤ |roundHalfAway scale n.value|)
      ∧ (UpdateOk d typemod ↔ UpdateSafe d typemod) :=
  ⟨fromStrOk_iff h n, updateOk_iff hok typemod⟩

/-- `99999999.995`, which rounds to `10^8`. -/
def roundsUp : Numeral where
  sign := none
  int := List.replicate 8 9
  frac := some [9, 9, 5]
  exponent := none
  digits_lt := by decide
  nonempty := by decide

theorem typemod_limits_rounds_up :
    FromStrOk 10 2 655362 roundsUp ∧ UpdateOk oneHundredths 655362 := by
  have hinit : init1 10 2 = some { typemod := 655362 } := by decide
  have h := typemod_limits_iff hinit roundsUp oneHundredths_normal.digits 655362
  refine ⟨h.1.mpr (.inl ⟨by decide, by decide, by decide, by decide⟩), h.2.mpr ?_⟩
  refine .inr (.inr (.inr (.inr (.inr (.inl (roundTo_of_natCast (m := 100) ?_))))))
  norm_num [mag, oneHundredths, radix, scaleOf]

/-- `1e-1001`. -/
def tinyNumeral : Numeral where
  sign := none
  int := [1]
  frac := none
  exponent := some ⟨false, some .minus, [1, 0, 0, 1], by decide, by decide⟩
  digits_lt := by decide
  nonempty := by decide

theorem tinyNumeral_round : roundHalfAway 2 tinyNumeral.value = 0 := by
  have hvalue : tinyNumeral.value = (10 : ℚ) ^ (-1001 : ℤ) := by
    simp [Numeral.value, Numeral.digits, Numeral.exp, Exponent.value, tinyNumeral, signFactor, beVal,
      Nat.ofDigits]
  have hpos := ten_zpow_pos (-1001)
  rw [hvalue, roundHalfAway, abs_of_pos hpos, roundTo_of_lt, mul_zero]
  calc (10 : ℚ) ^ (-1001 : ℤ) * 10 ^ (2 : ℤ) = 10 ^ (-1001 + 2 : ℤ) :=
        (zpow_add₀ (by norm_num) _ _).symm
    _ ≤ 10 ^ (-1 : ℤ) := zpow_le_zpow_right₀ (by norm_num) (by norm_num)
    _ < 1 / 2 := by norm_num

/-- `1.2345`, as it is read after it was stored with the display scale 16386. -/
def hiddenDigits : Decimal := {
  dscale := 2
  isOwn := true
  front := [.zero]
  digits := [1, 2345] }

/-- `1e-1001` is refused; and `1.2345`, rounded to 16386 decimals and stored, comes back with the
scale 2 and loses decimals to a `typemod`. -/
theorem typemod_limits_wrong :
    (fromStr 655362 tinyNumeral.text = some (.error .invalidArg)
        ∧ ¬ FromStrOk 10 2 655362 tinyNumeral)
      ∧ (∃ d0 d1, fromStr (-1) "1.2345".toList = some (.ok d0) ∧ d0.round 16386 = some (.ok, d1)
        ∧ fromBsonvalue d1.append = some hiddenDigits)
      ∧ (∃ r, hiddenDigits.updateTypemod 655362 = some (.ok, r) ∧ r.value = 123 / 100)
      ∧ hiddenDigits.value = 12345 / 10000 ∧ ¬ UpdateOk hiddenDigits 655362 := by
  have hvalue : hiddenDigits.value = 12345 / 10000 := by
    rw [value, if_neg (by decide)]
    norm_num [mag, hiddenDigits, radix]
  have hupdate : hiddenDigits.updateTypemod 655362
      = some (.ok, { hiddenDigits with typemod := 655362, digits := [1, 2300] }) := by decide +kernel
  have hr : ({ hiddenDigits with typemod := 655362, digits := [1, 2300] } : Decimal).value
      = 123 / 100 := by
    rw [value, if_neg (by decide)]
    norm_num [mag, radix, hiddenDigits]
  refine ⟨⟨by decide +kernel, ?_⟩, ⟨{ hiddenDigits with dscale := 4 },
    { hiddenDigits with dscale := 16386 }, by decide +kernel, by decide +kernel, by decide +kernel⟩,
    ⟨_, hupdate, hr⟩, hvalue, ?_⟩
  · rw [fromStrOk_iff (e := { typemod := 655362 }) (by decide), tinyNumeral_round]
    rintro (hin | hle)
    · exact absurd hin.le_exp (by decide)
    · norm_num at hle
  · rintro ⟨rc, r, heq, hkeep⟩
    rw [hupdate] at heq
    cases heq
    have := hkeep rfl
    rw [hr, hvalue] at this
    norm_num at this

end Novachains.Bson.Decimal
