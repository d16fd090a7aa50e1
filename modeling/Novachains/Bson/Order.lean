import Novachains.Bson.Produced
import Novachains.Lib.ThreeWay

/-!
# The order of decimals

`decimal_cmp` looks at digit counts and signs before it looks at digits.  A decimal that was rounded
to zero may keep zero digits and its sign, and is then placed above or below the zero without
digits.  Apart from that the order is that of the numbers.  The comparison agrees with that of keys
in a linear order.
-/

namespace Novachains.Bson.Decimal

open Lib

variable {a b c d : Decimal}

def rank (d : Decimal) : ℤ :=
  if d.isMin then 0 else if d.isNan then 1 else if d.isMax then 3 else 2

def zeroTag (d : Decimal) : ℤ :=
  if d.digits = [] ∨ d.mag ≠ 0 then 0 else if d.sign = .pos then 1 else -1

/-- What the part of `decimal_cmp` behind the special values compares. -/
def numberKey (d : Decimal) : ℚ ×ₗ ℤ := toLex (d.value, d.zeroTag)

/-- What `decimal_cmp` compares. -/
def key (d : Decimal) : ℤ ×ₗ ℚ ×ₗ ℤ := toLex (d.rank, d.numberKey)

/-! ## Numbers -/

theorem numberKey_of_nil (h : d.digits = []) : d.numberKey = toLex (0, 0) := by
  have hmag : d.mag = 0 := by rw [mag, h, radix_nil]
  simp [numberKey, zeroTag, value, h, hmag]

theorem lt_numberKey_of_pos (hne : d.digits ≠ []) (hs : d.sign = .pos) :
    toLex (0, 0) < d.numberKey := by
  have hvalue : d.value = d.mag := by rw [value, if_neg (by rw [hs]; decide)]
  rw [numberKey, Prod.Lex.toLex_lt_toLex, hvalue]
  rcases (mag_nonneg (d := d)).lt_or_eq with hpos | hzero
  · exact .inl hpos
  · exact .inr ⟨hzero, by simp [zeroTag, hne, hs, ← hzero]⟩

theorem numberKey_lt_of_neg (hne : d.digits ≠ []) (hs : d.sign = .neg) :
    d.numberKey < toLex (0, 0) := by
  have hvalue : d.value = -d.mag := by rw [value, if_pos hs]
  rw [numberKey, Prod.Lex.toLex_lt_toLex, hvalue]
  rcases (mag_nonneg (d := d)).lt_or_eq with hpos | hzero
  · exact .inl (neg_lt_zero.mpr hpos)
  · exact .inr ⟨by rw [← hzero, neg_zero], by simp [zeroTag, hne, hs, ← hzero]⟩

theorem threeWay_numberKey (ha : a.digits ≠ []) (hb : b.digits ≠ []) (hs : a.sign = b.sign) :
    threeWay a.numberKey b.numberKey = threeWay a.value b.value := by
  rw [numberKey, numberKey, threeWay_toLex]
  split
  · rename_i heq
    have hmag : a.mag = b.mag := by
      rw [value, value, hs] at heq
      split at heq
      · exact neg_inj.mp heq
      · exact heq
    have htag : a.zeroTag = b.zeroTag := by simp only [zeroTag, ha, hb, hs, hmag]
    rw [htag, heq, threeWay_self, threeWay_self]
  · rfl

theorem cmpFinite_eq (ha : a.WellFormed) (hb : b.WellFormed) :
    cmpFinite a b = threeWay a.numberKey b.numberKey := by
  have hfinite : ∀ {d : Decimal}, d.WellFormed → d.digits ≠ [] → d.sign = .pos ∨ d.sign = .neg := by
    intro d hd hne
    refine hd.finite ?_
    by_contra hspecial
    exact hne (hd.special (by simpa [isSpecial] using hspecial))
  unfold cmpFinite
  by_cases hna : a.digits = [] <;> by_cases hnb : b.digits = []
  · simp [hna, hnb, numberKey_of_nil]
  · rw [if_pos hna, if_neg hnb, numberKey_of_nil hna]
    rcases hfinite hb hnb with hs | hs
    · rw [threeWay_of_lt (lt_numberKey_of_pos hnb hs), if_neg (by rw [hs]; decide)]
    · rw [threeWay_of_gt (numberKey_lt_of_neg hnb hs), if_pos hs]
  · rw [if_neg hna, if_pos hnb, numberKey_of_nil hnb]
    rcases hfinite ha hna with hs | hs
    · rw [threeWay_of_gt (lt_numberKey_of_pos hna hs), if_pos hs]
    · rw [threeWay_of_lt (numberKey_lt_of_neg hna hs), if_neg (by rw [hs]; decide)]
  · rw [if_neg hna, if_neg hnb]
    rcases hfinite ha hna with hsa | hsa <;> rcases hfinite hb hnb with hsb | hsb
    · rw [if_pos hsa, if_neg (by rw [hsb]; decide), cmpAbs_eq ha.digits hb.digits,
        threeWay_numberKey hna hnb (hsa.trans hsb.symm), threeWay_eq_sign_sub, value, value,
        if_neg (by rw [hsa]; decide), if_neg (by rw [hsb]; decide)]
    · rw [if_pos hsa, if_pos hsb, threeWay_of_gt
        ((numberKey_lt_of_neg hnb hsb).trans (lt_numberKey_of_pos hna hsa))]
    · rw [if_neg (by rw [hsa]; decide), if_pos hsb, threeWay_of_lt
        ((numberKey_lt_of_neg hna hsa).trans (lt_numberKey_of_pos hnb hsb))]
    · rw [if_neg (by rw [hsa]; decide), if_neg (by rw [hsb]; decide), cmpAbs_eq hb.digits ha.digits,
        threeWay_numberKey hna hnb (hsa.trans hsb.symm), threeWay_eq_sign_sub, value, value,
        if_pos hsa, if_pos hsb, neg_sub_neg]

theorem rank_cases (hd : d.WellFormed) :
    (d.isMin = true ∧ d.rank = 0 ∧ d.numberKey = toLex (0, 0))
      ∨ (d.isMin = false ∧ d.isMax = false ∧ d.isNan = true ∧ d.rank = 1
        ∧ d.numberKey = toLex (0, 0))
      ∨ (d.isMin = false ∧ d.isMax = false ∧ d.isNan = false ∧ d.rank = 2)
      ∨ (d.isMin = false ∧ d.isMax = true ∧ d.rank = 3 ∧ d.numberKey = toLex (0, 0)) := by
  cases hspecial : d.isSpecial with
  | false => simp [isMin, isNan, isMax, rank, hspecial]
  | true =>
    have hkey := numberKey_of_nil (hd.special (by simpa [isSpecial] using hspecial))
    by_cases hnan : d.dscale = 0
    · simp [isMin, isNan, isMax, rank, hspecial, hnan, hkey]
    by_cases hmin : d.dscale = 1
    · simp [isMin, rank, hspecial, hmin, hkey]
    by_cases hmax : d.dscale = 2
    · simp [isMin, isNan, isMax, rank, hspecial, hmax, hkey]
    · simp [isMin, isNan, isMax, rank, hspecial, hnan, hmin, hmax]

/-- **`decimal_cmp` compares the keys.** -/
theorem cmp_eq_threeWay (ha : a.WellFormed) (hb : b.WellFormed) :
    cmp a b = threeWay a.key b.key := by
  have hnumbers := cmpFinite_eq ha hb
  rw [key, key, threeWay_toLex, cmp]
  rcases rank_cases ha with ⟨hmin, hra, hka⟩ | ⟨hmin, hmax, hnan, hra, hka⟩
      | ⟨hmin, hmax, hnan, hra⟩ | ⟨hmin, hmax, hra, hka⟩ <;>
    rcases rank_cases hb with ⟨hmin', hrb, hkb⟩ | ⟨hmin', hmax', hnan', hrb, hkb⟩
      | ⟨hmin', hmax', hnan', hrb⟩ | ⟨hmin', hmax', hrb, hkb⟩ <;>
    simp [*, threeWay_of_lt, threeWay_of_gt]

/-- `decimal_cmp` orders three decimals as the numbers are ordered, with the special values in their
places. -/
structure OrderOk (a b c : Decimal) : Prop where
  numeric : a.Finite → b.Finite → cmp a b = SignType.sign (a.value - b.value)
  places : a.rank < b.rank → cmp a b = -1
  refl : cmp a a = 0
  antisymm : cmp b a = -cmp a b
  trans : cmp a b ≤ 0 → cmp b c ≤ 0 → cmp a c ≤ 0

theorem rank_of_finite (h : d.Finite) : d.rank = 2 := by
  simp [rank, isMin, isMax, isNan, isSpecial_of_finite h]

theorem cmp_eq_sign_iff (ha : a.WellFormed) (hb : b.WellFormed) (hfa : a.Finite) (hfb : b.Finite) :
    cmp a b = SignType.sign (a.value - b.value)
      ↔ (a.value = b.value → a.zeroTag = b.zeroTag) := by
  rw [cmp_eq_threeWay ha hb, key, key, threeWay_toLex, rank_of_finite hfa, rank_of_finite hfb,
    if_pos rfl, numberKey, numberKey, threeWay_toLex, ← threeWay_eq_sign_sub]
  split
  · rename_i heq
    rw [heq, threeWay_self, threeWay_eq_zero_iff]
    simp
  · rename_i hne
    simp [hne]

/-- **`decimal_cmp` is the order of the numbers** exactly when equal numbers have equal zero tags.
-/
theorem cmp_order_iff (ha : Produced a) (hb : Produced b) (hc : Produced c) :
    OrderOk a b c ↔ (a.Finite → b.Finite → a.value = b.value → a.zeroTag = b.zeroTag) := by
  have hwa := ha.wellFormed
  have hwb := hb.wellFormed
  have hwc := hc.wellFormed
  constructor
  · intro h hfa hfb
    exact (cmp_eq_sign_iff hwa hwb hfa hfb).mp (h.numeric hfa hfb)
  intro h
  refine ⟨fun hfa hfb => (cmp_eq_sign_iff hwa hwb hfa hfb).mpr (h hfa hfb), ?_, ?_, ?_, ?_⟩
  · intro hlt
    rw [cmp_eq_threeWay hwa hwb]
    exact threeWay_of_lt (Prod.Lex.toLex_lt_toLex.mpr (.inl hlt))
  · rw [cmp_eq_threeWay hwa hwa, threeWay_self]
  · rw [cmp_eq_threeWay hwa hwb, cmp_eq_threeWay hwb hwa, threeWay_swap]
  · rw [cmp_eq_threeWay hwa hwb, cmp_eq_threeWay hwb hwc, cmp_eq_threeWay hwa hwc,
      threeWay_nonpos_iff, threeWay_nonpos_iff, threeWay_nonpos_iff]
    exact le_trans

/-- `-7.5` is below `5`, which is below MAX. -/
theorem cmp_order_three : OrderOk minusSevenHalf fiveLong setMax := by
  have hread : fromStr (-1) "-7.5".toList = some (.ok minusSevenHalf) := by decide +kernel
  refine (cmp_order_iff (.fromStr (by decide) hread) fiveLong_produced .max).mpr fun _ _ h => ?_
  have hfive : fiveLong.value = 5 := by simp [value, mag, fiveLong, radix]
  rw [hfive] at h
  norm_num [value, mag, minusSevenHalf, radix] at h

/-- `0.004`, rounded to two decimals. -/
def zeroHundredths : Decimal := {
  typemod := 655362
  dscale := 2
  weight := -1
  isOwn := true
  front := [.zero, .zero]
  digits := [0] }

/-- `0.004` with two decimals is zero, but above the zero without digits. -/
theorem cmp_order_wrong :
    fromStr 655362 "0.004".toList = some (.ok zeroHundredths)
      ∧ Produced zeroHundredths ∧ Produced setZero
      ∧ zeroHundredths.value = setZero.value ∧ cmp zeroHundredths setZero = 1
      ∧ ¬ OrderOk zeroHundredths setZero setZero := by
  have hread : fromStr 655362 "0.004".toList = some (.ok zeroHundredths) := by decide +kernel
  have hvalue : zeroHundredths.value = setZero.value := by
    simp [value, mag, zeroHundredths, setZero, radix]
  have hcmp : cmp zeroHundredths setZero = 1 := by decide +kernel
  refine ⟨hread, .fromStr (by decide) hread, .zero, hvalue, hcmp, fun h => ?_⟩
  have hsign := h.numeric (.inl rfl) (.inl rfl)
  rw [hvalue, sub_self, hcmp] at hsign
  simp at hsign

end Novachains.Bson.Decimal
