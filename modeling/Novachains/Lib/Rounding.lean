import Mathlib.Algebra.Order.Field.Power
import Mathlib.Algebra.Order.Floor.Semifield
import Mathlib.Data.Rat.Floor
import Mathlib.Data.Sign.Basic

/-!
# Rounding to a decimal scale

A non-negative number is rounded half up, or cut off, at the `s`-th decimal; a negative `s` counts
places in front of the point.
-/

namespace Novachains.Lib

variable {s : ℤ} {x : ℚ}

/-- A non-negative number rounded half up to `s` decimals. -/
def roundTo (s : ℤ) (x : ℚ) : ℚ := (⌊x * 10 ^ s + 1 / 2⌋₊ : ℚ) / 10 ^ s

/-- A non-negative number cut off after `s` decimals. -/
def truncTo (s : ℤ) (x : ℚ) : ℚ := (⌊x * 10 ^ s⌋₊ : ℚ) / 10 ^ s

/-- A number rounded half away from zero to `s` decimals. -/
def roundHalfAway (s : ℤ) (x : ℚ) : ℚ := SignType.sign x * roundTo s |x|

theorem ten_zpow_pos (s : ℤ) : (0 : ℚ) < 10 ^ s := by positivity

theorem add_half_div {v u : ℕ} (hu : 0 < u) (heven : 2 ∣ u) :
    (v + u / 2) / u = v / u + if u / 2 ≤ v % u then 1 else 0 := by
  obtain ⟨k, rfl⟩ := heven
  have hlt : 2 * k / 2 < 2 * k := by omega
  rw [Nat.add_div hu, Nat.div_eq_of_lt hlt, Nat.mod_eq_of_lt hlt, add_zero]
  congr 1
  exact if_congr (by omega) rfl rfl

theorem roundTo_eq_div {v u : ℕ} (hu : 0 < u) (heven : 2 ∣ u) (h : x * 10 ^ s = v / u) :
    roundTo s x = ((v + u / 2) / u : ℕ) / 10 ^ s := by
  obtain ⟨k, rfl⟩ := heven
  have hk : (0 : ℚ) < k := by exact_mod_cast (by omega : 0 < k)
  have hsum : (v : ℚ) / (2 * k : ℕ) + 1 / 2 = (v + k : ℕ) / (2 * k : ℕ) := by
    push_cast
    field_simp
  rw [roundTo, h, hsum, Nat.floor_div_eq_div, Nat.mul_div_cancel_left k (by decide)]

theorem truncTo_eq_div {v u : ℕ} (h : x * 10 ^ s = v / u) :
    truncTo s x = (v / u : ℕ) / 10 ^ s := by
  rw [truncTo, h, Nat.floor_div_eq_div]

theorem roundTo_of_natCast {m : ℕ} (h : x * 10 ^ s = m) : roundTo s x = x := by
  have hpos := ten_zpow_pos s
  have hfloor : ⌊(m : ℚ) + 1 / 2⌋₊ = m := by
    rw [Nat.floor_eq_iff (by positivity)]
    constructor <;> linarith
  rw [roundTo, h, hfloor, ← h, mul_div_cancel_right₀ _ hpos.ne']

theorem truncTo_of_natCast {m : ℕ} (h : x * 10 ^ s = m) : truncTo s x = x := by
  rw [truncTo, h, Nat.floor_natCast, ← h, mul_div_cancel_right₀ _ (ten_zpow_pos s).ne']

/-- The number `x` has at most `s` decimals, and `y` falls short of it by at most half a unit of the
last. -/
def Survives (s : ℤ) (x y : ℚ) : Prop := (∃ m : ℕ, x * 10 ^ s = m) ∧ (x - y) * 10 ^ s ≤ 1 / 2

theorem roundTo_eq_iff_survives {y : ℚ} (h0 : 0 ≤ y) (hle : y ≤ x) :
    roundTo s y = x ↔ Survives s x y := by
  have hpos := ten_zpow_pos s
  have hy : 0 ≤ y * 10 ^ s := mul_nonneg h0 hpos.le
  have hyx : y * 10 ^ s ≤ x * 10 ^ s := mul_le_mul_of_nonneg_right hle hpos.le
  rw [roundTo, div_eq_iff hpos.ne', Survives, sub_mul]
  constructor
  · intro heq
    have hfloor := Nat.floor_le (by linarith : 0 ≤ y * 10 ^ s + 1 / 2)
    exact ⟨⟨_, heq.symm⟩, by linarith⟩
  · rintro ⟨⟨m, hm⟩, hhalf⟩
    have hfloor : ⌊y * 10 ^ s + 1 / 2⌋₊ = m := by
      rw [Nat.floor_eq_iff (by linarith)]
      constructor <;> linarith
    rw [hfloor, hm]

theorem roundTo_nonneg (s : ℤ) (x : ℚ) : 0 ≤ roundTo s x :=
  div_nonneg (Nat.cast_nonneg _) (ten_zpow_pos s).le

theorem roundTo_mono {y : ℚ} (h : x ≤ y) (s : ℤ) : roundTo s x ≤ roundTo s y := by
  have hpos := ten_zpow_pos s
  have hmul : x * 10 ^ s ≤ y * 10 ^ s := mul_le_mul_of_nonneg_right h hpos.le
  rw [roundTo, roundTo, div_le_div_iff_of_pos_right hpos]
  exact_mod_cast Nat.floor_mono (by linarith)

theorem roundTo_of_lt (h : x * 10 ^ s < 1 / 2) : roundTo s x = 0 := by
  have hfloor : ⌊x * 10 ^ s + 1 / 2⌋₊ = 0 := by
    rw [Nat.floor_eq_zero]
    linarith
  rw [roundTo, hfloor, Nat.cast_zero, zero_div]

theorem roundTo_zero (s : ℤ) : roundTo s 0 = 0 := roundTo_of_lt (by norm_num)

theorem truncTo_of_lt (h : x * 10 ^ s < 1) : truncTo s x = 0 := by
  rw [truncTo, Nat.floor_eq_zero.mpr h, Nat.cast_zero, zero_div]

theorem roundTo_floor {g : ℚ} {u : ℕ} (hg : 0 < g) (hu : 0 < u) (heven : 2 ∣ u)
    (hgrid : g = u * 10 ^ s) (h0 : 0 ≤ x) : roundTo s (⌊x * g⌋₊ / g) = roundTo s x := by
  obtain ⟨k, rfl⟩ := heven
  have hk : (0 : ℚ) < k := by exact_mod_cast (by omega : 0 < k)
  have hleft : (⌊x * g⌋₊ : ℚ) / g * 10 ^ s = (⌊x * g⌋₊ : ℚ) / (2 * k : ℕ) := by
    rw [hgrid]
    field_simp
  have hright : x * 10 ^ s + 1 / 2 = (x * g + k) / (2 * k : ℕ) := by
    rw [hgrid]
    push_cast
    field_simp
  rw [roundTo_eq_div hu ⟨k, rfl⟩ hleft, roundTo, hright, Nat.floor_div_natCast,
    Nat.floor_add_natCast (by positivity), Nat.mul_div_cancel_left k (by decide)]

theorem truncTo_floor {g : ℚ} {u : ℕ} (hg : 0 < g) (hgrid : g = u * 10 ^ s) :
    truncTo s (⌊x * g⌋₊ / g) = truncTo s x := by
  have hleft : (⌊x * g⌋₊ : ℚ) / g * 10 ^ s = (⌊x * g⌋₊ : ℚ) / u := by
    rw [hgrid]
    field_simp
  have hright : x * 10 ^ s = x * g / u := by
    have hu : (u : ℚ) ≠ 0 := by
      rintro h0
      rw [hgrid, h0, zero_mul] at hg
      exact lt_irrefl _ hg
    rw [hgrid]
    field_simp
  rw [truncTo_eq_div hleft, truncTo, hright, Nat.floor_div_natCast]

/-! ## The nearest multiple -/

/-- `y` is the multiple of `10 ^ (-s)` nearest to `x`, the one farther from zero in a tie. -/
structure NearestAway (s : ℤ) (x y : ℚ) : Prop where
  multiple : ∃ k : ℤ, y = k / 10 ^ s
  nearest : ∀ k : ℤ, |x - y| ≤ |x - k / 10 ^ s|
  away : ∀ k : ℤ, |x - k / 10 ^ s| = |x - y| → |(k : ℚ) / 10 ^ s| ≤ |y|

theorem NearestAway.neg {y : ℚ} (h : NearestAway s x y) : NearestAway s (-x) (-y) := by
  have hflip : ∀ k : ℤ, |-x - (k : ℚ) / 10 ^ s| = |x - ((-k : ℤ) : ℚ) / 10 ^ s| := by
    intro k
    rw [← abs_neg]
    congr 1
    push_cast
    ring
  have hself : |-x - -y| = |x - y| := by
    rw [← abs_neg]
    congr 1
    ring
  constructor
  · obtain ⟨k, hk⟩ := h.multiple
    exact ⟨-k, by rw [hk]; push_cast; ring⟩
  · intro k
    rw [hflip, hself]
    exact h.nearest (-k)
  intro k hk
  rw [hflip, hself] at hk
  have := h.away (-k) hk
  rwa [Int.cast_neg, neg_div, abs_neg, ← abs_neg y] at this

theorem nearestAway_roundTo (h0 : 0 ≤ x) (s : ℤ) : NearestAway s x (roundTo s x) := by
  have hpos := ten_zpow_pos s
  obtain ⟨m, hm⟩ : ∃ m : ℕ, ⌊x * 10 ^ s + 1 / 2⌋₊ = m := ⟨_, rfl⟩
  have hle : (m : ℚ) ≤ x * 10 ^ s + 1 / 2 := hm ▸ Nat.floor_le (by positivity)
  have hlt : x * 10 ^ s + 1 / 2 < m + 1 := hm ▸ Nat.lt_floor_add_one _
  have hround : roundTo s x = m / 10 ^ s := by rw [roundTo, hm]
  -- all distances in units of the scale
  have hdist : ∀ z : ℚ, |x - z / 10 ^ s| = |x * 10 ^ s - z| / 10 ^ s := by
    intro z
    rw [← abs_of_pos hpos, ← abs_div, abs_of_pos hpos]
    congr 1
    field_simp
  have habs : |x * 10 ^ s - m| ≤ 1 / 2 := abs_le.mpr ⟨by linarith, by linarith⟩
  have hother : ∀ k : ℤ, (m : ℤ) < k → 1 / 2 < |x * 10 ^ s - k| := by
    intro k hk
    have hk' : (m : ℚ) + 1 ≤ k := by exact_mod_cast hk
    rw [abs_sub_comm]
    exact lt_of_lt_of_le (by linarith) (le_abs_self _)
  rw [hround]
  constructor
  · exact ⟨m, by push_cast; rfl⟩
  · intro k
    rw [hdist, hdist, div_le_div_iff_of_pos_right hpos]
    rcases lt_trichotomy (m : ℤ) k with hk | rfl | hk
    · exact habs.trans (hother k hk).le
    · push_cast
      exact le_refl _
    · have hk' : (k : ℚ) + 1 ≤ m := by exact_mod_cast hk
      exact habs.trans (le_trans (by linarith) (le_abs_self _))
  · intro k hk
    rw [hdist, hdist, div_left_inj' hpos.ne'] at hk
    have hkm : k ≤ m := by
      by_contra hgt
      exact absurd (hk ▸ hother k (not_le.mp hgt)) (not_lt.mpr habs)
    have hk0 : 0 ≤ k := by
      have hdiff := (abs_le.mp (hk ▸ habs)).2
      have : (-1 : ℚ) < k := by
        have : 0 ≤ x * 10 ^ s := by positivity
        linarith
      have : (-1 : ℤ) < k := by exact_mod_cast this
      omega
    have hkm' : (k : ℚ) ≤ m := by exact_mod_cast hkm
    have hk0' : (0 : ℚ) ≤ k := by exact_mod_cast hk0
    rw [abs_of_nonneg (by positivity), abs_of_nonneg (by positivity)]
    exact (div_le_div_iff_of_pos_right hpos).mpr hkm'

/-- **Rounding half away from zero gives the nearest multiple**, away from zero in a tie. -/
theorem nearestAway_roundHalfAway (s : ℤ) (x : ℚ) : NearestAway s x (roundHalfAway s x) := by
  rcases lt_or_ge x 0 with hneg | hnonneg
  · have h := (nearestAway_roundTo (neg_nonneg.mpr hneg.le) s).neg
    rw [neg_neg] at h
    rwa [roundHalfAway, sign_neg hneg, abs_of_neg hneg, SignType.coe_neg, SignType.coe_one,
      neg_one_mul]
  · rcases hnonneg.eq_or_lt with rfl | hpos
    · rw [roundHalfAway, sign_zero, SignType.coe_zero, zero_mul]
      have h := nearestAway_roundTo le_rfl s
      rwa [roundTo_zero] at h
    · rw [roundHalfAway, sign_pos hpos, abs_of_pos hpos, SignType.coe_one, one_mul]
      exact nearestAway_roundTo hnonneg s

def truncate (x : ℚ) : ℤ := if 0 ≤ x then ⌊x⌋ else ⌈x⌉

theorem abs_sub_truncate_lt (x : ℚ) : |x - truncate x| < 1 := by
  rw [truncate, abs_lt]
  split
  · constructor <;> linarith [Int.floor_le x, Int.lt_floor_add_one x]
  · constructor <;> linarith [Int.le_ceil x, Int.ceil_lt_add_one x]

theorem sign_sub_truncate (x : ℚ) :
    x - truncate x = 0 ∨ SignType.sign (x - truncate x) = SignType.sign x := by
  rw [or_iff_not_imp_left, truncate]
  intro hne
  split at hne <;> rename_i h
  · have hpos : 0 < x - ⌊x⌋ := lt_of_le_of_ne (by linarith [Int.floor_le x]) (Ne.symm hne)
    have hfloor : (0 : ℚ) ≤ ⌊x⌋ := by exact_mod_cast Int.floor_nonneg.mpr h
    rw [if_pos h, sign_pos hpos, sign_pos (by linarith)]
  · have hneg : x - ⌈x⌉ < 0 := lt_of_le_of_ne (by linarith [Int.le_ceil x]) hne
    rw [if_neg h, sign_neg hneg, sign_neg (not_le.mp h)]

theorem truncate_remainder {x y : ℚ} (hy : y ≠ 0) :
    |x - truncate (x / y) * y| < |y|
      ∧ (x - truncate (x / y) * y = 0
        ∨ SignType.sign (x - truncate (x / y) * y) = SignType.sign x) := by
  have hsplit : x - truncate (x / y) * y = (x / y - truncate (x / y)) * y := by
    rw [sub_mul, div_mul_cancel₀ x hy]
  have hx : SignType.sign x = SignType.sign (x / y) * SignType.sign y := by
    rw [← sign_mul, div_mul_cancel₀ x hy]
  rw [hsplit, abs_mul, sign_mul, hx]
  constructor
  · exact mul_lt_of_lt_one_left (abs_pos.mpr hy) (abs_sub_truncate_lt _)
  · rcases sign_sub_truncate (x / y) with h | h
    · exact .inl (by rw [h, zero_mul])
    · exact .inr (by rw [h])

end Novachains.Lib
