import Novachains.Bson.Decimal
import Novachains.Lib.DigitLoops
import Novachains.Lib.Rounding
import Mathlib.Data.List.GetD
import Mathlib.Tactic.IntervalCases

/-!
# Rounding and cutting off

`decimal_round` and `_decimal_trunc` work in place.  They keep the digits in front of the scale,
clear the decimal digits behind it inside the last of them, and rounding adds one unit of the scale
where the first decimal that went away is at least 5.  The carry may reach the cell in front of the
first digit.
-/

namespace Novachains.Bson

open Lib List

def roundPowers (n : ℕ) : ℕ := [0, 1000, 100, 10].getD n 0

/-- The first `ndigits` digits, the last one first and cut to `di` decimal digits unless `di` is
zero. -/
def keepDigits (digits : List ℕ) (ndigits di : ℕ) : List ℕ :=
  let kept := (digits.take ndigits).reverse
  if di = 0 then kept
  else
    match kept with
    | x :: xs => (x - x % roundPowers di) :: xs
    | [] => []

def roundCarry (digits : List ℕ) (ndigits di : ℕ) : ℕ :=
  if di = 0 then
    if halfNbase ≤ digits.getD ndigits 0 then 1 else 0
  else
    let extra := digits.getD (ndigits - 1) 0 % roundPowers di
    if roundPowers di / 2 ≤ extra then roundPowers di else 0

/-- The digits after rounding, the last first, and what is carried out of the first. -/
def roundDigits (digits : List ℕ) (ndigits di : ℕ) : List ℕ × ℕ :=
  bump nbase (keepDigits digits ndigits di) (roundCarry digits ndigits di)

namespace Decimal

/-- `decimal_round` on numbers without bound; there is no result when the carry goes into a cell that
is not cleared. -/
def round (d : Decimal) (rscale : ℤ) : Option (Rc × Decimal) :=
  if d.isOwn = false then some (.invalidArg, d)
  else
    let di := (d.weight + 1) * decDigits + rscale
    if di < 0 then
      some (.ok, { d with dscale := rscale, digits := [], weight := 0, sign := .pos })
    else
      let ndigits := (di.toNat + decDigits - 1) / decDigits
      let di := di.toNat % decDigits
      if ndigits < d.digits.length ∨ ndigits = d.digits.length ∧ 0 < di then
        let r := roundDigits d.digits ndigits di
        if r.2 = 0 then some (.ok, { d with dscale := rscale, digits := r.1.reverse })
        else
          -- the carry goes into the cell in front of the digits
          match d.front with
          | .zero :: front =>
            some (.ok, { d with
              dscale := rscale
              digits := 1 :: r.1.reverse
              front
              weight := d.weight + 1 })
          | _ => none
      else some (.ok, { d with dscale := rscale })

/-- The range of an `int`. -/
def IsInt (z : ℤ) : Prop := -2 ^ 31 ≤ z ∧ z < 2 ^ 31

instance (z : ℤ) : Decidable (IsInt z) := inferInstanceAs (Decidable (_ ∧ _))

/-- The `int`s in `decimal_round` stay in range. -/
def RoundInRange (d : Decimal) (rscale : ℤ) : Prop :=
  IsInt ((d.weight + 1) * decDigits) ∧ IsInt ((d.weight + 1) * decDigits + rscale)
    ∧ IsInt ((d.weight + 1) * decDigits + rscale + decDigits)

instance (d : Decimal) (rscale : ℤ) : Decidable (RoundInRange d rscale) :=
  inferInstanceAs (Decidable (_ ∧ _))

/-- `decimal_round` of an `int`, which has no result when one of its `int`s overflows. -/
def roundCall (d : Decimal) (rscale : ℤ) : Option (Rc × Decimal) :=
  if d.isOwn = true ∧ ¬ RoundInRange d rscale then none else d.round rscale

/-- `_decimal_trunc`. -/
def trunc (d : Decimal) (rscale : ℤ) : Decimal :=
  if d.isOwn = false then d
  else
    let di := (d.weight + 1) * decDigits + rscale
    if di ≤ 0 then { d with dscale := rscale, digits := [], weight := 0, sign := .pos }
    else
      let ndigits := (di.toNat + decDigits - 1) / decDigits
      if ndigits ≤ d.digits.length then
        { d with
          dscale := rscale
          digits := (keepDigits d.digits ndigits (di.toNat % decDigits)).reverse }
      else { d with dscale := rscale }

/-- The digits in front of the point, without leading zeros, exceed `maxdigits`; `ddigits` counts
them. -/
def tooLong (maxdigits : ℤ) : ℤ → List ℕ → Bool
  | _, [] => false
  | ddigits, dig :: ds =>
    if dig ≠ 0 then
      let ddigits :=
        if dig < 10 then ddigits - 3
        else if dig < 100 then ddigits - 2
        else if dig < 1000 then ddigits - 1
        else ddigits
      maxdigits < ddigits
    else tooLong maxdigits (ddigits - decDigits) ds

/-- `_decimal_apply_typmod`. -/
def applyTypmod (d : Decimal) (typmod : ℤ) : Option (Rc × Decimal) :=
  if typmod = -1 then some (.ok, d)
  else
    let precision := typmod / 2 ^ 16 % 2 ^ 16
    let scale := typmod % 2 ^ 16
    let maxdigits := precision - scale
    match d.round scale with
    | none => none
    | some (.ok, r) =>
      let ddigits := (r.weight + 1) * decDigits
      if maxdigits < ddigits ∧ tooLong maxdigits ddigits r.digits then some (.sys, r)
      else some (.ok, r)
    | some (rc, r) => some (rc, r)

end Decimal

def keptUnit (di : ℕ) : ℕ := if di = 0 then 1 else roundPowers di

theorem keptUnit_eq {di : ℕ} (h : di < 4) : keptUnit di = 10 ^ ((4 - di) % 4) := by
  interval_cases di <;> rfl

theorem keptUnit_dvd {di : ℕ} (h : di < 4) : keptUnit di ∣ nbase := by interval_cases di <;> decide

variable {digits : List ℕ} {ndigits di : ℕ}

theorem keepDigits_written (h : ∀ x ∈ digits, x < nbase) :
    Written nbase (digits.take ndigits).length (keepDigits digits ndigits di) := by
  have hkept : ∀ x ∈ (digits.take ndigits).reverse, x < nbase := fun x hx =>
    h x (mem_of_mem_take (mem_reverse.mp hx))
  rw [keepDigits]
  split
  · exact ⟨length_reverse, hkept⟩
  cases hrev : (digits.take ndigits).reverse with
  | nil =>
    rw [← length_reverse, hrev]
    exact .nil
  | cons x xs =>
    rw [hrev] at hkept
    obtain ⟨hx, hxs⟩ := forall_mem_cons.mp hkept
    rw [← length_reverse, hrev, length_cons]
    exact .cons (by omega) ⟨rfl, hxs⟩

theorem ofDigits_keepDigits (h : ∀ x ∈ digits, x < nbase) (hdi : di < 4) :
    Nat.ofDigits nbase (keepDigits digits ndigits di)
      = keptUnit di * (beVal nbase digits
          / (nbase ^ (digits.length - ndigits) * keptUnit di)) := by
  rw [← Nat.div_div_eq_div_mul, ← beVal_take (by decide) h, beVal, keepDigits, keptUnit]
  split
  · rw [Nat.div_one, one_mul]
  rename_i hne
  cases hrev : (digits.take ndigits).reverse with
  | nil => simp
  | cons x xs =>
    have hdvd : roundPowers di ∣ nbase := by
      have := keptUnit_dvd hdi
      rwa [keptUnit, if_neg hne] at this
    have hmod : Nat.ofDigits nbase (x :: xs) % roundPowers di = x % roundPowers di := by
      obtain ⟨k, hk⟩ := hdvd
      rw [Nat.ofDigits_cons, hk, mul_assoc, Nat.add_mul_mod_self_left]
    have hle : x % roundPowers di ≤ x := Nat.mod_le _ _
    have hdm := Nat.div_add_mod (Nat.ofDigits nbase (x :: xs)) (roundPowers di)
    rw [hmod] at hdm
    simp only [Nat.ofDigits_cons] at hdm ⊢
    omega

theorem roundCarry_eq (h : ∀ x ∈ digits, x < nbase) (hdi : di < 4)
    (hcut : ndigits < digits.length ∨ ndigits = digits.length ∧ 0 < di)
    (hpos : 0 < di → 0 < ndigits) :
    roundCarry digits ndigits di
      = if nbase ^ (digits.length - ndigits) * keptUnit di / 2
            ≤ beVal nbase digits % (nbase ^ (digits.length - ndigits) * keptUnit di)
        then keptUnit di else 0 := by
  have hle : ndigits ≤ digits.length := by omega
  have hT : beVal nbase (digits.drop ndigits) < nbase ^ (digits.length - ndigits) := by
    rw [← length_drop]
    exact beVal_lt (by decide) fun x hx => h x (mem_of_mem_drop hx)
  have hV : beVal nbase digits = beVal nbase (digits.take ndigits)
      * nbase ^ (digits.length - ndigits) + beVal nbase (digits.drop ndigits) := by
    conv_lhs => rw [← take_append_drop ndigits digits]
    rw [beVal_append, length_drop]
  rw [roundCarry, keptUnit]
  split
  · -- the first digit behind decides
    have hlt : ndigits < digits.length := by omega
    rw [mul_one, hV, Nat.mul_add_mod_self_right, Nat.mod_eq_of_lt hT]
    have hdrop := drop_eq_getElem_cons hlt
    have hT' : beVal nbase (digits.drop (ndigits + 1)) < nbase ^ (digits.drop (ndigits + 1)).length :=
      beVal_lt (by decide) fun x hx => h x (mem_of_mem_drop hx)
    rw [hdrop, beVal_cons, getD_eq_getElem _ _ hlt]
    have hhalf : nbase ^ (digits.length - ndigits) / 2
        = halfNbase * nbase ^ (digits.drop (ndigits + 1)).length := by
      have hlen : digits.length - ndigits = (digits.drop (ndigits + 1)).length + 1 := by
        rw [length_drop]
        omega
      refine Nat.div_eq_of_eq_mul_left (by decide) ?_
      rw [hlen, pow_succ]
      simp only [nbase, halfNbase]
      ring
    rw [hhalf]
    simp only [mul_le_mul_add_iff hT']
  · -- the decimals that are cleared inside the last digit decide
    rename_i hne
    have hlast : ndigits - 1 < digits.length := by omega
    have hunit : roundPowers di = keptUnit di := by rw [keptUnit, if_neg hne]
    have hmod : beVal nbase (digits.take ndigits) % roundPowers di
        = digits.getD (ndigits - 1) 0 % roundPowers di := by
      have htake : digits.take ndigits =
          digits.take (ndigits - 1) ++ [digits.getD (ndigits - 1) 0] := by
        rw [getD_eq_getElem _ _ hlast, take_concat_get', Nat.sub_add_cancel (by omega)]
      obtain ⟨k, hk⟩ := hunit ▸ keptUnit_dvd hdi
      rw [htake, beVal_append, beVal_singleton, length_singleton, pow_one]
      generalize beVal nbase (digits.take (ndigits - 1)) = A
      rw [hk, Nat.mul_left_comm, Nat.mul_add_mod]
    have hhalf : nbase ^ (digits.length - ndigits) * roundPowers di / 2
        = roundPowers di / 2 * nbase ^ (digits.length - ndigits) := by
      have heven : 2 ∣ roundPowers di := by
        interval_cases di <;> first | exact absurd rfl hne | decide
      rw [Nat.mul_div_assoc _ heven, mul_comm]
    have hsplit : beVal nbase digits % (nbase ^ (digits.length - ndigits) * roundPowers di)
        = digits.getD (ndigits - 1) 0 % roundPowers di * nbase ^ (digits.length - ndigits)
          + beVal nbase (digits.drop ndigits) := by
      rw [Nat.mod_mul, hV, Nat.mul_add_mod_self_right, Nat.mod_eq_of_lt hT,
        add_comm (_ * _) (beVal _ _), Nat.add_mul_div_right _ _ (by positivity), Nat.div_eq_of_lt hT, zero_add, hmod]
      ring
    rw [hhalf, hsplit]
    simp only [mul_le_mul_add_iff hT]

variable {n k : ℕ}

theorem cut_iff :
    ((k + decDigits - 1) / decDigits < n ∨ (k + decDigits - 1) / decDigits = n ∧ 0 < k % decDigits)
      ↔ k < 4 * n := by
  simp only [decDigits]
  omega

/-! ## Numbers and scales -/

theorem nbase_zpow (z : ℤ) : (nbase : ℚ) ^ z = 10 ^ (4 * z) := by
  rw [zpow_mul]
  norm_num

theorem radix_mul_zpow (ds : List ℕ) (w s : ℤ) :
    radix nbase ds w * 10 ^ s = beVal nbase ds * 10 ^ (4 * (w + 1 - ds.length) + s) := by
  rw [radix_eq (by decide), nbase_zpow, mul_assoc, ← zpow_add₀ (by norm_num)]

theorem keptUnit_eq_pow (k : ℕ) : keptUnit (k % 4) = 10 ^ (4 * ((k + 3) / 4) - k) := by
  rw [keptUnit_eq (Nat.mod_lt _ (by decide))]
  congr 1
  omega

theorem pow_mul_keptUnit (h : (k + 3) / 4 ≤ n) :
    nbase ^ (n - (k + 3) / 4) * keptUnit (k % 4) = 10 ^ (4 * n - k) := by
  rw [keptUnit_eq_pow, show nbase = 10 ^ 4 from rfl, ← pow_mul, ← pow_add]
  congr 1
  omega

namespace Decimal

variable {d r : Decimal} {s : ℤ}

theorem mag_mul_zpow (hk : (d.weight + 1) * 4 + s = k) (hle : k ≤ 4 * d.digits.length) :
    d.mag * 10 ^ s = beVal nbase d.digits / (10 ^ (4 * d.digits.length - k) : ℕ) := by
  have hexp : 4 * (d.weight + 1 - d.digits.length) + s = -((4 * d.digits.length - k : ℕ) : ℤ) := by
    push_cast [Nat.cast_sub hle]
    linarith
  rw [mag, radix_mul_zpow, hexp, zpow_neg, zpow_natCast, Nat.cast_pow, Nat.cast_ofNat,
    div_eq_mul_inv]

theorem mag_mul_zpow_of_le (hk : (d.weight + 1) * 4 + s = k) (hle : 4 * d.digits.length ≤ k) :
    d.mag * 10 ^ s = (beVal nbase d.digits * 10 ^ (k - 4 * d.digits.length) : ℕ) := by
  have hexp : 4 * (d.weight + 1 - d.digits.length) + s = ((k - 4 * d.digits.length : ℕ) : ℤ) := by
    push_cast [Nat.cast_sub hle]
    linarith
  rw [mag, radix_mul_zpow, hexp, zpow_natCast, Nat.cast_mul, Nat.cast_pow, Nat.cast_ofNat]

variable {w : ℤ}

theorem kept_mul_zpow (hk : (w + 1) * 4 + s = k) (q : ℕ) :
    ((keptUnit (k % 4) * q : ℕ) : ℚ) * (nbase : ℚ) ^ (w + 1 - ((k + 3) / 4 : ℕ)) = q / 10 ^ s := by
  have hexp : ((4 * ((k + 3) / 4) - k : ℕ) : ℤ) + 4 * (w + 1 - ((k + 3) / 4 : ℕ)) = -s := by
    omega
  rw [nbase_zpow, keptUnit_eq_pow, Nat.cast_mul, Nat.cast_pow, Nat.cast_ofNat, ← zpow_natCast,
    mul_right_comm, ← zpow_add₀ (by norm_num), hexp, zpow_neg, mul_comm, div_eq_mul_inv]

theorem kept_radix {q : ℕ} {ds : List ℕ} (hk : (w + 1) * 4 + s = k) (hlen : ds.length = (k + 3) / 4)
    (hval : beVal nbase ds = keptUnit (k % 4) * q) : radix nbase ds w = q / 10 ^ s := by
  rw [radix_eq (by decide), hlen, hval, kept_mul_zpow hk]

theorem kept_radix_carry {q : ℕ} {ds : List ℕ} (hk : (w + 1) * 4 + s = k)
    (hlen : ds.length = (k + 3) / 4)
    (hval : beVal nbase ds + nbase ^ ds.length = keptUnit (k % 4) * q) :
    radix nbase (1 :: ds) (w + 1) = q / 10 ^ s := by
  have hexp : w + 1 + 1 - ((1 :: ds).length : ℤ) = w + 1 - ((k + 3) / 4 : ℕ) := by
    rw [length_cons, hlen]
    push_cast
    ring
  rw [radix_eq (by decide), hexp, beVal_cons, one_mul, add_comm, hval, kept_mul_zpow hk]

theorem roundTo_mag (hk : (d.weight + 1) * 4 + s = k) (hcut : k < 4 * d.digits.length) :
    roundTo s d.mag = ((beVal nbase d.digits + 10 ^ (4 * d.digits.length - k) / 2)
      / 10 ^ (4 * d.digits.length - k) : ℕ) / 10 ^ s :=
  roundTo_eq_div (by positivity) (dvd_pow (by decide) (by omega)) (mag_mul_zpow hk hcut.le)

structure Rounded (s : ℤ) (d r : Decimal) : Prop where
  mag : r.mag = roundTo s d.mag
  dscale : r.dscale = s
  digits : r.DigitsOk
  isOwn : r.isOwn = true
  typemod : r.typemod = d.typemod
  sign : r.sign = d.sign ∨ r.sign = .pos ∧ r.digits = []
  weight : r.weight = d.weight ∨ r.weight = d.weight + 1 ∨ r.weight = 0

section
variable (hok : ∀ x ∈ digits, x < nbase)
include hok

theorem keepDigits_length (h : n ≤ digits.length) :
    (keepDigits digits n di).length = n := by
  rw [(keepDigits_written hok).length, length_take, min_eq_left h]

theorem roundDigits_written (hk : k < 4 * digits.length) :
    Written nbase ((k + 3) / 4) (roundDigits digits ((k + 3) / 4) (k % 4)).1 := by
  have hcarry : roundCarry digits ((k + 3) / 4) (k % 4) ≤ nbase := by
    have := Nat.mod_lt k (by decide : 0 < 4)
    rw [roundCarry_eq hok this (by omega) (by omega)]
    split
    · exact Nat.le_of_dvd (by decide) (keptUnit_dvd this)
    · exact Nat.zero_le _
  have hkept : ∀ x ∈ keepDigits digits ((k + 3) / 4) (k % 4), x < nbase :=
    (keepDigits_written hok).lt
  have hw := bump_written hkept hcarry
  rwa [keepDigits_length hok (by omega)] at hw

theorem roundDigits_carry_le (hk : k < 4 * digits.length) :
    (roundDigits digits ((k + 3) / 4) (k % 4)).2 ≤ 1 := by
  refine bump_carry_le ?_
  by_cases hdi : k % 4 = 0
  · refine .inr ?_
    rw [roundCarry, if_pos hdi]
    split <;> decide
  · refine .inl (ne_nil_of_length_pos ?_)
    rw [keepDigits_length hok (by omega)]
    omega

theorem ofDigits_roundDigits (hk : k < 4 * digits.length) :
    Nat.ofDigits nbase (roundDigits digits ((k + 3) / 4) (k % 4)).1
        + (roundDigits digits ((k + 3) / 4) (k % 4)).2 * nbase ^ ((k + 3) / 4)
      = keptUnit (k % 4) * ((beVal nbase digits + 10 ^ (4 * digits.length - k) / 2)
          / 10 ^ (4 * digits.length - k)) := by
  have hlen : (keepDigits digits ((k + 3) / 4) (k % 4)).length = (k + 3) / 4 :=
    keepDigits_length hok (by omega)
  have hdi := Nat.mod_lt k (by decide : 0 < 4)
  have heven : 2 ∣ 10 ^ (4 * digits.length - k) := dvd_pow (by decide) (by omega)
  have hbump := ofDigits_bump (b := nbase) (keepDigits digits ((k + 3) / 4) (k % 4))
    (roundCarry digits ((k + 3) / 4) (k % 4))
  rw [hlen] at hbump
  rw [roundDigits, hbump, ofDigits_keepDigits hok hdi, roundCarry_eq hok hdi (by omega) (by omega),
    pow_mul_keptUnit (by omega), add_half_div (by positivity) heven, mul_add]
  congr 1
  split <;> simp

end

theorem mag_mul_zpow_lt (hok : d.DigitsOk) (s : ℤ) :
    d.mag * 10 ^ s < 10 ^ ((d.weight + 1) * decDigits + s) :=
  calc d.mag * 10 ^ s < (nbase : ℚ) ^ (d.weight + 1) * 10 ^ s :=
        mul_lt_mul_of_pos_right (mag_lt hok) (ten_zpow_pos s)
    _ = 10 ^ ((d.weight + 1) * decDigits + s) := by
      rw [nbase_zpow, ← zpow_add₀ (by norm_num), mul_comm 4]
      rfl

theorem roundTo_of_neg (hok : d.DigitsOk) (hneg : (d.weight + 1) * decDigits + s < 0) :
    roundTo s d.mag = 0 := by
  refine roundTo_of_lt ((mag_mul_zpow_lt hok s).trans ?_)
  calc (10 : ℚ) ^ ((d.weight + 1) * decDigits + s) ≤ 10 ^ (-1 : ℤ) :=
        zpow_le_zpow_right₀ (by norm_num) (by omega)
    _ < 1 / 2 := by norm_num

theorem radix_roundDigits (hok : d.DigitsOk) (hk : (d.weight + 1) * 4 + s = k)
    (hcut : k < 4 * d.digits.length) {q : List ℕ × ℕ}
    (hq : q = roundDigits d.digits ((k + 3) / 4) (k % 4)) :
    (q.2 = 0 → radix nbase q.1.reverse d.weight = roundTo s d.mag)
      ∧ (q.2 ≠ 0 → radix nbase (1 :: q.1.reverse) (d.weight + 1) = roundTo s d.mag) := by
  have hcarry := roundDigits_carry_le hok hcut
  have hvalue := ofDigits_roundDigits hok hcut
  have hlen := (roundDigits_written hok hcut).length
  rw [← hq] at hcarry hvalue hlen
  have hrev : q.1.reverse.length = (k + 3) / 4 := by rw [length_reverse, hlen]
  have hbe : beVal nbase q.1.reverse = Nat.ofDigits nbase q.1 := by
    rw [beVal, reverse_reverse]
  rw [roundTo_mag hk hcut]
  constructor
  · intro hzero
    rw [hzero, zero_mul, add_zero, ← hbe] at hvalue
    exact kept_radix hk hrev hvalue
  intro hne
  have hone : q.2 = 1 := by omega
  rw [hone, one_mul, ← hbe, ← hrev] at hvalue
  exact kept_radix_carry hk hrev hvalue

def CarryFits (d : Decimal) (x : ℚ) : Prop :=
  d.front.head? = some .zero ∨ x < (nbase : ℚ) ^ (d.weight + 1)

/-- **`decimal_round` rounds half away from zero**, unless it carries into a cell that is not
cleared. -/
theorem round_cases (hown : d.isOwn = true) (hok : d.DigitsOk) (s : ℤ) :
    (CarryFits d (roundTo s d.mag) ∧ ∃ r, d.round s = some (.ok, r) ∧ Rounded s d r)
      ∨ (¬ CarryFits d (roundTo s d.mag) ∧ d.round s = none) := by
  rw [round, if_neg (by simp [hown])]
  dsimp only
  split
  · rename_i hneg
    have hzero := roundTo_of_neg hok hneg
    refine .inl ⟨.inr ?_, _, rfl, ?_, rfl, by simp [DigitsOk], hown, rfl, .inr ⟨rfl, rfl⟩,
      .inr (.inr rfl)⟩
    · rw [hzero]
      positivity
    · rw [hzero, mag, radix_nil]
  · rename_i hnonneg
    obtain ⟨k, hk⟩ : ∃ k : ℕ, (d.weight + 1) * decDigits + s = k :=
      Int.eq_ofNat_of_zero_le (not_lt.mp hnonneg)
    rw [hk, Int.toNat_natCast]
    split
    · rename_i hcut
      rw [cut_iff] at hcut
      have hnd : (k + decDigits - 1) / decDigits = (k + 3) / 4 := rfl
      rw [hnd, show decDigits = 4 from rfl]
      have hwritten := roundDigits_written hok hcut
      obtain ⟨hplain, hcarried⟩ := radix_roundDigits hok hk hcut rfl
      generalize roundDigits d.digits ((k + 3) / 4) (k % 4) = q at *
      have hlt : ∀ x ∈ q.1.reverse, x < nbase := fun x hx =>
        hwritten.lt x (mem_reverse.mp hx)
      split
      · rename_i hzero
        refine .inl ⟨.inr ?_, _, rfl, hplain hzero, rfl, hlt, hown, rfl, .inl rfl, .inl rfl⟩
        rw [← hplain hzero]
        exact radix_lt (by decide) hlt _
      · rename_i hone
        split
        · rename_i hf
          refine .inl ⟨.inl (by rw [hf, head?_cons]), _, rfl, hcarried hone, rfl, ?_, hown, rfl,
            .inl rfl, .inr (.inl rfl)⟩
          exact forall_mem_cons.mpr ⟨by decide, hlt⟩
        · rename_i hf
          refine .inr ⟨?_, rfl⟩
          rintro (hfront | hfit)
          · obtain ⟨front, hfront⟩ := head?_eq_some_iff.mp hfront
            exact hf front hfront
          · rw [← hcarried hone] at hfit
            exact (le_radix (by decide) _).not_gt hfit
    · rename_i hcut
      rw [cut_iff] at hcut
      have hval := roundTo_of_natCast (mag_mul_zpow_of_le hk (not_lt.mp hcut))
      refine .inl ⟨.inr ?_, _, rfl, hval.symm, rfl, hok, hown, rfl, .inl rfl, .inl rfl⟩
      rw [hval]
      exact mag_lt hok

theorem round_spec {rc : Rc} (hown : d.isOwn = true) (hok : d.DigitsOk)
    (h : d.round s = some (rc, r)) : Rounded s d r := by
  obtain ⟨-, r', hr, hround⟩ | ⟨-, hnone⟩ := round_cases hown hok s
  · cases hr.symm.trans h
    exact hround
  · cases hnone.symm.trans h

theorem round_defined (hown : d.isOwn = true) (hok : d.DigitsOk)
    (hfront : d.front.head? = some .zero) (s : ℤ) :
    ∃ r, d.round s = some (.ok, r) ∧ Rounded s d r := by
  obtain ⟨-, h⟩ | ⟨hfit, -⟩ := round_cases hown hok s
  · exact h
  · exact absurd (.inl hfront) hfit

theorem roundHalfAway_value (d : Decimal) (s : ℤ) :
    roundHalfAway s d.value = if d.sign = .neg then -roundTo s d.mag else roundTo s d.mag := by
  have hnonneg : 0 ≤ d.mag := mag_nonneg
  rcases hnonneg.eq_or_lt with h0 | hpos
  · simp [roundHalfAway, abs_value, ← h0, roundTo_zero]
  · rw [roundHalfAway, abs_value, value]
    split <;> simp [Left.sign_neg, sign_pos hpos]

theorem abs_roundHalfAway_value (d : Decimal) (s : ℤ) :
    |roundHalfAway s d.value| = roundTo s d.mag := by
  rw [roundHalfAway_value]
  split
  · rw [abs_neg, abs_of_nonneg (roundTo_nonneg _ _)]
  · exact abs_of_nonneg (roundTo_nonneg _ _)

theorem Rounded.value (h : Rounded s d r) : r.value = roundHalfAway s d.value := by
  rw [roundHalfAway_value, Decimal.value, h.mag]
  rcases h.sign with hs | ⟨hs, hnil⟩
  · rw [hs]
  · have hzero : roundTo s d.mag = 0 := by rw [← h.mag, Decimal.mag, hnil, radix_nil]
    simp [hzero]

structure Truncated (s : ℤ) (d r : Decimal) : Prop where
  mag : r.mag = truncTo s d.mag
  dscale : r.dscale = s
  digits : r.DigitsOk
  isOwn : r.isOwn = true
  typemod : r.typemod = d.typemod
  sign : r.sign = d.sign ∨ r.sign = .pos ∧ r.digits = []
  length : r.digits.length ≤ d.digits.length

theorem truncTo_of_nonpos (hok : d.DigitsOk) (h : (d.weight + 1) * decDigits + s ≤ 0) :
    truncTo s d.mag = 0 := by
  refine truncTo_of_lt ((mag_mul_zpow_lt hok s).trans_le ?_)
  exact zpow_le_one_of_nonpos₀ (by norm_num) h

theorem trunc_spec (hown : d.isOwn = true) (hok : d.DigitsOk) (s : ℤ) :
    Truncated s d (d.trunc s) := by
  rw [trunc, if_neg (by simp [hown])]
  dsimp only
  split
  · rename_i hle
    refine ⟨?_, rfl, by simp [DigitsOk], hown, rfl, .inr ⟨rfl, rfl⟩, Nat.zero_le _⟩
    rw [truncTo_of_nonpos hok hle, mag, radix_nil]
  rename_i hpos
  obtain ⟨k, hk⟩ : ∃ k : ℕ, (d.weight + 1) * decDigits + s = k :=
    Int.eq_ofNat_of_zero_le (by omega)
  have hnd : (k + decDigits - 1) / decDigits = (k + 3) / 4 := rfl
  rw [hk, Int.toNat_natCast, hnd, show decDigits = 4 from rfl]
  split
  · rename_i hle
    have hwritten : Written nbase _ (keepDigits d.digits ((k + 3) / 4) (k % 4)) :=
      keepDigits_written hok
    have hlen : (keepDigits d.digits ((k + 3) / 4) (k % 4)).reverse.length = (k + 3) / 4 := by
      rw [length_reverse, keepDigits_length hok hle]
    refine ⟨?_, rfl, ?_, hown, rfl, .inl rfl, by rw [hlen]; exact hle⟩
    · rw [truncTo_eq_div (mag_mul_zpow hk (by omega))]
      refine kept_radix hk hlen ?_
      rw [beVal, reverse_reverse, ofDigits_keepDigits hok (Nat.mod_lt _ (by decide)),
        pow_mul_keptUnit hle]
    · intro x hx
      exact hwritten.lt x (mem_reverse.mp hx)
  · rename_i hlt
    refine ⟨?_, rfl, hok, hown, rfl, .inl rfl, le_refl _⟩
    exact (truncTo_of_natCast (mag_mul_zpow_of_le hk (by omega))).symm

end Decimal

end Novachains.Bson
