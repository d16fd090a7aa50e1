import Novachains.Bson.Compare
import Novachains.Lib.DigitLoops
import Mathlib.Data.List.GetD

/-!
# Addition and subtraction

`_decimal_add_abs` and `_decimal_sub_abs` walk over both digit arrays from the last common position
to the first, with indices that may lie outside either array.  `_decimal_add` and `_decimal_sub`
choose between them by the signs and the absolute values.  The result may be stored in an operand:
where both cancel it is set to zero before the display scales are read.
-/

namespace Novachains.Bson

open Lib List
open Nat (ofDigits)

def digitAt (digits : List ℕ) (i : ℤ) : ℕ :=
  if 0 ≤ i ∧ i < digits.length then digits.getD i.toNat 0 else 0

structure Target where
  isLeft : Bool := false
  isRight : Bool := false
  deriving DecidableEq, Repr

namespace Decimal

def rscale (d : Decimal) : ℤ := d.digits.length - d.weight - 1

variable (left right : Decimal)

/-- The digits of both operands at the last `n` positions, the last position first. -/
def aligned (n : ℕ) : List (ℕ × ℕ) :=
  let resRscale := max left.rscale right.rscale
  (List.range n).map fun k : ℕ =>
    (digitAt left.digits (resRscale + left.weight - k),
      digitAt right.digits (resRscale + right.weight - k))

def resNdigits (resWeight : ℤ) : ℕ :=
  let n := max left.rscale right.rscale + resWeight + 1
  if n ≤ 0 then 1 else n.toNat

def stored (resWeight : ℤ) (digits : List ℕ) : Decimal :=
  strip {
    dscale := max left.dscale right.dscale
    weight := resWeight
    isOwn := true
    front := [.zero]
    digits }

/-- `_decimal_sub_abs`. -/
def subAbs : Except Rc Decimal :=
  let resWeight := left.weight
  let r := subDigits nbase (aligned left right (resNdigits left right resWeight)) 0
  if r.2 ≠ 0 then .error .invalidArg else .ok (stored left right resWeight r.1.reverse)

/-- `_decimal_add_abs`. -/
def addAbs : Except Rc Decimal :=
  let resWeight := max left.weight right.weight + 1
  let r := addDigits nbase (aligned left right (resNdigits left right resWeight)) 0
  if r.2 ≠ 0 then .error .invalidArg else .ok (stored left right resWeight r.1.reverse)

variable (t : Target)

/-- The result of operands that cancel; an operand that is also the result is cleared first. -/
def cancelled (left right : Decimal) : Decimal :=
  let left := if t.isLeft then setZero else left
  let right := if t.isRight then setZero else right
  { setZero with dscale := max left.dscale right.dscale }

def withSign (sign : Sign) (r : Except Rc Decimal) : Except Rc Decimal :=
  r.map fun d => { d with sign }

/-- The difference of the absolute values: `sign1` when the left one is larger, else `sign2`. -/
def diffAbs (sign1 sign2 : Sign) (left right : Decimal) : Except Rc Decimal :=
  if cmpAbs left right = 0 then .ok (cancelled t left right)
  else if cmpAbs left right = 1 then withSign sign1 (subAbs left right)
  else withSign sign2 (subAbs right left)

/-- `_decimal_sub`. -/
def subRaw (left right : Decimal) : Except Rc Decimal :=
  if left.sign = .pos then
    if right.sign = .neg then withSign .pos (addAbs left right)
    else diffAbs t .pos .neg left right
  else if right.sign = .neg then diffAbs t .neg .pos left right
  else withSign .neg (addAbs left right)

/-- `_decimal_add`. -/
def addRaw (left right : Decimal) : Except Rc Decimal :=
  if left.sign = .pos then
    if right.sign = .pos then withSign .pos (addAbs left right)
    else diffAbs t .pos .neg left right
  else if right.sign = .pos then diffAbs t .neg .pos left right
  else withSign .neg (addAbs left right)

/-- The end of `decimal_add` and `decimal_sub`. -/
def stripChecked (r : Except Rc Decimal) : Except Rc Decimal :=
  r.bind fun d => if d.strip.isOutOfBound then .error .invalidArg else .ok d.strip

/-- `decimal_add`. -/
def add (left right : Decimal) : Except Rc Decimal :=
  if left.isSpecial || right.isSpecial then .ok setNan else stripChecked (addRaw t left right)

/-- `decimal_sub`. -/
def sub (left right : Decimal) : Except Rc Decimal :=
  if left.isSpecial || right.isSpecial then .ok setNan else stripChecked (subRaw t left right)

variable {digits : List ℕ}

theorem digitAt_eq {i : ℤ} {q : ℕ} (hq : i + 1 - digits.length = q) (k : ℕ) :
    digitAt digits (i - k) = (List.replicate q 0 ++ digits.reverse).getD k 0 := by
  rw [digitAt]
  by_cases hkq : k < q
  · rw [if_neg (by omega), getD_append _ _ _ _ (by simpa using hkq)]
    simp
  rw [getD_append_right _ _ _ _ (by simpa using not_lt.mp hkq), length_replicate]
  by_cases hlen : k - q < digits.length
  · rw [if_pos (by omega), getD_eq_getElem digits _ (by omega),
      getD_eq_getElem digits.reverse _ (by simpa using hlen), getElem_reverse]
    congr 1
    omega
  · rw [if_neg (by omega), getD_eq_default _ _ (by simpa using not_lt.mp hlen)]

theorem ofDigits_align (h : ∀ x ∈ digits, x < nbase) {i : ℤ} {q : ℕ}
    (hq : i + 1 - digits.length = q) (n : ℕ) :
    ofDigits nbase ((List.range n).map fun k : ℕ => digitAt digits (i - k))
      = nbase ^ q * beVal nbase digits % nbase ^ n := by
  have hok : ∀ x ∈ List.replicate q 0 ++ digits.reverse, x < nbase := by
    intro x hx
    rcases mem_append.mp hx with hx | hx
    · rw [eq_of_mem_replicate hx]
      decide
    · exact h x (mem_reverse.mp hx)
  simp only [digitAt_eq hq]
  rw [ofDigits_range_getD (by decide) hok, Nat.ofDigits_append, Nat.ofDigits_replicate_zero,
    length_replicate, zero_add, beVal]

variable {a b d r : Decimal}
variable {W : ℤ} {n : ℕ}

theorem lt_pow_of_mul_lt {R : ℤ} {x : ℕ} (hn : (n : ℤ) = R + W + 1)
    (h : (x : ℚ) * (nbase : ℚ) ^ (-R) < (nbase : ℚ) ^ (W + 1)) : x < nbase ^ n := by
  have hpow : (nbase : ℚ) ^ (W + 1) = (nbase : ℚ) ^ n * (nbase : ℚ) ^ (-R) := by
    rw [← zpow_natCast, ← zpow_add₀ (by norm_num)]
    congr 1
    omega
  rw [hpow] at h
  exact_mod_cast lt_of_mul_lt_mul_right h (by positivity)

theorem align_mag {R : ℤ} (hok : d.DigitsOk) (hR : d.rscale ≤ R) (hn : (n : ℤ) = R + W + 1)
    (hlt : d.mag < (nbase : ℚ) ^ (W + 1)) : ((ofDigits nbase
      ((List.range n).map fun k : ℕ => digitAt d.digits (R + d.weight - k)) : ℕ) : ℚ)
      * (nbase : ℚ) ^ (-R) = d.mag := by
  have hb : (nbase : ℚ) ≠ 0 := by norm_num
  obtain ⟨q, hq⟩ : ∃ q : ℕ, R + d.weight + 1 - d.digits.length = q :=
    Int.eq_ofNat_of_zero_le (by rw [rscale] at hR; omega)
  have hmag : d.mag = ((nbase ^ q * beVal nbase d.digits : ℕ) : ℚ) * (nbase : ℚ) ^ (-R) := by
    rw [mag_eq, show d.weight + 1 - (d.digits.length : ℤ) = q + -R by omega, zpow_add₀ hb,
      zpow_natCast]
    push_cast
    ring
  have hfit : nbase ^ q * beVal nbase d.digits < nbase ^ n :=
    lt_pow_of_mul_lt hn (by rwa [← hmag])
  rw [ofDigits_align hok hq, Nat.mod_eq_of_lt hfit, hmag]

theorem aligned_fst (n : ℕ) : (aligned a b n).map Prod.fst = (List.range n).map fun k : ℕ =>
    digitAt a.digits (max a.rscale b.rscale + a.weight - k) := by
  rw [aligned, List.map_map]
  rfl

theorem aligned_snd (n : ℕ) : (aligned a b n).map Prod.snd = (List.range n).map fun k : ℕ =>
    digitAt b.digits (max a.rscale b.rscale + b.weight - k) := by
  rw [aligned, List.map_map]
  rfl

theorem aligned_length (n : ℕ) : (aligned a b n).length = n := by
  rw [aligned, length_map, length_range]

theorem digitAt_lt (h : ∀ x ∈ digits, x < nbase) (i : ℤ) : digitAt digits i < nbase := by
  rw [digitAt]
  split
  · rename_i hi
    rw [getD_eq_getElem _ _ (by omega)]
    exact h _ (getElem_mem _)
  · decide

theorem aligned_lt (ha : a.DigitsOk) (hb : b.DigitsOk) (n : ℕ) :
    ∀ p ∈ aligned a b n, p.1 < nbase ∧ p.2 < nbase := by
  intro p hp
  obtain ⟨k, -, rfl⟩ := List.mem_map.mp hp
  exact ⟨digitAt_lt ha _, digitAt_lt hb _⟩

/-! ## Absolute values -/

structure AbsResult (a b r : Decimal) (x : ℚ) : Prop where
  mag : r.mag = x
  normal : r.Normal
  dscale : r.dscale = max a.dscale b.dscale
  isOwn : r.isOwn = true
  typemod : r.typemod = -1

theorem stored_spec {ds : List ℕ} (hn : (n : ℤ) = max a.rscale b.rscale + W + 1)
    (hds : Written nbase n ds) : AbsResult a b (stored a b W ds.reverse)
      ((ofDigits nbase ds : ℕ) * (nbase : ℚ) ^ (-max a.rscale b.rscale)) where
  mag := by
    rw [stored, strip_mag, mag_eq, beVal, reverse_reverse, length_reverse, hds.length, hn]
    congr 2
    ring
  normal := strip_normal rfl (.inl rfl) fun x hx => hds.lt x (mem_reverse.mp hx)
  dscale := strip_dscale
  isOwn := by simp [stored, strip]
  typemod := strip_typemod

theorem resNdigits_eq (h : 0 < max a.rscale b.rscale + W + 1) :
    (resNdigits a b W : ℤ) = max a.rscale b.rscale + W + 1 := by
  rw [resNdigits, if_neg (not_le.mpr h), Int.toNat_of_nonneg h.le]

/-- Both operands as integers in units of the last position, when they fit below the weight
`W + 1`. -/
structure Aligned (a b : Decimal) (W : ℤ) (ps : List (ℕ × ℕ)) : Prop where
  length : (ps.length : ℤ) = max a.rscale b.rscale + W + 1
  lt : ∀ p ∈ ps, p.1 < nbase ∧ p.2 < nbase
  fst : (ofDigits nbase (ps.map Prod.fst) : ℕ) * (nbase : ℚ) ^ (-max a.rscale b.rscale) = a.mag
  snd : (ofDigits nbase (ps.map Prod.snd) : ℕ) * (nbase : ℚ) ^ (-max a.rscale b.rscale) = b.mag

theorem aligned_spec (ha : a.DigitsOk) (hb : b.DigitsOk) (hpos : 0 < max a.rscale b.rscale + W + 1)
    (hla : a.mag < (nbase : ℚ) ^ (W + 1)) (hlb : b.mag < (nbase : ℚ) ^ (W + 1)) :
    Aligned a b W (aligned a b (resNdigits a b W)) where
  length := by rw [aligned_length, resNdigits_eq hpos]
  lt := aligned_lt ha hb _
  fst := by
    rw [aligned_fst]
    exact align_mag ha (le_max_left _ _) (resNdigits_eq hpos) hla
  snd := by
    rw [aligned_snd]
    exact align_mag hb (le_max_right _ _) (resNdigits_eq hpos) hlb

/-- **The sum of the absolute values.** -/
theorem addAbs_spec (ha : a.DigitsOk) (hb : b.DigitsOk) :
    ∃ r, addAbs a b = .ok r ∧ AbsResult a b r (a.mag + b.mag) := by
  have hpos : 0 < max a.rscale b.rscale + (max a.weight b.weight + 1) + 1 := by
    rw [rscale, rscale]
    omega
  -- one more position than either operand has leaves room for the carry
  have hmono : ∀ w : ℤ, w ≤ max a.weight b.weight →
      (nbase : ℚ) ^ (w + 1) ≤ (nbase : ℚ) ^ (max a.weight b.weight + 1) :=
    fun w hw => zpow_le_zpow_right₀ (by norm_num) (by omega)
  have hroom : (nbase : ℚ) ^ (max a.weight b.weight + 1 + 1)
      = nbase * (nbase : ℚ) ^ (max a.weight b.weight + 1) := by
    rw [zpow_add_one₀ (by norm_num), mul_comm]
  have hbase : (2 : ℚ) ≤ nbase := by norm_num
  have hunit : (0 : ℚ) < (nbase : ℚ) ^ (max a.weight b.weight + 1) := by positivity
  have hla := (mag_lt ha).trans_le (hmono _ (le_max_left _ _))
  have hlb := (mag_lt hb).trans_le (hmono _ (le_max_right _ _))
  have hal := aligned_spec ha hb hpos (by nlinarith) (by nlinarith)
  rw [addAbs]
  generalize aligned a b (resNdigits a b (max a.weight b.weight + 1)) = ps at hal ⊢
  have hlt : ofDigits nbase (ps.map Prod.fst) + ofDigits nbase (ps.map Prod.snd)
      < nbase ^ ps.length := by
    refine lt_pow_of_mul_lt hal.length ?_
    rw [Nat.cast_add, add_mul, hal.fst, hal.snd]
    nlinarith
  have hsum := ofDigits_addDigits (b := nbase) ps 0
  have hcarry : (addDigits nbase ps 0).2 = 0 := by
    by_contra hne
    have := Nat.le_mul_of_pos_left (nbase ^ ps.length) (Nat.pos_of_ne_zero hne)
    omega
  rw [hcarry, Nat.zero_mul, Nat.add_zero, Nat.add_zero] at hsum
  have hstored := stored_spec hal.length (addDigits_written hal.lt (Nat.zero_le 1))
  rw [hsum, Nat.cast_add, add_mul, hal.fst, hal.snd] at hstored
  exact ⟨_, if_neg (not_not.mpr hcarry), hstored⟩

/-- **The difference of the absolute values**, the larger one on the left. -/
theorem subAbs_spec (ha : a.DigitsOk) (hb : b.DigitsOk) (hlt : b.mag < a.mag) :
    ∃ r, subAbs a b = .ok r ∧ AbsResult a b r (a.mag - b.mag) := by
  have hne : a.digits ≠ [] := by
    intro hnil
    have h0 : a.mag = 0 := by rw [mag, hnil, radix_nil]
    linarith [b.mag_nonneg]
  have hpos : 0 < max a.rscale b.rscale + a.weight + 1 := by
    have := length_pos_of_ne_nil hne
    rw [rscale]
    omega
  have hal := aligned_spec ha hb hpos (mag_lt ha) (hlt.trans (mag_lt ha))
  rw [subAbs]
  generalize aligned a b (resNdigits a b a.weight) = ps at hal ⊢
  have heq := subDigits_eq (fun p hp => (hal.lt p hp).2) 0
  have hunit : (0 : ℚ) < (nbase : ℚ) ^ (-max a.rscale b.rscale) := by positivity
  have hle : ofDigits nbase (ps.map Prod.snd) < ofDigits nbase (ps.map Prod.fst) := by
    rw [← hal.fst, ← hal.snd] at hlt
    exact_mod_cast lt_of_mul_lt_mul_right hlt hunit.le
  have hfst : ofDigits nbase (ps.map Prod.fst) < nbase ^ ps.length :=
    lt_pow_of_mul_lt hal.length (by rw [hal.fst]; exact mag_lt ha)
  have hwritten : Written nbase ps.length (subDigits nbase ps 0).1 := by
    rw [heq]
    exact mulSubDigits_written (by decide) 1 (fun p hp => (hal.lt p hp).1) 0 (Nat.zero_le 1)
  have hout : ofDigits nbase (subDigits nbase ps 0).1 < nbase ^ ps.length := by
    rw [← hwritten.length]
    exact Nat.ofDigits_lt_base_pow_length (by decide) hwritten.lt
  have hsub := ofDigits_mulSubDigits (by decide : 0 < nbase) 1 ps 0 (Nat.zero_le 1)
  rw [← heq, Nat.zero_add, Nat.one_mul, Nat.mod_eq_of_lt (hle.trans hfst), Nat.add_zero] at hsub
  have hborrow : (subDigits nbase ps 0).2 = 0 := by
    by_contra hne
    have := Nat.le_mul_of_pos_right (nbase ^ ps.length) (Nat.pos_of_ne_zero hne)
    omega
  rw [hborrow, Nat.mul_zero, Nat.add_zero] at hsub
  have hmag : (ofDigits nbase (subDigits nbase ps 0).1 : ℕ)
      * (nbase : ℚ) ^ (-max a.rscale b.rscale) = a.mag - b.mag := by
    rw [← hal.fst, ← hal.snd, ← hsub]
    push_cast
    ring
  have hstored := stored_spec hal.length hwritten
  rw [hmag] at hstored
  exact ⟨_, if_neg (not_not.mpr hborrow), hstored⟩

def signed (sign : Sign) (x : ℚ) : ℚ := if sign = .neg then -x else x

theorem value_eq_signed (d : Decimal) : d.value = signed d.sign d.mag := rfl

def flip (sign : Sign) : Sign := if sign = .pos then .neg else .pos

theorem signed_flip {sign : Sign} (h : sign = .pos ∨ sign = .neg) (x : ℚ) :
    signed (flip sign) x = -signed sign x := by
  rcases h with rfl | rfl <;> simp [signed, flip]

def combine (sign1 sign2 : Sign) (left right : Decimal) : Except Rc Decimal :=
  if sign1 = sign2 then withSign sign1 (addAbs left right) else diffAbs t sign1 sign2 left right

theorem addRaw_eq (ha : a.Finite) (hb : b.Finite) (t : Target) :
    addRaw t a b = combine t a.sign b.sign a b := by
  rcases ha with ha | ha <;> rcases hb with hb | hb <;> simp [addRaw, combine, ha, hb]

theorem subRaw_eq (ha : a.Finite) (hb : b.Finite) (t : Target) :
    subRaw t a b = combine t a.sign (flip b.sign) a b := by
  rcases ha with ha | ha <;> rcases hb with hb | hb <;> simp [subRaw, combine, flip, ha, hb]

def sumDscale (sign1 sign2 : Sign) (a b : Decimal) : ℤ :=
  if sign1 ≠ sign2 ∧ a.mag = b.mag then (cancelled t a b).dscale else max a.dscale b.dscale

structure Sum (t : Target) (sign1 sign2 : Sign) (a b r : Decimal) : Prop where
  value : r.value = signed sign1 a.mag + signed sign2 b.mag
  normal : r.strip.Normal
  dscale : r.dscale = sumDscale t sign1 sign2 a b
  typemod : r.typemod = -1
  zero : r.strip.digits = [] → r.strip.weight = 0

theorem strip_weight_of_nil (hown : d.isOwn = true) (h : d.strip.digits = []) :
    d.strip.weight = 0 := by rw [strip_weight hown, if_pos h]

variable {sign1 sign2 : Sign}

theorem AbsResult.sum {a' b' : Decimal} {x : ℚ} {sign : Sign} {t : Target}
    (h : AbsResult a' b' r x) (hs : sign = .pos ∨ sign = .neg)
    (hval : signed sign x = signed sign1 a.mag + signed sign2 b.mag)
    (hdscale : max a'.dscale b'.dscale = sumDscale t sign1 sign2 a b) :
    Sum t sign1 sign2 a b { r with sign } where
  value := by
    rw [value_eq_signed, ← hval, ← h.mag]
    rfl
  normal := strip_normal h.isOwn hs h.normal.digits
  dscale := h.dscale.trans hdscale
  typemod := h.typemod
  zero := strip_weight_of_nil h.isOwn

theorem signed_sub (h1 : sign1 = .pos ∨ sign1 = .neg) (h2 : sign2 = .pos ∨ sign2 = .neg)
    (hne : sign1 ≠ sign2) (x y : ℚ) : signed sign1 (x - y) = signed sign1 x + signed sign2 y := by
  rcases h1 with rfl | rfl <;> rcases h2 with rfl | rfl <;> simp [signed] at hne ⊢ <;> ring

theorem cancelled_spec (t : Target) : (cancelled t a b).value = 0 ∧ (cancelled t a b).strip.Normal := by
  have hown : (cancelled t a b).isOwn = false := rfl
  rw [strip_of_not_own hown]
  exact ⟨rfl, zero_normal _⟩

theorem diffAbs_spec (ha : a.DigitsOk) (hb : b.DigitsOk) (h1 : sign1 = .pos ∨ sign1 = .neg)
    (h2 : sign2 = .pos ∨ sign2 = .neg) (hne : sign1 ≠ sign2) (t : Target) :
    ∃ r, diffAbs t sign1 sign2 a b = .ok r ∧ Sum t sign1 sign2 a b r := by
  have hcmp := cmpAbs_eq ha hb
  rw [diffAbs]
  rcases lt_trichotomy a.mag b.mag with hlt | heq | hgt
  · rw [sign_neg (by linarith), SignType.coe_neg_one] at hcmp
    obtain ⟨r, hr, hres⟩ := subAbs_spec hb ha hlt
    rw [hcmp, if_neg (by decide), if_neg (by decide), hr]
    refine ⟨_, rfl, hres.sum h2 ?_ ?_⟩
    · rw [signed_sub h2 h1 hne.symm, add_comm]
    · rw [sumDscale, if_neg (by simp [hlt.ne]), max_comm]
  · rw [heq, sub_self, sign_zero, SignType.coe_zero] at hcmp
    obtain ⟨hval, hnorm⟩ := cancelled_spec (a := a) (b := b) t
    rw [if_pos hcmp]
    refine ⟨_, rfl, ?_, hnorm, ?_, rfl, fun _ => rfl⟩
    · rw [hval, ← signed_sub h1 h2 hne, heq, sub_self]
      simp [signed]
    · rw [sumDscale, if_pos ⟨hne, heq⟩]
  · rw [sign_pos (by linarith), SignType.coe_one] at hcmp
    obtain ⟨r, hr, hres⟩ := subAbs_spec ha hb hgt
    rw [hcmp, if_neg (by decide), if_pos rfl, hr]
    refine ⟨_, rfl, hres.sum h1 (signed_sub h1 h2 hne _ _) ?_⟩
    rw [sumDscale, if_neg (by simp [hgt.ne'])]

theorem combine_spec (ha : a.DigitsOk) (hb : b.DigitsOk) (h1 : sign1 = .pos ∨ sign1 = .neg)
    (h2 : sign2 = .pos ∨ sign2 = .neg) (t : Target) :
    ∃ r, combine t sign1 sign2 a b = .ok r ∧ Sum t sign1 sign2 a b r := by
  rw [combine]
  split
  · rename_i heq
    subst heq
    obtain ⟨r, hr, hres⟩ := addAbs_spec ha hb
    rw [hr]
    refine ⟨_, rfl, hres.sum h1 ?_ ?_⟩
    · rw [signed, signed, signed]
      split <;> ring
    · rw [sumDscale, if_neg (by simp)]
  · rename_i hne
    exact diffAbs_spec ha hb h1 h2 hne t

/-! ## Exactness -/

/-- The exact result `x` of two operands. -/
structure Exact (a b : Decimal) (x : ℚ) (r : Decimal) : Prop where
  value : r.value = x
  dscale : r.dscale = max a.dscale b.dscale
  normal : r.Normal

def keptDscale (a b : Decimal) : ℤ :=
  max (if t.isLeft then 0 else a.dscale) (if t.isRight then 0 else b.dscale)

theorem cancelled_dscale (t : Target) : (cancelled t a b).dscale = keptDscale t a b := by
  rw [cancelled, keptDscale]
  cases t.isLeft <;> cases t.isRight <;> rfl

theorem stripChecked_ok : stripChecked (.ok d) = .ok r ↔ d.strip.isOutOfBound = false ∧
    d.strip = r := by
  rw [stripChecked, Except.bind]
  cases d.strip.isOutOfBound <;> simp

theorem Sum.exact_iff {t : Target} (h1 : sign1 = .pos ∨ sign1 = .neg)
    (h2 : sign2 = .pos ∨ sign2 = .neg) (h : Sum t sign1 sign2 a b d) :
    (∀ r, stripChecked (.ok d) = .ok r →
        Exact a b (signed sign1 a.mag + signed sign2 b.mag) r)
      ↔ (sign1 ≠ sign2 → a.mag = b.mag →
        keptDscale t a b = max a.dscale b.dscale ∨ maxDscale < keptDscale t a b) := by
  constructor
  · intro hexact hne hmag
    have hscale : d.strip.dscale = keptDscale t a b := by
      rw [strip_dscale, h.dscale, sumDscale, if_pos ⟨hne, hmag⟩, cancelled_dscale]
    have hzero : d.strip.mag = 0 := by
      rw [← abs_value, strip_value, h.value, ← signed_sub h1 h2 hne, hmag, sub_self]
      simp [signed]
    have hweight := h.zero (h.normal.mag_eq_zero_iff.mp hzero)
    rw [or_iff_not_imp_right]
    intro hle
    rw [← hscale]
    refine (hexact d.strip (stripChecked_ok.mpr ⟨?_, rfl⟩)).dscale
    rw [isOutOfBound_eq_false, hweight, hscale]
    exact ⟨by decide, not_lt.mp hle⟩
  · intro hkept r hr
    obtain ⟨hbound, rfl⟩ := stripChecked_ok.mp hr
    refine ⟨by rw [strip_value, h.value], ?_, h.normal⟩
    rw [strip_dscale, h.dscale, sumDscale]
    split
    · rename_i hcancel
      rw [cancelled_dscale]
      refine (hkept hcancel.1 hcancel.2).resolve_right fun hlarge => ?_
      have hle := (isOutOfBound_eq_false.mp hbound).2
      rw [strip_dscale, h.dscale, sumDscale, if_pos hcancel, cancelled_dscale] at hle
      exact absurd hlarge (not_lt.mpr hle)
    · rfl

theorem isSpecial_of_finite (h : d.Finite) : d.isSpecial = false := by
  rcases h with h | h <;> simp [isSpecial, h]

theorem Normal.mag_pos (h : d.Normal) (hs : d.sign = .neg) : 0 < d.mag := by
  refine lt_of_le_of_ne mag_nonneg fun h0 => ?_
  have := h.zero (h.mag_eq_zero_iff.mp h0.symm)
  rw [hs] at this
  cases this

theorem Normal.cancel_add_iff (ha : a.Normal) (hb : b.Normal) :
    (a.sign ≠ b.sign ∧ a.mag = b.mag) ↔ a.value + b.value = 0 ∧ a.value ≠ 0 := by
  have ha0 : 0 ≤ a.mag := mag_nonneg
  have hb0 : 0 ≤ b.mag := mag_nonneg
  rcases ha.finite with hsa | hsa <;> rcases hb.finite with hsb | hsb <;>
    simp only [value, hsa, hsb, reduceCtorEq, if_true, if_false, ne_eq, not_true, not_false_iff,
      false_and, true_and, false_iff, not_and, not_not]
  · intro h
    linarith
  · have hpos := hb.mag_pos hsb
    exact ⟨fun h => ⟨by linarith, by linarith⟩, fun h => by linarith⟩
  · have hpos := ha.mag_pos hsa
    exact ⟨fun h => ⟨by linarith, by linarith⟩, fun h => by linarith⟩
  · intro h
    linarith

theorem Normal.cancel_sub_iff (ha : a.Normal) (hb : b.Normal) :
    (a.sign ≠ flip b.sign ∧ a.mag = b.mag) ↔ a.value = b.value := by
  have ha0 : 0 ≤ a.mag := mag_nonneg
  have hb0 : 0 ≤ b.mag := mag_nonneg
  rcases ha.finite with hsa | hsa <;> rcases hb.finite with hsb | hsb <;>
    simp only [value, flip, hsa, hsb, reduceCtorEq, if_true, if_false, ne_eq, not_true,
      not_false_iff, false_and, true_and, false_iff, neg_inj]
  · have hpos := hb.mag_pos hsb
    intro h
    linarith
  · have hpos := ha.mag_pos hsa
    intro h
    linarith

theorem flip_finite (sign : Sign) : flip sign = .pos ∨ flip sign = .neg := by
  rw [flip]
  split
  · exact .inr rfl
  · exact .inl rfl

theorem add_eq (ha : a.Finite) (hda : a.DigitsOk) (hb : b.Finite) (hdb : b.DigitsOk) (t : Target) :
    ∃ d, Sum t a.sign b.sign a b d ∧ add t a b = stripChecked (.ok d) := by
  obtain ⟨d, hd, hsum⟩ := combine_spec hda hdb ha hb t
  refine ⟨d, hsum, ?_⟩
  rw [add, isSpecial_of_finite ha, isSpecial_of_finite hb, if_neg (by decide), addRaw_eq ha hb, hd]

theorem sub_eq (ha : a.Finite) (hda : a.DigitsOk) (hb : b.Finite) (hdb : b.DigitsOk) (t : Target) :
    ∃ d, Sum t a.sign (flip b.sign) a b d ∧ sub t a b = stripChecked (.ok d) := by
  obtain ⟨d, hd, hsum⟩ := combine_spec hda hdb ha (flip_finite b.sign) t
  refine ⟨d, hsum, ?_⟩
  rw [sub, isSpecial_of_finite ha, isSpecial_of_finite hb, if_neg (by decide), subRaw_eq ha hb, hd]

/-- **Addition and subtraction are exact** unless operands cancel and the result is stored in the
one with the larger display scale. -/
theorem add_sub_exact_iff (ha : a.Normal) (hb : b.Normal) (t : Target) :
    ((∀ r, add t a b = .ok r → Exact a b (a.value + b.value) r)
        ↔ (a.value + b.value = 0 ∧ a.value ≠ 0 →
          keptDscale t a b = max a.dscale b.dscale ∨ maxDscale < keptDscale t a b))
      ∧ ((∀ r, sub t a b = .ok r → Exact a b (a.value - b.value) r)
        ↔ (a.value = b.value →
          keptDscale t a b = max a.dscale b.dscale ∨ maxDscale < keptDscale t a b)) := by
  constructor
  · obtain ⟨d, hsum, hadd⟩ := add_eq ha.finite ha.digits hb.finite hb.digits t
    rw [hadd, value_eq_signed a, value_eq_signed b, hsum.exact_iff ha.finite hb.finite, ← and_imp,
      ha.cancel_add_iff hb, value_eq_signed a, value_eq_signed b]
  obtain ⟨d, hsum, hsub⟩ := sub_eq ha.finite ha.digits hb.finite hb.digits t
  have hvalue : a.value - b.value = signed a.sign a.mag + signed (flip b.sign) b.mag := by
    rw [signed_flip hb.finite, sub_eq_add_neg, value_eq_signed, value_eq_signed]
  rw [hsub, hvalue, hsum.exact_iff ha.finite (flip_finite b.sign), ← and_imp, ha.cancel_sub_iff hb]

def oneHundredths : Decimal := { dscale := 2, isOwn := true, front := [.zero], digits := [1] }

def minusOne : Decimal := { sign := .neg, isOwn := true, front := [.zero], digits := [1] }

theorem oneHundredths_normal : oneHundredths.Normal :=
  ⟨.inl rfl, by simp [DigitsOk, oneHundredths], by decide, by decide, by decide⟩

theorem minusOne_normal : minusOne.Normal :=
  ⟨.inr rfl, by simp [DigitsOk, minusOne], by decide, by decide, by decide⟩

theorem add_sub_exact_iff_fresh : ∃ r, add {} oneHundredths minusOne = .ok r
    ∧ Exact oneHundredths minusOne (oneHundredths.value + minusOne.value) r := by
  have hexact := (add_sub_exact_iff oneHundredths_normal minusOne_normal {}).1.mpr
    fun _ => .inl (by decide)
  exact ⟨{ setZero with dscale := 2 }, rfl, hexact _ rfl⟩

/-- `1.00 + (-1)`, stored in the first operand, loses the display scale. -/
theorem scale_lost_by_cancelling :
    oneHundredths.Normal ∧ minusOne.Normal
      ∧ ¬ ∀ r, add { isLeft := true } oneHundredths minusOne = .ok r →
        Exact oneHundredths minusOne (oneHundredths.value + minusOne.value) r := by
  refine ⟨oneHundredths_normal, minusOne_normal, fun h => ?_⟩
  have hadd : add { isLeft := true } oneHundredths minusOne = .ok setZero := by rfl
  have hscale := (h setZero hadd).dscale
  cases hscale

end Decimal

end Novachains.Bson
