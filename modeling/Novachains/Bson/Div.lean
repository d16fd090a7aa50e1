import Novachains.Bson.Mul
import Novachains.Lib.LongDivision

/-!
# Division

A divisor of one digit has a fast path in `_decimal_div`; for more digits both operands are first
scaled up so that the divisor begins with a large digit, and then each quotient digit is estimated
from the first digits.  The quotient is rounded or cut off at the wanted scale.

`decimal_mod` is `left - right * (left / right)` with the quotient cut off and the product of
`_decimal_mul`, with all that can go wrong there.
-/

namespace Novachains.Bson

open Lib List

abbrev minSigDigits : ℕ := 16

abbrev maxDisplayScale : ℕ := 1000

abbrev minDisplayScale : ℕ := 0

/-- The array `dividend`: one cell more than the digits that are needed, then the digits of the left
operand, then zeros. -/
def workDividend (left : List ℕ) (rightNdigits resNdigits : ℕ) : List ℕ :=
  let divNdigits := max (resNdigits + rightNdigits) left.length
  0 :: (left ++ List.replicate (divNdigits - left.length) 0)

def divOneDigit (divisor1 : ℕ) (dividend : List ℕ) (resNdigits : ℕ) : List ℕ :=
  longDiv nbase divisor1 0 ((dividend.drop 1).take resNdigits)

def divManyDigits (leftNdigits : ℕ) (divisor dividend : List ℕ) (resNdigits : ℕ) : List ℕ :=
  if divisor.getD 0 0 < halfNbase then
    let d := nbase / (divisor.getD 0 0 + 1)
    -- only the cells up to the last digit of the left operand can hold something
    let scaled := (scaleDigits nbase d (dividend.take (leftNdigits + 1)).reverse 0).1.reverse
    knuthLoop nbase (scaleDigits nbase d divisor.reverse 0).1.reverse resNdigits
      (scaled ++ dividend.drop (leftNdigits + 1))
  else knuthLoop nbase divisor resNdigits dividend

def divDigits (left right : List ℕ) (resNdigits : ℕ) : List ℕ :=
  let dividend := workDividend left right.length resNdigits
  if right.length = 1 then divOneDigit (right.getD 0 0) dividend resNdigits
  else divManyDigits left.length right dividend resNdigits

namespace Decimal

def firstDigit : ℤ → List ℕ → ℤ × ℕ
  | _, [] => (0, 0)
  | w, x :: xs => if x ≠ 0 then (w, x) else firstDigit (w - 1) xs

/-- `_decimal_get_div_scale`. -/
def getDivScale (left right : Decimal) : ℤ :=
  let first1 := firstDigit left.weight left.digits
  let first2 := firstDigit right.weight right.digits
  let qweight := first1.1 - first2.1
  let qweight := if first1.2 ≤ first2.2 then qweight - 1 else qweight
  let rscale := minSigDigits - qweight * decDigits
  let rscale := max rscale left.dscale
  let rscale := max rscale right.dscale
  let rscale := max rscale minDisplayScale
  min rscale maxDisplayScale

/-- How many digits of the quotient `_decimal_div` computes: one more when it rounds. -/
def divNdigits (resWeight rscale : ℤ) (isRound : Bool) : ℕ :=
  let n := max (resWeight + 1 + (rscale + decDigits - 1).tdiv decDigits) 1
  if isRound then n.toNat + 1 else n.toNat

def divStore (result : Decimal) (rscale : ℤ) (isRound : Bool) : Option (Except Rc Decimal) :=
  if isRound then
    match result.round rscale with
    | none => none
    | some (.ok, d) => some (.ok d.strip)
    | some (rc, _) => some (.error rc)
  else some (.ok (result.trunc rscale).strip)

/-- `_decimal_div`; the result object keeps its `typemod`. -/
def divRaw (typemod : ℤ) (left right : Decimal) (rscale : ℤ) (isRound : Bool) :
    Option (Except Rc Decimal) :=
  if right.digits = [] ∨ right.digits.getD 0 0 = 0 then some (.error .invalidArg)
  else if left.digits = [] then some (.ok { setZero with dscale := rscale })
  else
    let resWeight := left.weight - right.weight
    let resNdigits := divNdigits resWeight rscale isRound
    let result : Decimal := {
      typemod
      weight := resWeight
      sign := if left.sign = right.sign then .pos else .neg
      isOwn := true
      front := [.zero]
      digits := divDigits left.digits right.digits resNdigits }
    divStore result rscale isRound

/-- `decimal_div`, with a result object that has a `typemod`. -/
def div (typemod : ℤ) (left right : Decimal) : Option (Except Rc Decimal) :=
  if left.isSpecial || right.isSpecial then some (.ok setNan)
  else
    (divRaw typemod left right (getDivScale left right) true).map fun r =>
      r.bind fun d => if d.isOutOfBound then .error .invalidArg else .ok d

/-- `decimal_mod`; only the left operand can also be the result of the subtraction. -/
def mod (t : Target) (left right : Decimal) : Option (Except Rc Decimal) :=
  if left.isSpecial || right.isSpecial then some (.ok setNan)
  else
    match divRaw (-1) left right 0 false with
    | none => none
    | some (.error rc) => some (.error rc)
    | some (.ok tmp) =>
      match mulRaw right tmp right.dscale with
      | none => none
      | some (.error rc) => some (.error rc)
      | some (.ok tmp) => some (subRaw { isLeft := t.isLeft } left tmp)

end Decimal

/-! ## The digits of the quotient -/

section digits

variable {left right : List ℕ} {n : ℕ}

theorem workDividend_length (left : List ℕ) (m n : ℕ) :
    (workDividend left m n).length = max (n + m) left.length + 1 := by
  simp only [workDividend, length_cons, List.length_append, length_replicate]
  omega

theorem workDividend_lt (hl : ∀ x ∈ left, x < nbase) (m n : ℕ) :
    ∀ x ∈ workDividend left m n, x < nbase := by
  intro x hx
  simp only [workDividend, mem_cons, mem_append, mem_replicate] at hx
  rcases hx with rfl | hx | ⟨-, rfl⟩
  · decide
  · exact hl x hx
  · decide

theorem beVal_workDividend (left : List ℕ) (m n : ℕ) :
    beVal nbase (workDividend left m n)
      = beVal nbase left * nbase ^ (max (n + m) left.length - left.length) := by
  rw [workDividend, beVal_cons, beVal_append, beVal_replicate_zero, length_replicate]
  ring

structure QuotientDigits (left right : List ℕ) (n : ℕ) (ds : List ℕ) : Prop where
  written : Written nbase n ds
  value : beVal nbase ds = beVal nbase (workDividend left right.length n)
    / (nbase ^ ((workDividend left right.length n).length - (right.length + n))
      * beVal nbase right)

theorem workDividend_lt_mul (hl : ∀ x ∈ left, x < nbase) (hr : ∀ x ∈ right, x < nbase)
    (hlead : right.getD 0 0 ≠ 0) (n : ℕ) :
    beVal nbase (workDividend left right.length n) < beVal nbase right
      * nbase ^ ((workDividend left right.length n).length - right.length) := by
  have hright := (pow_le_beVal_iff (by decide) hr).mpr hlead
  have hpos : 0 < right.length := by
    by_contra h0
    simp [eq_nil_of_length_eq_zero (by omega : right.length = 0)] at hlead
  have hlt : beVal nbase left < nbase ^ left.length := beVal_lt (by decide) hl
  rw [beVal_workDividend, workDividend_length]
  calc beVal nbase left * nbase ^ (max (n + right.length) left.length - left.length)
      < nbase ^ left.length * nbase ^ (max (n + right.length) left.length - left.length) := by
        gcongr
    _ = nbase ^ (right.length - 1)
        * nbase ^ (max (n + right.length) left.length + 1 - right.length) := by
        rw [← pow_add, ← pow_add]
        congr 1
        omega
    _ ≤ _ := by gcongr

theorem divOneDigit_spec (hl : ∀ x ∈ left, x < nbase) {d : ℕ} (hd : d ≠ 0) (n : ℕ) :
    QuotientDigits left [d] n (divOneDigit d (workDividend left 1 n) n) := by
  have hlt := workDividend_lt hl 1 n
  have hlen := workDividend_length left 1 n
  have hzero : workDividend left 1 n = 0 :: (workDividend left 1 n).tail := rfl
  generalize hW : (workDividend left 1 n).tail = W at *
  have hWlen : W.length = max (n + 1) left.length := by rw [← hW, length_tail, hlen]; rfl
  have hWlt : ∀ x ∈ W, x < nbase := by
    rw [hzero] at hlt
    exact (forall_mem_cons.mp hlt).2
  have htake : (W.take n).length = n := by
    rw [length_take]
    omega
  rw [divOneDigit, hzero, drop_one, tail_cons]
  refine ⟨?_, ?_⟩
  · have hlt' : ∀ x ∈ W.take n, x < nbase := fun x hx => hWlt x (mem_of_mem_take hx)
    have hw := longDiv_written (Nat.pos_of_ne_zero hd) hlt'
    rwa [htake] at hw
  rw [beVal_longDiv (Nat.pos_of_ne_zero hd), zero_mul, zero_add,
    beVal_take (by decide) hWlt, Nat.div_div_eq_div_mul, beVal_singleton, length_singleton,
    hzero, beVal_cons, zero_mul, zero_add, length_cons,
    show W.length + 1 - (1 + n) = W.length - n by omega]

theorem scale_spec {ds : List ℕ} {d : ℕ} (hfit : beVal nbase ds * d < nbase ^ ds.length) :
    Written nbase ds.length (scaleDigits nbase d ds.reverse 0).1.reverse
      ∧ beVal nbase (scaleDigits nbase d ds.reverse 0).1.reverse = beVal nbase ds * d := by
  have hw := scaleDigits_written (b := nbase) (by decide) d ds.reverse 0
  have heq := ofDigits_scaleDigits (b := nbase) d ds.reverse 0
  rw [length_reverse] at hw heq
  rw [← beVal, add_zero] at heq
  refine ⟨hw.reverse, ?_⟩
  rw [beVal_reverse]
  have hcarry : (scaleDigits nbase d ds.reverse 0).2 = 0 := by
    by_contra hne
    have := Nat.le_mul_of_pos_left (nbase ^ ds.length) (Nat.pos_of_ne_zero hne)
    omega
  rw [← heq, hcarry, zero_mul, add_zero]

theorem scale_divisor (hr : ∀ x ∈ right, x < nbase) (hlead : right.getD 0 0 ≠ 0)
    (hpos : 0 < nbase / (right.getD 0 0 + 1)) :
    beVal nbase right * (nbase / (right.getD 0 0 + 1)) < nbase ^ right.length := by
  cases right with
  | nil => simp at hlead
  | cons v1 vs =>
    rw [getD_cons_zero] at hpos ⊢
    have hvs : beVal nbase vs < nbase ^ vs.length :=
      beVal_lt (by decide) (forall_mem_cons.mp hr).2
    rw [beVal_cons, length_cons]
    calc (v1 * nbase ^ vs.length + beVal nbase vs) * (nbase / (v1 + 1))
        < (v1 * nbase ^ vs.length + nbase ^ vs.length) * (nbase / (v1 + 1)) := by gcongr
      _ = nbase / (v1 + 1) * (v1 + 1) * nbase ^ vs.length := by ring
      _ ≤ nbase * nbase ^ vs.length := by gcongr; exact Nat.div_mul_le_self _ _
      _ = nbase ^ (vs.length + 1) := by rw [pow_succ']

theorem knuthLoop_scaled (hl : ∀ x ∈ left, x < nbase) (hr : ∀ x ∈ right, x < nbase)
    (htwo : 2 ≤ right.length) (hlead : right.getD 0 0 ≠ 0) (n : ℕ) {d : ℕ} (hd : 0 < d)
    (hle : d ≤ nbase) (hfit : beVal nbase right * d < nbase ^ right.length) {rs ls : List ℕ}
    (hrs : rs = (scaleDigits nbase d right.reverse 0).1.reverse)
    (hls : ls = (scaleDigits nbase d (0 :: left).reverse 0).1.reverse
      ++ List.replicate (max (n + right.length) left.length - left.length) 0) :
    QuotientDigits left right n (knuthLoop nbase rs n ls) := by
  have hleft : beVal nbase (0 :: left) * d < nbase ^ (0 :: left).length := by
    rw [beVal_cons, zero_mul, zero_add, length_cons, pow_succ]
    exact Nat.mul_lt_mul_of_lt_of_le (beVal_lt (by decide) hl) hle (by decide)
  obtain ⟨hrw, hrv⟩ := scale_spec hfit
  obtain ⟨hlw, hlv⟩ := scale_spec hleft
  rw [← hrs] at hrw hrv
  have hlen : ls.length = (workDividend left right.length n).length := by
    rw [hls, List.length_append, hlw.length, length_replicate, workDividend_length, length_cons]
    omega
  have hval : beVal nbase ls = beVal nbase (workDividend left right.length n) * d := by
    rw [hls, beVal_append, hlv, beVal_replicate_zero, length_replicate, beVal_workDividend,
      beVal_cons]
    ring
  have hlt : ∀ x ∈ ls, x < nbase := by
    intro x hx
    rw [hls] at hx
    rcases mem_append.mp hx with hx | hx
    · exact hlw.lt x hx
    · rw [eq_of_mem_replicate hx]
      decide
  have hlead' : rs.getD 0 0 ≠ 0 := by
    rw [← pow_le_beVal_iff (by decide) hrw.lt, hrw.length, hrv]
    exact ((pow_le_beVal_iff (by decide) hr).mpr hlead).trans (Nat.le_mul_of_pos_right _ hd)
  have hbound : beVal nbase ls < beVal nbase rs * nbase ^ (ls.length - rs.length) := by
    rw [hval, hrv, hlen, hrw.length, Nat.mul_right_comm]
    exact Nat.mul_lt_mul_of_pos_right (workDividend_lt_mul hl hr hlead n) hd
  obtain ⟨hw, hq⟩ := knuthLoop_spec (n := n) (by rw [hrw.length]; exact htwo) hlead' hrw.lt hlt
    (by rw [hrw.length, hlen, workDividend_length]; omega) hbound
  refine ⟨hw, ?_⟩
  rw [hq, hval, hrv, hlen, hrw.length, ← mul_assoc, Nat.mul_div_mul_right _ _ hd]

theorem divManyDigits_spec (hl : ∀ x ∈ left, x < nbase) (hr : ∀ x ∈ right, x < nbase)
    (htwo : 2 ≤ right.length) (hlead : right.getD 0 0 ≠ 0) (n : ℕ) :
    QuotientDigits left right n
      (divManyDigits left.length right (workDividend left right.length n) n) := by
  rw [divManyDigits]
  split
  · rename_i hsmall
    have hd : 0 < nbase / (right.getD 0 0 + 1) :=
      Nat.div_pos (hsmall.trans (by decide)) (Nat.succ_pos _)
    refine knuthLoop_scaled hl hr htwo hlead n hd (Nat.div_le_self _ _) (scale_divisor hr hlead hd)
      rfl ?_
    dsimp only [workDividend]
    rw [take_succ_cons, take_left, drop_succ_cons, drop_left]
  · obtain ⟨hw, hval⟩ := knuthLoop_spec (n := n) htwo hlead hr (workDividend_lt hl right.length n)
      (by rw [workDividend_length]; omega) (workDividend_lt_mul hl hr hlead n)
    exact ⟨hw, hval⟩

/-- **Both paths give the digits of the quotient.** -/
theorem divDigits_spec (hl : ∀ x ∈ left, x < nbase) (hr : ∀ x ∈ right, x < nbase)
    (hlead : right.getD 0 0 ≠ 0) (n : ℕ) : QuotientDigits left right n (divDigits left right n) := by
  rw [divDigits]
  split
  · rename_i hone
    obtain ⟨d, rfl⟩ := length_eq_one_iff.mp hone
    exact divOneDigit_spec hl hlead n
  rename_i hone
  refine divManyDigits_spec hl hr ?_ hlead n
  by_contra hlt
  have hzero : right.length = 0 := by omega
  simp [eq_nil_of_length_eq_zero hzero] at hlead

theorem QuotientDigits.eq_floor {ds : List ℕ} (h : QuotientDigits left right n ds) :
    beVal nbase ds = ⌊(beVal nbase left : ℚ) / beVal nbase right
      * (nbase : ℚ) ^ ((n : ℤ) + right.length - 1 - left.length)⌋₊ := by
  have hb : (nbase : ℚ) ≠ 0 := by norm_num
  rw [h.value, beVal_workDividend, workDividend_length, ← Nat.floor_div_eq_div (K := ℚ)]
  congr 1
  rw [Nat.cast_mul, Nat.cast_mul, Nat.cast_pow, Nat.cast_pow,
    mul_comm ((nbase : ℚ) ^ _) (beVal nbase right : ℚ), mul_div_mul_comm, ← zpow_natCast,
    ← zpow_natCast, ← zpow_sub₀ hb]
  congr 2
  omega

end digits

namespace Decimal

variable {a b d r : Decimal} {s : ℤ}

theorem divDigits_radix (ha : a.DigitsOk) (hb : b.DigitsOk) (hlead : b.digits.getD 0 0 ≠ 0) (n : ℕ) :
    radix nbase (divDigits a.digits b.digits n) (a.weight - b.weight)
      = ⌊a.mag / b.mag * (nbase : ℚ) ^ ((n : ℤ) - (a.weight - b.weight) - 1)⌋₊
        / (nbase : ℚ) ^ ((n : ℤ) - (a.weight - b.weight) - 1) := by
  have hq := divDigits_spec ha hb hlead n
  have hne : (nbase : ℚ) ≠ 0 := by norm_num
  have harg : a.mag / b.mag * (nbase : ℚ) ^ ((n : ℤ) - (a.weight - b.weight) - 1)
      = (beVal nbase a.digits : ℚ) / beVal nbase b.digits
        * (nbase : ℚ) ^ ((n : ℤ) + b.digits.length - 1 - a.digits.length) := by
    rw [mag_eq, mag_eq, mul_div_mul_comm, ← zpow_sub₀ hne, mul_assoc, ← zpow_add₀ hne]
    congr 2
    ring
  rw [radix_eq (by decide), hq.written.length, hq.eq_floor, harg]
  generalize ⌊(_ : ℚ)⌋₊ = m
  rw [div_eq_mul_inv, ← zpow_neg]
  congr 2
  ring

theorem le_divNdigits (w s : ℤ) (isRound : Bool) :
    s + (if isRound then 4 else 0) ≤ 4 * ((divNdigits w s isRound : ℤ) - w - 1) := by
  have hdiv : s ≤ 4 * (s + decDigits - 1).tdiv decDigits := by
    rw [Int.tdiv_eq_ediv, show ((decDigits : ℕ) : ℤ) = 4 from rfl]
    split
    · omega
    · rw [show Int.sign 4 = 1 from rfl]
      omega
  rw [divNdigits]
  cases isRound <;> simp only [Bool.false_eq_true, if_false, if_true] <;> omega

theorem div_grid {w s : ℤ} {n : ℕ} (h : s ≤ 4 * ((n : ℤ) - w - 1)) :
    ∃ u : ℕ, (nbase : ℚ) ^ ((n : ℤ) - w - 1) = u * 10 ^ s ∧ 0 < u
      ∧ (s < 4 * ((n : ℤ) - w - 1) → 2 ∣ u) := by
  obtain ⟨k, hk⟩ : ∃ k : ℕ, 4 * ((n : ℤ) - w - 1) - s = k := Int.eq_ofNat_of_zero_le (by omega)
  refine ⟨10 ^ k, ?_, by positivity, fun hlt => dvd_pow (by decide) (by omega)⟩
  rw [nbase_zpow, Nat.cast_pow, Nat.cast_ofNat, ← zpow_natCast, ← zpow_add₀ (by norm_num)]
  congr 1
  omega

def divTo (isRound : Bool) (s : ℤ) (x : ℚ) : ℚ := if isRound then roundTo s x else truncTo s x

theorem divStore_spec (hown : d.isOwn = true) (hfront : d.front.head? = some .zero)
    (hok : d.DigitsOk) (hfin : d.Finite) (s : ℤ) (isRound : Bool) :
    ∃ r, divStore d s isRound = some (.ok r) ∧ Stored s (divTo isRound s d.mag) d.sign r
      ∧ r.typemod = d.typemod := by
  rw [divStore, divTo]
  cases isRound with
  | true =>
    obtain ⟨r, hr, hround⟩ := round_defined hown hok hfront s
    rw [if_pos rfl, if_pos rfl, hr]
    exact ⟨r.strip, rfl, strip_stored hfin hround.mag hround.dscale hround.digits hround.isOwn
      hround.sign, by rw [strip_typemod, hround.typemod]⟩
  | false =>
    have htrunc := trunc_spec hown hok s
    rw [if_neg (by decide), if_neg (by decide)]
    exact ⟨_, rfl, strip_stored hfin htrunc.mag htrunc.dscale htrunc.digits htrunc.isOwn
      htrunc.sign, by rw [strip_typemod, htrunc.typemod]⟩

theorem divTo_floor {x : ℚ} (hx : 0 ≤ x) (w s : ℤ) (isRound : Bool) :
    divTo isRound s (⌊x * (nbase : ℚ) ^ ((divNdigits w s isRound : ℤ) - w - 1)⌋₊
      / (nbase : ℚ) ^ ((divNdigits w s isRound : ℤ) - w - 1)) = divTo isRound s x := by
  have hle := le_divNdigits w s isRound
  obtain ⟨u, hgrid, hu, heven⟩ := div_grid (s := s) (w := w) (n := divNdigits w s isRound)
    (by split at hle <;> omega)
  have hg : (0 : ℚ) < (nbase : ℚ) ^ ((divNdigits w s isRound : ℤ) - w - 1) := by positivity
  rw [divTo, divTo]
  cases isRound with
  | true =>
    rw [if_pos rfl] at hle
    rw [if_pos rfl, if_pos rfl]
    exact roundTo_floor hg hu (heven (by omega)) hgrid hx
  | false => exact truncTo_floor hg hgrid

theorem getD_digits_ne_zero (hb : b.Normal) (hne : b.digits ≠ []) : b.digits.getD 0 0 ≠ 0 := by
  obtain ⟨x, ds, hd⟩ := exists_cons_of_ne_nil hne
  rw [hd, getD_cons_zero]
  rintro rfl
  exact hb.leading (by rw [hd, head?_cons])

/-- **`_decimal_div` rounds or cuts off the quotient** when the divisor starts with a nonzero digit.
-/
theorem divRaw_of_lead (ha : a.DigitsOk) (hb : b.DigitsOk) (hne : b.digits ≠ [])
    (hlead : b.digits.getD 0 0 ≠ 0) (typemod s : ℤ) (isRound : Bool) :
    ∃ r, divRaw typemod a b s isRound = some (.ok r)
      ∧ Stored s (divTo isRound s (a.mag / b.mag)) (mulSign a b) r
      ∧ r.typemod = if a.digits = [] then -1 else typemod := by
  rw [divRaw, if_neg (not_or.mpr ⟨hne, hlead⟩)]
  split
  · rename_i hnil
    have hzero : divTo isRound s (a.mag / b.mag) = 0 := by
      rw [mag, hnil, radix_nil, zero_div, divTo]
      split
      · exact roundTo_of_lt (by norm_num)
      · exact truncTo_of_lt (by norm_num)
    refine ⟨_, rfl, ?_, rfl⟩
    rw [hzero]
    exact ⟨rfl, by rw [signed_zero]; rfl, zero_normal s, rfl, fun _ => rfl⟩
  · have hq := divDigits_spec ha hb hlead (divNdigits (a.weight - b.weight) s isRound)
    have hradix := divDigits_radix ha hb hlead (divNdigits (a.weight - b.weight) s isRound)
    dsimp only
    generalize hd : ({
      typemod
      weight := a.weight - b.weight
      sign := if a.sign = b.sign then .pos else .neg
      isOwn := true
      front := [.zero]
      digits := divDigits a.digits b.digits (divNdigits (a.weight - b.weight) s isRound) } : Decimal)
      = d
    have hsign : d.sign = mulSign a b := by rw [← hd]; rfl
    have htypemod : d.typemod = typemod := by rw [← hd]
    have hmag : divTo isRound s d.mag = divTo isRound s (a.mag / b.mag) := by
      rw [← divTo_floor (div_nonneg mag_nonneg mag_nonneg) (a.weight - b.weight) s isRound, ← hradix,
        ← hd]
      rfl
    rw [← hmag, ← hsign, ← htypemod]
    refine divStore_spec ?_ ?_ ?_ ?_ s isRound
    · rw [← hd]
    · rw [← hd]
      rfl
    · rw [← hd]
      exact hq.written.lt
    · rw [Finite, hsign]
      exact mulSign_eq a b

theorem divRaw_spec (ha : a.DigitsOk) (hb : b.Normal) (hne : b.digits ≠ []) (typemod s : ℤ)
    (isRound : Bool) : ∃ r, divRaw typemod a b s isRound = some (.ok r)
      ∧ Stored s (divTo isRound s (a.mag / b.mag)) (mulSign a b) r := by
  obtain ⟨r, hr, hquot, -⟩ :=
    divRaw_of_lead ha hb.digits hne (getD_digits_ne_zero hb hne) typemod s isRound
  exact ⟨r, hr, hquot⟩

/-- The quotient, rounded half away from zero at the scale of `_decimal_get_div_scale`. -/
structure RoundedQuotient (a b r : Decimal) : Prop where
  value : r.value = roundHalfAway (getDivScale a b) (a.value / b.value)
  dscale : r.dscale = getDivScale a b
  normal : r.Normal

/-- `decimal_div` has a result, and one that succeeds is the rounded quotient. -/
def DivOk (typemod : ℤ) (a b : Decimal) : Prop :=
  div typemod a b ≠ none ∧ ∀ r, div typemod a b = some (.ok r) → RoundedQuotient a b r

theorem abs_value_div : |a.value / b.value| = a.mag / b.mag := by
  rw [abs_div, abs_value, abs_value]

theorem signed_mulSign (ha : a.Finite) (hb : b.Finite) {f : ℚ → ℚ} (hf : f 0 = 0) :
    signed (mulSign a b) (f (a.mag / b.mag))
      = SignType.sign (a.value / b.value) * f |a.value / b.value| := by
  rw [abs_value_div]
  have hpa : 0 ≤ a.mag := mag_nonneg
  have hpb : 0 ≤ b.mag := mag_nonneg
  rcases (div_nonneg hpa hpb).eq_or_lt with h0 | hpos
  · rw [← h0, hf, signed_zero, mul_zero]
  · rcases ha with ha | ha <;> rcases hb with hb | hb <;>
      simp [signed, mulSign, value, ha, hb, div_neg, neg_div, Left.sign_neg, sign_pos hpos]

theorem div_ok (ha : a.Normal) (hb : b.Normal) (hne : b.digits ≠ []) (typemod : ℤ) :
    DivOk typemod a b := by
  obtain ⟨r, hr, hquot⟩ := divRaw_spec ha.digits hb hne typemod (getDivScale a b) true
  have hdiv : div typemod a b = some (if r.isOutOfBound then .error .invalidArg else .ok r) := by
    rw [div, isSpecial_of_finite ha.finite, isSpecial_of_finite hb.finite, if_neg (by decide), hr]
    rfl
  rw [DivOk, hdiv]
  refine ⟨by simp, fun r' hr' => ?_⟩
  obtain rfl : r = r' := by
    cases hbound : r.isOutOfBound <;> simp [hbound] at hr'
    exact hr'
  refine ⟨?_, hquot.dscale, hquot.normal⟩
  rw [hquot.value, divTo, if_pos rfl, signed_mulSign ha.finite hb.finite (roundTo_zero _),
    roundHalfAway]

/-- A divisor of one digit gives the same result on the path of the longer ones. -/
def PathsAgree (a b : Decimal) : Prop :=
  b.digits.length = 1 → ∀ typemod rscale isRound,
    divRaw typemod a { b with digits := b.digits ++ [0] } rscale isRound
      = divRaw typemod a b rscale isRound

theorem divDigits_paths {left : List ℕ} {x : ℕ} (hl : ∀ y ∈ left, y < nbase) (hx : x < nbase)
    (hx0 : x ≠ 0) (n : ℕ) : divDigits left [x, 0] n = divDigits left [x] n := by
  have h1 := divDigits_spec hl (by simpa using hx : ∀ y ∈ [x], y < nbase) hx0 n
  have h2 := divDigits_spec hl (by simpa using hx : ∀ y ∈ [x, 0], y < nbase) hx0 n
  refine beVal_inj (b := nbase) (by decide) (h2.written.length.trans h1.written.length.symm)
    h2.written.lt h1.written.lt ?_
  rw [h2.eq_floor, h1.eq_floor]
  have hb : (nbase : ℚ) ≠ 0 := by norm_num
  have hexp : (n : ℤ) + ([x, 0] : List ℕ).length - 1 - left.length
      = (n : ℤ) + ([x] : List ℕ).length - 1 - left.length + 1 := by
    simp only [length_cons, length_nil]
    push_cast
    ring
  rw [hexp, zpow_add_one₀ hb, beVal_cons, beVal_singleton, beVal_singleton, length_singleton,
    pow_one, add_zero, Nat.cast_mul, mul_left_comm, div_mul_eq_mul_div,
    mul_div_mul_right _ _ hb, mul_comm]

theorem pathsAgree (ha : a.DigitsOk) (hb : b.Normal) : PathsAgree a b := by
  intro hone typemod s isRound
  obtain ⟨x, hx⟩ := length_eq_one_iff.mp hone
  have hx0 : x ≠ 0 := by
    have := getD_digits_ne_zero hb (by simp [hx])
    rwa [hx] at this
  have hlt : x < nbase := hb.digits x (by simp [hx])
  rw [divRaw, divRaw, hx]
  simp only [cons_append, nil_append, divDigits_paths ha hlt hx0]
  simp

/-! ## The remainder -/

/-- `m` is the remainder of the quotient that is cut off towards zero. -/
structure Remainder (a b m : Decimal) : Prop where
  eq : a.value = truncate (a.value / b.value) * b.value + m.value
  lt : |m.value| < |b.value|
  sign : m.value = 0 ∨ SignType.sign m.value = SignType.sign a.value

/-- `decimal_mod` has a result, and one that succeeds is the remainder. -/
def ModOk (t : Target) (a b : Decimal) : Prop :=
  mod t a b ≠ none ∧ ∀ m, mod t a b = some (.ok m) → Remainder a b m

/-- `_decimal_mul` of divisor and cut quotient gives the product: no `int` overflows, and the digits
left out are lost in the rounding. -/
def ModSafe (a b : Decimal) : Prop :=
  ∃ q : Decimal, q.Normal ∧ q.mag = ⌊a.mag / b.mag⌋₊ ∧ MulDefined b q b.dscale
    ∧ Survives b.dscale (b.mag * q.mag) (usedProduct b q b.dscale)

theorem Normal.digits_eq_of_le (ha : a.DigitsOk) (hb : b.Normal) (hw : a.weight = b.weight)
    (hmag : a.mag = b.mag) (hle : a.digits.length ≤ b.digits.length) : a.digits = b.digits := by
  obtain ⟨k, hk⟩ := Nat.exists_eq_add_of_le hle
  have hlen : (a.digits ++ List.replicate k 0).length = b.digits.length := by
    rw [List.length_append, length_replicate, hk]
  have hpad : radix nbase (a.digits ++ List.replicate k 0) b.weight
      = radix nbase b.digits b.weight := by
    rw [radix_append, radix_replicate_zero, add_zero, ← hw]
    rw [mag, mag, ← hw] at hmag
    exact hmag
  rw [radix_eq (by decide), radix_eq (by decide), hlen, mul_left_inj' (by positivity)] at hpad
  have hlt : ∀ x ∈ a.digits ++ List.replicate k 0, x < nbase := by
    intro x hx
    rcases mem_append.mp hx with hx | hx
    · exact ha x hx
    · rw [eq_of_mem_replicate hx]
      decide
  have heq := beVal_inj (by decide) hlen hlt hb.digits (by exact_mod_cast hpad)
  cases k with
  | zero => simpa using heq
  | succ k =>
    refine absurd ?_ hb.trailing
    rw [← heq, replicate_succ', ← append_assoc, getLast?_concat]

/-- A number has one normal form. -/
theorem Normal.unique (ha : a.Normal) (hb : b.Normal) (hna : a.digits ≠ []) (hnb : b.digits ≠ [])
    (hmag : a.mag = b.mag) : a.weight = b.weight ∧ a.digits = b.digits := by
  have hbase : (1 : ℚ) < nbase := by norm_num
  have h1 := (zpow_lt_zpow_iff_right₀ hbase).mp ((ha.le_mag hna).trans_lt (hmag ▸ mag_lt hb.digits))
  have h2 := (zpow_lt_zpow_iff_right₀ hbase).mp ((hb.le_mag hnb).trans_lt (hmag ▸ mag_lt ha.digits))
  have hw : a.weight = b.weight := by omega
  refine ⟨hw, ?_⟩
  rcases le_total a.digits.length b.digits.length with hle | hle
  · exact digits_eq_of_le ha.digits hb hw hmag hle
  · exact (digits_eq_of_le hb.digits ha hw.symm hmag.symm hle).symm

theorem product_congr {q q' : Decimal} (hq : q.Normal) (hq' : q'.Normal) (hmag : q.mag = q'.mag)
    (s : ℤ) : (MulDefined b q s ↔ MulDefined b q' s) ∧ usedProduct b q s = usedProduct b q' s := by
  have hnil : q.digits = [] ↔ q'.digits = [] := by
    rw [← hq.mag_eq_zero_iff, hmag, hq'.mag_eq_zero_iff]
  by_cases hzero : q.digits = []
  · simp [MulDefined, usedProduct, hzero, hnil.mp hzero]
  obtain ⟨hw, hd⟩ := hq.unique hq' hzero (fun h => hzero (hnil.mpr h)) hmag
  obtain ⟨⟩ := q
  obtain ⟨⟩ := q'
  dsimp only at hw hd
  subst hw hd
  exact ⟨Iff.rfl, rfl⟩

theorem truncTo_zero_eq (x : ℚ) : truncTo 0 x = ⌊x⌋₊ := by
  rw [truncTo, zpow_zero, mul_one, div_one]

theorem signed_truncTo (ha : a.Finite) (hb : b.Finite) :
    signed (mulSign a b) (truncTo 0 (a.mag / b.mag)) = truncate (a.value / b.value) := by
  have h0 : truncTo 0 0 = 0 := truncTo_of_lt (by norm_num)
  rw [signed_mulSign ha hb h0, truncTo_zero_eq, truncate]
  rcases lt_trichotomy (a.value / b.value) 0 with hneg | hzero | hpos
  · have hceil : ⌈a.value / b.value⌉ = -⌊-(a.value / b.value)⌋ := by rw [Int.floor_neg, neg_neg]
    have hfloor : (⌊-(a.value / b.value)⌋₊ : ℚ) = ⌊-(a.value / b.value)⌋ :=
      natCast_floor_eq_intCast_floor (by linarith)
    rw [sign_neg hneg, abs_of_neg hneg, if_neg (not_le.mpr hneg), hceil, hfloor]
    simp
  · rw [hzero]
    simp
  · rw [sign_pos hpos, abs_of_pos hpos, if_pos hpos.le, ← natCast_floor_eq_intCast_floor hpos.le]
    simp

theorem remainder_iff (hb : b.value ≠ 0) {p m : Decimal} (hm : m.value = a.value - p.value) :
    Remainder a b m ↔ p.value = truncate (a.value / b.value) * b.value := by
  obtain ⟨hlt, hsign⟩ := truncate_remainder (x := a.value) hb
  constructor
  · intro h
    have := h.eq
    rw [hm] at this
    linarith
  · intro hp
    rw [hp] at hm
    refine ⟨by rw [hm]; ring, by rwa [hm], by rwa [hm]⟩

theorem subRaw_value (ha : a.Finite) (hda : a.DigitsOk) (hb : b.Finite) (hdb : b.DigitsOk)
    (t : Target) : ∃ m, subRaw t a b = .ok m ∧ m.value = a.value - b.value := by
  obtain ⟨m, hm, hsum⟩ := combine_spec hda hdb ha (flip_finite b.sign) t
  refine ⟨m, by rw [subRaw_eq ha hb, hm], ?_⟩
  rw [hsum.value, signed_flip hb, ← sub_eq_add_neg, value_eq_signed, value_eq_signed]

theorem mod_ok_iff (ha : a.Normal) (hb : b.Normal) (hne : b.digits ≠ []) (t : Target) :
    ModOk t a b ↔ ModSafe a b := by
  obtain ⟨q, hq, hquot⟩ := divRaw_spec ha.digits hb hne (-1) 0 false
  have hb0 : b.value ≠ 0 := by
    rw [← abs_ne_zero, abs_value]
    exact (hb.mag_pos_of_ne_nil hne).ne'
  have hqv : q.value = truncate (a.value / b.value) := by
    rw [hquot.value, ← signed_truncTo ha.finite hb.finite]
    rfl
  have hqm : q.mag = ⌊a.mag / b.mag⌋₊ := by
    rw [hquot.mag, ← truncTo_zero_eq]
    rfl
  have hsafe : ModSafe a b ↔ MulDefined b q b.dscale
      ∧ Survives b.dscale (b.mag * q.mag) (usedProduct b q b.dscale) := by
    constructor
    · rintro ⟨q', hq', hmag, hdef, hexact⟩
      have hsame := hmag.trans hqm.symm
      obtain ⟨hiff, hused⟩ := product_congr (b := b) hq' hquot.normal hsame b.dscale
      exact ⟨hiff.mp hdef, by rwa [← hused, ← hsame]⟩
    · intro h
      exact ⟨q, hquot.normal, hqm, h⟩
  have hmod : mod t a b = match mulRaw b q b.dscale with
      | none => none
      | some (.error rc) => some (.error rc)
      | some (.ok p) => some (subRaw { isLeft := t.isLeft } a p) := by
    rw [mod, isSpecial_of_finite ha.finite, isSpecial_of_finite hb.finite, if_neg (by decide), hq]
  rw [hsafe, ModOk, hmod]
  rcases mulRaw_cases hb.digits hquot.normal.digits b.dscale with
    ⟨hdef, p, hp, hprod⟩ | ⟨hdef, hnone⟩
  · obtain ⟨m, hm, hval⟩ := subRaw_value ha.finite ha.digits hprod.normal.finite
      hprod.normal.digits { isLeft := t.isLeft }
    rw [hp, and_iff_right hdef, ← hprod.value_eq_iff hb.finite hquot.normal.finite, hqv, mul_comm]
    dsimp only
    rw [hm, ← remainder_iff hb0 hval]
    simp
  · rw [hnone]
    exact iff_of_false (fun h => h.1 rfl) fun h => hdef h.1

/-- `decimal_div` rounds correctly, both of its paths agree, and `decimal_mod` is the remainder. -/
structure DivModOk (t : Target) (typemod : ℤ) (a b : Decimal) : Prop where
  div : DivOk typemod a b
  paths : PathsAgree a b
  mod : ModOk t a b

/-- **Division is always correctly rounded, and the remainder is right if and only if the product of
divisor and quotient is exact.** -/
theorem div_mod_iff (ha : a.Normal) (hb : b.Normal) (hne : b.value ≠ 0) (t : Target)
    (typemod : ℤ) : DivModOk t typemod a b ↔ ModSafe a b := by
  have hnil : b.digits ≠ [] := fun h => hne (value_eq_zero_of_nil h)
  constructor
  · intro h
    exact (mod_ok_iff ha hb hnil t).mp h.mod
  · intro h
    exact ⟨div_ok ha hb hnil typemod, pathsAgree ha.digits hb, (mod_ok_iff ha hb hnil t).mpr h⟩

/-- `-7.5`. -/
def minusSevenHalf : Decimal := {
  sign := .neg
  dscale := 1
  isOwn := true
  front := [.zero]
  digits := [7, 5000] }

theorem minusSevenHalf_normal : minusSevenHalf.Normal :=
  ⟨.inr rfl, by simp [DigitsOk, minusSevenHalf, nbase], by decide, by decide, by decide⟩

def cutQuotient : Decimal := { isOwn := true, front := [.zero], digits := [1333] }

/-- The quotient of 10000.5 by -7.5 is cut off to -1333. -/
theorem div_mod_iff_decimals : DivModOk {} (-1) tenThousandHalf minusSevenHalf := by
  have hn : mulNdigits minusSevenHalf.digits.length cutQuotient.digits.length
      (mulMaxdigits minusSevenHalf cutQuotient minusSevenHalf.dscale) = some (4, 2, 1) := by decide
  have hq : cutQuotient.Normal :=
    ⟨.inl rfl, by simp [DigitsOk, cutQuotient, nbase], by decide, by decide, by decide⟩
  have hne : minusSevenHalf.value ≠ 0 := by norm_num [minusSevenHalf, value, mag, radix]
  refine (div_mod_iff tenThousandHalf_normal minusSevenHalf_normal hne {} (-1)).mpr
    ⟨cutQuotient, hq, ?_, .inr (.inr ⟨by decide, ?_⟩), ⟨99975, ?_⟩, ?_⟩
  · norm_num [tenThousandHalf, minusSevenHalf, cutQuotient, mag, radix]
  · intro n m1 m2 h
    cases hn.symm.trans h
    exact ⟨by rw [MulHeadroom]; decide, by decide⟩
  · norm_num [minusSevenHalf, cutQuotient, mag, radix]
  · have hused : usedProduct minusSevenHalf cutQuotient minusSevenHalf.dscale
        = minusSevenHalf.mag * cutQuotient.mag :=
      usedProduct_of_some (by decide) (by decide) hn
    rw [hused]
    norm_num

def fiftyThousand : Decimal := { weight := 1, isOwn := true, front := [.zero], digits := [5] }

/-- `10000`, rounded to the scale `-4`. -/
def tenThousand : Decimal := { fiftyThousand with dscale := -4, digits := [1] }

/-- The integer before `4790 9999 … 9999 0000 … 0000` of 44 digits. -/
def longDividend : Decimal := {
  weight := 43
  isOwn := true
  front := [.zero]
  digits := 4790 :: List.replicate 20 9999 ++ 9998 :: List.replicate 22 9999 }

theorem fiftyThousand_normal : fiftyThousand.Normal :=
  ⟨.inl rfl, by simp [DigitsOk, fiftyThousand, nbase], by decide, by decide, by decide⟩

theorem tenThousand_normal : tenThousand.Normal :=
  ⟨.inl rfl, by simp [DigitsOk, tenThousand], by decide, by decide, by decide⟩

/-- 50000 mod 10000 is 50000 when the divisor has the scale `-4`; with 44 and 22 digits an
accumulator overflows. -/
theorem remainder_wrong :
    (fiftyThousand.Normal ∧ tenThousand.Normal ∧ tenThousand.value = 10000
        ∧ (∃ m, mod {} fiftyThousand tenThousand = some (.ok m) ∧ m.value = 50000)
        ∧ ¬ DivModOk {} (-1) fiftyThousand tenThousand)
      ∧ longDividend.Normal ∧ leftFactor.Normal ∧ mod {} longDividend leftFactor = none
        ∧ ¬ DivModOk {} (-1) longDividend leftFactor := by
  have hten : tenThousand.value = 10000 := by
    rw [value, if_neg (by decide)]
    norm_num [tenThousand, fiftyThousand, mag, radix]
  have hmod : ∃ m, mod {} fiftyThousand tenThousand = some (.ok m) ∧ m.value = 50000 :=
    ⟨{ fiftyThousand with front := [.zero] }, by rfl, by
      rw [value, if_neg (by decide)]
      norm_num [fiftyThousand, mag, radix]⟩
  have hnone : mod {} longDividend leftFactor = none := by
    rw [← Option.isNone_iff_eq_none]
    decide +kernel
  refine ⟨⟨fiftyThousand_normal, tenThousand_normal, hten, hmod, fun h => ?_⟩,
    ⟨.inl rfl, by simp [DigitsOk, longDividend, nbase], by decide, by decide, by decide⟩,
    ⟨.inl rfl, by simp [DigitsOk, leftFactor, nbase], by decide, by decide, by decide⟩,
    hnone, fun h => h.mod.1 hnone⟩
  obtain ⟨m, hm, hvalue⟩ := hmod
  have hlt := (h.mod.2 m hm).lt
  rw [hvalue, hten] at hlt
  norm_num at hlt

end Decimal

end Novachains.Bson
