import Novachains.Bson.AddSub
import Novachains.Bson.Round
import Novachains.Lib.DeferredCarry

/-!
# Multiplication

`_decimal_mul` adds the rows of the product into an array of `int`s and propagates the carries only
when `maxdig`, a bound on the accumulators in units of `NBASE - 1`, passes `INT_MAX / (NBASE - 1)`.
That leaves no room for the carry into an accumulator: with long operands the sum passes `INT_MAX`.
The other numbers, such as the scale of the product and four times that, are `int`s as well; an
`int` that overflows leaves the call without a result.

The model of the accumulators has the last column first.
-/

namespace Novachains.Bson

open Lib List

abbrev intMax : ℕ := 2147483647

abbrev mulGuardDigits : ℕ := 2

/-- `maxdig` may go up to here before the carries are propagated. -/
abbrev maxdigLimit : ℕ := intMax / (nbase - 1)

/-- Propagate the carries in `dig`. -/
def normalize (dig : List ℕ) : Option (Except Rc (List ℕ)) :=
  (carryCells nbase intMax dig 0).map fun r => if r.2 ≠ 0 then .error .invalidArg else .ok r.1

/-- The loop over the digits of the left operand, the last first; `ri` counts the columns from
the last one. -/
def mulRows (right : List ℕ) : List ℕ → ℕ → ℕ → List ℕ → Option (Except Rc (List ℕ))
  | [], _, _, dig => some (.ok dig)
  | leftDigit :: ls, ri, maxdig, dig =>
    if leftDigit = 0 then mulRows right ls (ri + 1) maxdig dig
    else if maxdigLimit < maxdig + leftDigit then
      match normalize dig with
      | some (.ok dig) =>
        match addRow intMax leftDigit right (dig.drop ri) with
        | some row => mulRows right ls (ri + 1) (1 + leftDigit) (dig.take ri ++ row)
        | none => none
      | r => r
    else
      match addRow intMax leftDigit right (dig.drop ri) with
      | some row => mulRows right ls (ri + 1) (maxdig + leftDigit) (dig.take ri ++ row)
      | none => none

def lastPass : Option (Except Rc (List ℕ)) → Option (Except Rc (List ℕ))
  | some (.ok dig) => normalize dig
  | r => r

def mulDigits (left right : List ℕ) : Option (Except Rc (List ℕ)) :=
  lastPass (mulRows right left 0 0 (List.replicate (left.length + right.length + 1) 0))

/-- How many digits of the product are computed, none if fewer than three are wanted, and from how
many of each operand. -/
def mulNdigits (leftNdigits rightNdigits maxdigits : ℤ) : Option (ℤ × ℤ × ℤ) :=
  let resNdigits := leftNdigits + rightNdigits + 1
  if maxdigits < resNdigits then
    if maxdigits < 3 then none
    else
      let maxdigits := if maxdigits % 2 = 0 then maxdigits + 1 else maxdigits
      if rightNdigits < leftNdigits then
        let left := leftNdigits - (resNdigits - maxdigits)
        if left < rightNdigits then
          some (maxdigits, (left + rightNdigits).tdiv 2, (left + rightNdigits).tdiv 2)
        else some (maxdigits, left, rightNdigits)
      else
        let right := rightNdigits - (resNdigits - maxdigits)
        if right < leftNdigits then
          some (maxdigits, (leftNdigits + right).tdiv 2, (leftNdigits + right).tdiv 2)
        else some (maxdigits, leftNdigits, right)
  else some (resNdigits, leftNdigits, rightNdigits)

namespace Decimal

/-- `maxdigits` of `_decimal_mul`. -/
def mulMaxdigits (left right : Decimal) (rscale : ℤ) : ℤ :=
  left.weight + right.weight + 2 + 1 + rscale * decDigits + mulGuardDigits

/-- The `int`s on the way to the weight of the result and to `maxdigits` stay in their range. -/
def MulInRange (left right : Decimal) (rscale : ℤ) : Prop :=
  let weight := left.weight + right.weight
  ∀ z ∈ [weight, weight + 2, weight + 2 + 1, rscale * decDigits,
    weight + 2 + 1 + rscale * decDigits, mulMaxdigits left right rscale], IsInt z

instance (left right : Decimal) (rscale : ℤ) : Decidable (MulInRange left right rscale) :=
  inferInstanceAs (Decidable (∀ _ ∈ _, _))

/-- The end of `_decimal_mul`, from the last propagation on. -/
def mulStore (left right : Decimal) (rscale : ℤ) (dig : List ℕ) : Option (Except Rc Decimal) :=
  let result : Decimal := {
    weight := left.weight + right.weight + 2
    sign := if left.sign = right.sign then .pos else .neg
    isOwn := true
    front := [.zero]
    digits := dig.reverse }
  match result.roundCall rscale with
  | none => none
  | some (.ok, d) => some (.ok d.strip)
  | some (rc, _) => some (.error rc)

/-- `_decimal_mul`. -/
def mulRaw (left right : Decimal) (rscale : ℤ) : Option (Except Rc Decimal) :=
  if left.digits = [] ∨ right.digits = [] then some (.ok { setZero with dscale := rscale })
  else if ¬ MulInRange left right rscale then none
  else
    match mulNdigits left.digits.length right.digits.length (mulMaxdigits left right rscale) with
    | none => some (.ok { setZero with dscale := rscale })
    | some (resNdigits, leftNdigits, rightNdigits) =>
      if resNdigits ≠ leftNdigits + rightNdigits + 1 then some (.error .invalidArg)
      else
        match mulDigits (left.digits.take leftNdigits.toNat).reverse
            (right.digits.take rightNdigits.toNat).reverse with
        | none => none
        | some (.error rc) => some (.error rc)
        | some (.ok dig) => mulStore left right rscale dig

/-- `decimal_mul`. -/
def mul (left right : Decimal) : Option (Except Rc Decimal) :=
  if left.isSpecial || right.isSpecial then some (.ok setNan)
  else if ¬ IsInt (left.dscale + right.dscale) then none
  else
    (mulRaw left right (left.dscale + right.dscale)).map fun r =>
      r.bind fun d => if d.isOutOfBound then .error .invalidArg else .ok d

end Decimal

/-- Between two propagations no column passes `INT_MAX` with the carry into it: `done` are the
digits before the last propagation, `batch` those since, with the sum `s`. -/
def Headroom (right : List ℕ) (n : ℕ) : List ℕ → List ℕ → ℕ → List ℕ → Prop
  | done, batch, _, [] => Fits nbase intMax right done batch n
  | done, batch, s, l :: ls =>
    if l = 0 then Headroom right n done (batch ++ [0]) s ls
    else if maxdigLimit < s + l then
      Fits nbase intMax right done batch n ∧ Headroom right n (done ++ batch) [l] (1 + l) ls
    else Headroom right n done (batch ++ [l]) (s + l) ls

instance decidableHeadroom (right : List ℕ) (n : ℕ) (done batch : List ℕ) (s : ℕ) :
    (ls : List ℕ) → Decidable (Headroom right n done batch s ls)
  | [] => inferInstanceAs (Decidable (Fits nbase intMax right done batch n))
  | l :: ls =>
    if h0 : l = 0 then
      let _ := decidableHeadroom right n done (batch ++ [0]) s ls
      decidable_of_iff (Headroom right n done (batch ++ [0]) s ls) (by rw [Headroom, if_pos h0])
    else if hfull : maxdigLimit < s + l then
      let _ := decidableHeadroom right n (done ++ batch) [l] (1 + l) ls
      decidable_of_iff
        (Fits nbase intMax right done batch n ∧ Headroom right n (done ++ batch) [l] (1 + l) ls)
        (by rw [Headroom, if_neg h0, if_pos hfull])
    else
      let _ := decidableHeadroom right n done (batch ++ [l]) (s + l) ls
      decidable_of_iff (Headroom right n done (batch ++ [l]) (s + l) ls)
        (by rw [Headroom, if_neg h0, if_neg hfull])

section

variable {right done batch dig : List ℕ} {s n : ℕ}

theorem normalize_of_fits (h : Cells nbase right done batch s n dig)
    (hd : ∀ x ∈ done, x < nbase) (hbatch : ∀ x ∈ batch, x < nbase) (hr : ∀ x ∈ right, x < nbase)
    (hlen : done.length + batch.length + right.length ≤ n)
    (hfit : Fits nbase intMax right done batch n) :
    ∃ ds, normalize dig = some (.ok ds) ∧ Written nbase n ds
      ∧ Cells nbase right (done ++ batch) [] 1 n ds := by
  rw [← h.isSome_iff (by decide)] at hfit
  obtain ⟨⟨ds, c⟩, hds⟩ := Option.isSome_iff_exists.mp hfit
  obtain ⟨rfl, hw, hcells⟩ := h.propagate (by decide) hd hbatch hr hlen hds
  exact ⟨ds, by rw [normalize, hds]; rfl, hw, hcells⟩

theorem normalize_of_not_fits (h : Cells nbase right done batch s n dig)
    (hfit : ¬ Fits nbase intMax right done batch n) : normalize dig = none := by
  rw [← h.isSome_iff (by decide), Option.not_isSome_iff_eq_none] at hfit
  rw [normalize, hfit]
  rfl

/-- The outcome of the loops: the product of the digits, or an accumulator that overflows. -/
def Outcome (fits : Prop) (n : ℕ) (left right : List ℕ) (r : Option (Except Rc (List ℕ))) : Prop :=
  (fits → ∃ ds, r = some (.ok ds) ∧ Written nbase n ds
      ∧ Nat.ofDigits nbase ds = Nat.ofDigits nbase left * Nat.ofDigits nbase right)
    ∧ (¬ fits → r = none)

theorem lastPass_spec (h : Cells nbase right done batch s n dig)
    (hd : ∀ x ∈ done, x < nbase) (hbatch : ∀ x ∈ batch, x < nbase) (hr : ∀ x ∈ right, x < nbase)
    (hlen : done.length + batch.length + right.length ≤ n) :
    Outcome (Fits nbase intMax right done batch n) n (done ++ batch) right
      (lastPass (some (.ok dig))) := by
  refine ⟨fun hfit => ?_, fun hfit => normalize_of_not_fits h hfit⟩
  obtain ⟨ds, hds, hw, hcells⟩ := normalize_of_fits h hd hbatch hr hlen hfit
  have hall : ∀ x ∈ done ++ batch, x < nbase := fun x hx =>
    (mem_append.mp hx).elim (hd x) (hbatch x)
  have htotal := hcells.total (by decide) hall hr (by simpa using hlen)
  exact ⟨ds, hds, hw, by rwa [append_nil] at htotal⟩

/-- **The loop over the left operand**, by induction on the digits that are left. -/
theorem mulRows_spec {ls : List ℕ} (h : Cells nbase right done batch s n dig)
    (hs : s ≤ maxdigLimit) (hd : ∀ x ∈ done, x < nbase) (hbatch : ∀ x ∈ batch, x < nbase)
    (hls : ∀ x ∈ ls, x < nbase) (hr : ∀ x ∈ right, x < nbase)
    (hlen : done.length + batch.length + ls.length + right.length ≤ n) :
    Outcome (Headroom right n done batch s ls) n (done ++ batch ++ ls) right
      (lastPass (mulRows right ls (done.length + batch.length) s dig)) := by
  induction ls generalizing done batch s dig with
  | nil =>
    rw [append_nil, Headroom, mulRows]
    exact lastPass_spec h hd hbatch hr (by simpa using hlen)
  | cons l ls ih =>
    obtain ⟨hl, hrest⟩ := forall_mem_cons.mp hls
    have hr' : ∀ r ∈ right, r ≤ nbase - 1 := fun r hmem => Nat.le_sub_one_of_lt (hr r hmem)
    have happ : ∀ x ∈ batch ++ [l], x < nbase := fun x hx =>
      (mem_append.mp hx).elim (hbatch x) fun hx => by rwa [mem_singleton.mp hx]
    rw [length_cons] at hlen
    rw [Headroom, mulRows]
    by_cases hl0 : l = 0
    · subst hl0
      rw [if_pos rfl, if_pos rfl]
      have hnext := ih h.skip hs hd happ hrest (by rw [List.length_append, length_singleton]; omega)
      rwa [List.length_append, length_singleton, ← add_assoc, ← append_assoc,
        append_assoc _ [0] ls] at hnext
    · rw [if_neg hl0, if_neg hl0]
      by_cases hfull : maxdigLimit < s + l
      · rw [if_pos hfull, if_pos hfull]
        by_cases hfit : Fits nbase intMax right done batch n
        · obtain ⟨ds, hds, -, hcells⟩ := normalize_of_fits h hd hbatch hr (by omega) hfit
          have hdone : ∀ x ∈ done ++ batch, x < nbase := fun x hx =>
            (mem_append.mp hx).elim (hd x) (hbatch x)
          have htop : (1 + l) * (nbase - 1) ≤ intMax := by
            simp only [nbase, intMax] at hl ⊢
            omega
          obtain ⟨row, hrow, hnext⟩ := hcells.row (l := l)
            (by rw [List.length_append, length_nil]; omega) hr' htop
          rw [List.length_append, length_nil, add_zero] at hrow hnext
          rw [hds]
          dsimp only
          rw [hrow]
          have hsucc := ih hnext (by simp only [nbase, maxdigLimit, intMax] at hl ⊢; omega) hdone
            (by simpa using hl) hrest
            (by rw [List.length_append, nil_append, length_singleton]; omega)
          rw [nil_append, List.length_append, length_singleton, append_assoc _ [l] ls]
            at hsucc
          exact ⟨fun hhead => hsucc.1 hhead.2, fun hhead => hsucc.2 fun h' => hhead ⟨hfit, h'⟩⟩
        · rw [normalize_of_not_fits h hfit]
          exact ⟨fun hhead => absurd hhead.1 hfit, fun _ => rfl⟩
      · rw [if_neg hfull, if_neg hfull]
        have htop : (s + l) * (nbase - 1) ≤ intMax :=
          (Nat.mul_le_mul_right _ (not_lt.mp hfull)).trans (by decide)
        obtain ⟨row, hrow, hnext⟩ := h.row (by omega) hr' htop
        rw [hrow]
        have hsucc := ih hnext (not_lt.mp hfull) hd happ hrest
          (by rw [List.length_append, length_singleton]; omega)
        rwa [List.length_append, length_singleton, ← add_assoc, ← append_assoc,
          append_assoc _ [l] ls] at hsucc

/-- **The digits of the product** are computed exactly when there is headroom. -/
theorem mulDigits_spec {left : List ℕ} (hl : ∀ x ∈ left, x < nbase) (hr : ∀ x ∈ right, x < nbase) :
    Outcome (Headroom right (left.length + right.length + 1) [] [] 0 left)
      (left.length + right.length + 1) left right (mulDigits left right) := by
  have h := mulRows_spec (Cells.zero right (left.length + right.length + 1)) (Nat.zero_le _)
    (by simp) (by simp) hl hr (by simp only [length_nil]; omega)
  rw [mulDigits]
  simpa using h

end

/-! ## The digits that count -/

theorem mulNdigits_spec {n1 n2 k n m1 m2 : ℤ} (h1 : 1 ≤ n1) (h2 : 1 ≤ n2)
    (h : mulNdigits n1 n2 k = some (n, m1, m2)) :
    n = m1 + m2 + 1 ∧ (1 ≤ m1 ∧ m1 ≤ n1) ∧ 1 ≤ m2 ∧ m2 ≤ n2 := by
  have htwo : ∀ x : ℤ, 0 ≤ x → x.tdiv 2 = x / 2 := fun x hx => Int.tdiv_eq_ediv_of_nonneg hx
  simp only [mulNdigits] at h
  split_ifs at h with hk h3 heven hlr hlt hlt hlr hlt hlt <;>
    simp only [Option.some.injEq, Prod.mk.injEq] at h
  all_goals
    obtain ⟨rfl, rfl, rfl⟩ := h
    try rw [htwo _ (by omega)]
    omega

namespace Decimal

variable {a b d r : Decimal} {s : ℤ}

def mulSign (a b : Decimal) : Sign := if a.sign = b.sign then .pos else .neg

def kept (m : ℤ) (d : Decimal) : Decimal := { d with digits := d.digits.take m.toNat }

/-- What is stored for the absolute value `x` with a sign, once the digits are stripped. -/
structure Stored (s : ℤ) (x : ℚ) (sign : Sign) (r : Decimal) : Prop where
  mag : r.mag = x
  value : r.value = signed sign x
  normal : r.Normal
  dscale : r.dscale = s
  zero : r.digits = [] → r.weight = 0

/-- What `_decimal_mul` stores for the number `x` with a sign. -/
structure Product (s : ℤ) (x : ℚ) (sign : Sign) (r : Decimal) : Prop
    extends Stored s (roundTo s x) sign r where
  typemod : r.typemod = -1

theorem signed_zero (sign : Sign) : signed sign 0 = 0 := by simp [signed]

theorem mulSign_eq (a b : Decimal) : mulSign a b = .pos ∨ mulSign a b = .neg := by
  rw [mulSign]
  split
  · exact .inl rfl
  · exact .inr rfl

theorem strip_stored {x : ℚ} {sign : Sign} (hfin : sign = .pos ∨ sign = .neg) (hmag : r.mag = x)
    (hdscale : r.dscale = s) (hok : r.DigitsOk) (hown : r.isOwn = true)
    (hsign : r.sign = sign ∨ r.sign = .pos ∧ r.digits = []) : Stored s x sign r.strip where
  mag := by rw [strip_mag, hmag]
  value := by
    rw [strip_value, value_eq_signed, hmag]
    rcases hsign with hs | ⟨hs, hnil⟩
    · rw [hs]
    · have h0 : x = 0 := by rw [← hmag, Decimal.mag, hnil, radix_nil]
      rw [h0, signed_zero, signed_zero]
  normal := by
    refine strip_normal hown ?_ hok
    rcases hsign with hs | ⟨hs, -⟩
    · rwa [Finite, hs]
    · exact .inl hs
  dscale := by rw [strip_dscale, hdscale]
  zero := fun hnil => by rw [strip_weight hown, if_pos hnil]

/-- Rounding the product keeps its `int`s in their range. -/
abbrev MulRoundInRange (a b : Decimal) (s : ℤ) : Prop :=
  RoundInRange { weight := a.weight + b.weight + 2 } s

theorem mulStore_none (dig : List ℕ) (h : ¬ MulRoundInRange a b s) : mulStore a b s dig = none := by
  simp only [mulStore, roundCall]
  rw [if_pos ⟨trivial, h⟩]

theorem mulStore_spec {n : ℕ} {dig : List ℕ} (hdig : Written nbase n dig) {x : ℚ}
    (hx : (Nat.ofDigits nbase dig : ℕ) * (nbase : ℚ) ^ (a.weight + b.weight + 3 - n) = x)
    (hrange : MulRoundInRange a b s) : ∃ r, mulStore a b s dig = some (.ok r) ∧
      Product s x (mulSign a b) r := by
  rw [mulStore]
  generalize hd : ({
    weight := a.weight + b.weight + 2
    sign := if a.sign = b.sign then .pos else .neg
    isOwn := true
    front := [.zero]
    digits := dig.reverse } : Decimal) = d
  have hown : d.isOwn = true := by rw [← hd]
  have hok : d.DigitsOk := by
    rw [← hd]
    exact fun y hy => hdig.lt y (mem_reverse.mp hy)
  have hmag : d.mag = x := by
    rw [mag_eq, ← hx, ← hd, beVal, reverse_reverse, length_reverse, hdig.length]
    congr 2
    ring
  obtain ⟨r, hr, hround⟩ := round_defined hown hok (by rw [← hd]; rfl) s
  have hsign := hround.sign
  rw [show d.sign = mulSign a b by rw [← hd]; rfl] at hsign
  have hcall : d.roundCall s = d.round s := by
    rw [roundCall, if_neg]
    rintro ⟨-, h⟩
    exact h (by rw [← hd]; exact hrange)
  rw [hcall, hr]
  exact ⟨r.strip, rfl, strip_stored (mulSign_eq a b) (by rw [hround.mag, hmag]) hround.dscale
    hround.digits hround.isOwn hsign, by rw [strip_typemod, hround.typemod, ← hd]⟩

def MulHeadroom (a b : Decimal) (m1 m2 : ℤ) : Prop :=
  let left := (a.kept m1).digits.reverse
  let right := (b.kept m2).digits.reverse
  Headroom right (left.length + right.length + 1) [] [] 0 left

theorem kept_digitsOk (h : d.DigitsOk) (m : ℤ) : (d.kept m).DigitsOk :=
  fun x hx => h x (mem_of_mem_take hx)

theorem kept_length {m : ℤ} (h1 : 1 ≤ m) (h : m ≤ d.digits.length) :
    ((d.kept m).digits.length : ℤ) = m := by
  rw [kept, length_take]
  omega

theorem Product.ofZero (s : ℤ) (sign : Sign) : Product s 0 sign { setZero with dscale := s } where
  mag := by rw [roundTo_zero, Decimal.mag, setZero, radix_nil]
  value := by simp [roundTo_zero, signed_zero, Decimal.value, Decimal.mag, setZero]
  normal := zero_normal s
  dscale := rfl
  zero := fun _ => rfl
  typemod := rfl

theorem mulDigits_kept (ha : a.DigitsOk) (hb : b.DigitsOk) {m1 m2 : ℤ}
    (h1 : 1 ≤ m1 ∧ m1 ≤ a.digits.length) (h2 : 1 ≤ m2 ∧ m2 ≤ b.digits.length)
    (hroom : MulHeadroom a b m1 m2) :
    ∃ dig, mulDigits (a.digits.take m1.toNat).reverse (b.digits.take m2.toNat).reverse = some (.ok dig)
      ∧ (MulRoundInRange a b s → ∃ r, mulStore a b s dig = some (.ok r)
        ∧ Product s ((a.kept m1).mag * (b.kept m2).mag) (mulSign a b) r) := by
  obtain ⟨dig, hdig, hw, hval⟩ := (mulDigits_spec
    (fun x hx => kept_digitsOk ha m1 x (mem_reverse.mp hx))
    (fun x hx => kept_digitsOk hb m2 x (mem_reverse.mp hx))).1 hroom
  refine ⟨dig, hdig, mulStore_spec hw ?_⟩
  have hl1 := kept_length h1.1 h1.2
  have hl2 := kept_length h2.1 h2.2
  rw [mag_eq, mag_eq, hval, beVal, beVal, Nat.cast_mul, length_reverse, length_reverse]
  push_cast
  rw [hl1, hl2, mul_mul_mul_comm, ← zpow_add₀ (by norm_num)]
  congr 2
  change a.weight + b.weight + 3 - (m1 + m2 + 1) = a.weight + 1 - m1 + (b.weight + 1 - m2)
  ring

theorem mulDigits_kept_none (ha : a.DigitsOk) (hb : b.DigitsOk) {m1 m2 : ℤ}
    (hroom : ¬ MulHeadroom a b m1 m2) :
    mulDigits (a.digits.take m1.toNat).reverse (b.digits.take m2.toNat).reverse = none :=
  (mulDigits_spec (fun x hx => kept_digitsOk ha m1 x (mem_reverse.mp hx))
    (fun x hx => kept_digitsOk hb m2 x (mem_reverse.mp hx))).2 hroom

/-- The product of the digits that `_decimal_mul` uses. -/
def usedProduct (a b : Decimal) (s : ℤ) : ℚ :=
  if a.digits = [] ∨ b.digits = [] then 0
  else
    match mulNdigits a.digits.length b.digits.length (mulMaxdigits a b s) with
    | none => 0
    | some (_, m1, m2) => (a.kept m1).mag * (b.kept m2).mag

theorem usedProduct_of_some {n m1 m2 : ℤ} (hna : a.digits ≠ []) (hnb : b.digits ≠ [])
    (h : mulNdigits a.digits.length b.digits.length (mulMaxdigits a b s) = some (n, m1, m2)) :
    usedProduct a b s = (a.kept m1).mag * (b.kept m2).mag := by
  rw [usedProduct, if_neg (by simp [hna, hnb]), h]

/-- No `int` of `_decimal_mul` overflows: before the multiplication, in the accumulators with their
carries, and in the rounding. -/
def MulDefined (a b : Decimal) (s : ℤ) : Prop :=
  a.digits = [] ∨ b.digits = [] ∨ MulInRange a b s ∧ ∀ n m1 m2,
    mulNdigits a.digits.length b.digits.length (mulMaxdigits a b s) = some (n, m1, m2) →
      MulHeadroom a b m1 m2 ∧ MulRoundInRange a b s

/-- **`_decimal_mul` computes the product of the digits that count**, or overflows. -/
theorem mulRaw_cases (ha : a.DigitsOk) (hb : b.DigitsOk) (s : ℤ) :
    (MulDefined a b s ∧ ∃ r, mulRaw a b s = some (.ok r)
        ∧ Product s (usedProduct a b s) (mulSign a b) r)
      ∨ (¬ MulDefined a b s ∧ mulRaw a b s = none) := by
  rw [MulDefined, ← or_assoc, mulRaw, usedProduct]
  by_cases hzero : a.digits = [] ∨ b.digits = []
  · rw [if_pos hzero, if_pos hzero]
    exact .inl ⟨.inl hzero, _, rfl, .ofZero s _⟩
  rw [if_neg hzero, if_neg hzero, or_iff_right hzero]
  by_cases hrange : MulInRange a b s
  swap
  · rw [if_pos hrange]
    exact .inr ⟨fun h => hrange h.1, rfl⟩
  rw [if_neg (not_not.mpr hrange), and_iff_right hrange]
  obtain ⟨hna, hnb⟩ := not_or.mp hzero
  have hla := length_pos_of_ne_nil hna
  have hlb := length_pos_of_ne_nil hnb
  cases hn : mulNdigits a.digits.length b.digits.length (mulMaxdigits a b s) with
  | none => exact .inl ⟨nofun, _, rfl, .ofZero s _⟩
  | some p =>
    obtain ⟨n, m1, m2⟩ := p
    obtain ⟨hsum, h1, h2⟩ := mulNdigits_spec (by omega) (by omega) hn
    rw [show (∀ n' m1' m2', some (n, m1, m2) = some (n', m1', m2') →
        MulHeadroom a b m1' m2' ∧ MulRoundInRange a b s)
      ↔ MulHeadroom a b m1 m2 ∧ MulRoundInRange a b s by simp]
    dsimp only
    rw [if_neg (not_not.mpr hsum)]
    by_cases hroom : MulHeadroom a b m1 m2
    · obtain ⟨dig, hdig, hstore⟩ := mulDigits_kept ha hb h1 h2 hroom
      rw [hdig, and_iff_right hroom]
      by_cases hround : MulRoundInRange a b s
      · obtain ⟨r, hr, hprod⟩ := hstore hround
        exact .inl ⟨hround, r, hr, hprod⟩
      · exact .inr ⟨hround, mulStore_none dig hround⟩
    · rw [mulDigits_kept_none ha hb hroom]
      exact .inr ⟨fun h => hroom h.1, rfl⟩

structure ExactProduct (a b r : Decimal) : Prop where
  value : r.value = a.value * b.value
  dscale : r.dscale = a.dscale + b.dscale
  normal : r.Normal

theorem signed_mul (ha : a.Finite) (hb : b.Finite) :
    signed (mulSign a b) (a.mag * b.mag) = a.value * b.value := by
  rcases ha with ha | ha <;> rcases hb with hb | hb <;>
    simp [signed, mulSign, value, ha, hb]

theorem Normal.lt_dscale (h : d.Normal) (hs : d.Shown) (hne : d.digits ≠ []) :
    4 * (d.digits.length - d.weight - 2) < d.dscale := by
  by_contra hle
  obtain ⟨m, hm⟩ := hs
  obtain ⟨t, ht⟩ := Int.eq_ofNat_of_zero_le (sub_nonneg.mpr (not_lt.mp hle))
  have hexp : 4 * (d.weight + 1 - d.digits.length) + d.dscale = -((4 + t : ℕ) : ℤ) := by
    push_cast
    linarith
  rw [mag, radix_mul_zpow, hexp, zpow_neg, zpow_natCast, ← div_eq_mul_inv,
    div_eq_iff (by positivity)] at hm
  have hnat : beVal nbase d.digits = m * 10 ^ (4 + t) := by exact_mod_cast hm
  obtain ⟨ds, x, hd⟩ := (eq_nil_or_concat' d.digits).resolve_left hne
  have hx := h.digits x (by simp [hd])
  have hx0 : x ≠ 0 := fun h0 => h.trailing (by rw [hd, getLast?_concat, h0])
  rw [hd, beVal_append, beVal_singleton, length_singleton, pow_one, pow_add] at hnat
  have hdvd : nbase ∣ beVal nbase ds * nbase + x := by
    rw [hnat]
    exact ⟨m * 10 ^ t, by simp only [nbase]; ring⟩
  exact hx0 (Nat.eq_zero_of_dvd_of_lt ((Nat.dvd_add_right (dvd_mul_left _ _)).mp hdvd) hx)

theorem mag_eq_kept_add (m : ℤ) :
    d.mag = (d.kept m).mag + radix nbase (d.digits.drop m.toNat)
      (d.weight - (d.digits.take m.toNat).length) := by
  rw [mag, mag, kept, ← radix_append, take_append_drop]

theorem kept_mag_le (m : ℤ) : (d.kept m).mag ≤ d.mag := by
  rw [mag_eq_kept_add (d := d) m]
  exact le_add_of_nonneg_right (radix_nonneg _)

theorem Normal.maxWeight_le_iff (h : d.Normal) (hne : d.digits ≠ []) :
    maxWeight ≤ d.weight ↔ (nbase : ℚ) ^ maxWeight ≤ d.mag := by
  have hb : (1 : ℚ) < nbase := by norm_num
  rw [← zpow_natCast]
  constructor
  · intro hle
    exact (zpow_le_zpow_right₀ hb.le hle).trans (h.le_mag hne)
  · intro hle
    have := (zpow_lt_zpow_iff_right₀ hb).mp (hle.trans_lt (mag_lt h.digits))
    omega

theorem usedProduct_nonneg (a b : Decimal) (s : ℤ) : 0 ≤ usedProduct a b s := by
  rw [usedProduct]
  split
  · exact le_rfl
  · split
    · exact le_rfl
    · exact mul_nonneg mag_nonneg mag_nonneg

theorem usedProduct_le (a b : Decimal) (s : ℤ) : usedProduct a b s ≤ a.mag * b.mag := by
  have hnonneg : 0 ≤ a.mag * b.mag := mul_nonneg mag_nonneg mag_nonneg
  rw [usedProduct]
  split
  · exact hnonneg
  · split
    · exact hnonneg
    · exact mul_le_mul (kept_mag_le _) (kept_mag_le _) mag_nonneg mag_nonneg

theorem signed_inj {sign : Sign} {x y : ℚ} : signed sign x = signed sign y ↔ x = y := by
  rw [signed, signed]
  split
  · exact neg_inj
  · exact Iff.rfl

/-- A product is exact when its decimals, and the digits that were left out, survive the rounding. -/
theorem Product.value_eq_iff (ha : a.Finite) (hb : b.Finite)
    (h : Product s (usedProduct a b s) (mulSign a b) r) :
    r.value = a.value * b.value ↔ Survives s (a.mag * b.mag) (usedProduct a b s) := by
  rw [h.value, ← signed_mul ha hb, signed_inj,
    roundTo_eq_iff_survives (usedProduct_nonneg a b s) (usedProduct_le a b s)]

theorem value_eq_zero_of_nil (h : d.digits = []) : d.value = 0 := by simp [value, mag, h]

theorem Normal.mag_pos_of_ne_nil (h : d.Normal) (hne : d.digits ≠ []) : 0 < d.mag :=
  lt_of_le_of_ne mag_nonneg fun h0 => hne (h.mag_eq_zero_iff.mp h0.symm)

theorem Stored.isOutOfBound_iff {x : ℚ} {sign : Sign} (h : Stored s x sign r) :
    r.isOutOfBound = true ↔ maxDscale < s ∨ (nbase : ℚ) ^ maxWeight ≤ x := by
  have hweight : maxWeight ≤ r.weight ↔ (nbase : ℚ) ^ maxWeight ≤ x := by
    rw [← h.mag]
    by_cases hnil : r.digits = []
    · rw [h.zero hnil, h.normal.mag_eq_zero_iff.mpr hnil]
      exact iff_of_false (by decide) (not_le.mpr (by positivity))
    · exact h.normal.maxWeight_le_iff hnil
  rw [isOutOfBound, Bool.or_eq_true, decide_eq_true_eq, decide_eq_true_eq, h.dscale, hweight,
    or_comm]

/-- `decimal_mul` returns the out-of-bound error or the exact product; in particular no
accumulator overflows. -/
def MulOk (a b : Decimal) : Prop :=
  mul a b = some (.error .invalidArg) ∨ ∃ d, mul a b = some (.ok d) ∧ ExactProduct a b d

/-- No `int` overflows, and the product is out of bound, or has no more decimals than the scales
show and the digits left out are lost in the rounding. -/
def MulSafe (a b : Decimal) : Prop :=
  IsInt (a.dscale + b.dscale) ∧ MulDefined a b (a.dscale + b.dscale)
    ∧ (maxDscale < a.dscale + b.dscale
      ∨ (nbase : ℚ) ^ maxWeight ≤ roundTo (a.dscale + b.dscale) (usedProduct a b (a.dscale + b.dscale))
      ∨ Survives (a.dscale + b.dscale) (a.mag * b.mag) (usedProduct a b (a.dscale + b.dscale)))

/-- **Multiplication is exact if and only if it is safe**: no `int` overflows, and no digit is
hidden from the scales. -/
theorem mul_exact_iff (ha : a.Normal) (hb : b.Normal) : MulOk a b ↔ MulSafe a b := by
  have hmul : mul a b = if ¬ IsInt (a.dscale + b.dscale) then none
      else (mulRaw a b (a.dscale + b.dscale)).map fun r =>
        r.bind fun d => if d.isOutOfBound then .error .invalidArg else .ok d := by
    rw [mul, isSpecial_of_finite ha.finite, isSpecial_of_finite hb.finite, if_neg (by decide)]
  rw [MulOk, MulSafe, hmul]
  by_cases hint : IsInt (a.dscale + b.dscale)
  swap
  · simp [hint]
  rw [if_neg (not_not.mpr hint), and_iff_right hint]
  obtain ⟨hdef, r, hr, hprod⟩ | ⟨hdef, hnone⟩ := mulRaw_cases ha.digits hb.digits (a.dscale + b.dscale)
  · rw [hr, and_iff_right hdef, ← or_assoc, ← hprod.isOutOfBound_iff,
      ← hprod.value_eq_iff ha.finite hb.finite]
    have hexact : ExactProduct a b r ↔ r.value = a.value * b.value :=
      ⟨ExactProduct.value, fun h => ⟨h, hprod.dscale, hprod.normal⟩⟩
    rw [← hexact]
    cases hbound : r.isOutOfBound <;> simp [Except.bind, hbound]
  · simp [hdef, hnone]

/-- `-0.0625`. -/
def minusSixteenth : Decimal := {
  sign := .neg
  weight := -1
  dscale := 4
  isOwn := true
  front := [.zero]
  digits := [625] }

/-- `10000.5`. -/
def tenThousandHalf : Decimal := {
  weight := 1
  dscale := 1
  isOwn := true
  front := [.zero]
  digits := [1, 0, 5000] }

theorem tenThousandHalf_normal : tenThousandHalf.Normal :=
  ⟨.inl rfl, by simp [DigitsOk, tenThousandHalf, nbase], by decide, by decide, by decide⟩

theorem mul_exact_iff_decimals : MulOk tenThousandHalf minusSixteenth := by
  have hn : mulNdigits tenThousandHalf.digits.length minusSixteenth.digits.length
      (mulMaxdigits tenThousandHalf minusSixteenth 5) = some (5, 3, 1) := by decide
  have hb : minusSixteenth.Normal :=
    ⟨.inr rfl, by simp [DigitsOk, minusSixteenth, nbase], by decide, by decide, by decide⟩
  refine (mul_exact_iff tenThousandHalf_normal hb).mpr
    ⟨by decide, .inr (.inr ⟨by decide, ?_⟩), .inr (.inr ?_)⟩
  · intro n m1 m2 h
    cases hn.symm.trans h
    exact ⟨by rw [MulHeadroom]; decide, by decide⟩
  · refine ⟨⟨62503125, by norm_num [tenThousandHalf, minusSixteenth, mag, radix]⟩, ?_⟩
    have hused : usedProduct tenThousandHalf minusSixteenth 5
        = tenThousandHalf.mag * minusSixteenth.mag :=
      usedProduct_of_some (by decide) (by decide) hn
    change (_ - usedProduct tenThousandHalf minusSixteenth 5) * _ ≤ _
    rw [hused]
    norm_num

/-- The integer `4790 9999 … 9999` of 22 digits. -/
def leftFactor : Decimal :=
  { weight := 21, isOwn := true, front := [.zero], digits := 4790 :: List.replicate 21 9999 }

/-- The integer `9999 … 9999` of 22 digits. -/
def rightFactor : Decimal :=
  { weight := 21, isOwn := true, front := [.zero], digits := List.replicate 22 9999 }

/-- Two integers of 88 digits: with the carry an accumulator would be 2147685209. -/
theorem accumulator_overflow :
    (leftFactor.Normal ∧ leftFactor.Shown) ∧ (rightFactor.Normal ∧ rightFactor.Shown)
      ∧ mul leftFactor rightFactor = none ∧ ¬ MulOk leftFactor rightFactor := by
  have hnone : mul leftFactor rightFactor = none := by
    rw [← Option.isNone_iff_eq_none]
    decide +kernel
  refine ⟨⟨⟨.inl rfl, by simp [DigitsOk, leftFactor, nbase], by decide, by decide, by decide⟩, ?_⟩,
    ⟨⟨.inl rfl, by simp [DigitsOk, rightFactor], by decide, by decide, by decide⟩, ?_⟩, hnone, ?_⟩
  · exact ⟨beVal nbase leftFactor.digits, by rw [mag_eq]; simp [leftFactor]⟩
  · exact ⟨beVal nbase rightFactor.digits, by rw [mag_eq]; simp [rightFactor]⟩
  · rw [MulOk, hnone]
    simp

end Decimal

end Novachains.Bson
