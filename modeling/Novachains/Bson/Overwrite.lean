import Novachains.Bson.Div

/-!
# Operations that write over an operand

The result object of `decimal_add`, `decimal_sub`, `decimal_mul` and `decimal_div` may be one of the
operands, or both.  Two things then differ from a fresh one.  When the operands of an addition or a
subtraction cancel, `decimal_set_zero` clears the result before the display scales are read.  And
`_decimal_div` allocates the digits of the result without clearing its `typemod`.
-/

namespace Novachains.Bson

open Lib Decimal

variable {a b d r : Decimal} {t : Target}

inductive Operation
  | add
  | sub
  | mul
  | div
  deriving DecidableEq, Repr

/-- The `typemod` that the result object has before the call. -/
def Target.typemod (t : Target) (a b : Decimal) : ℤ :=
  if t.isLeft then a.typemod else if t.isRight then b.typemod else -1

/-- The call of an operation.  `_decimal_mul` reads both operands before it clears the result. -/
def Operation.call (op : Operation) (t : Target) (a b : Decimal) : Option (Except Rc Decimal) :=
  match op with
  | .add => some (Decimal.add t a b)
  | .sub => some (Decimal.sub t a b)
  | .mul => Decimal.mul a b
  | .div => Decimal.div (t.typemod a b) a b

/-- The same value, sign, display scale and `typemod`. -/
structure SameFields (d r : Decimal) : Prop where
  value : d.value = r.value
  sign : d.sign = r.sign
  dscale : d.dscale = r.dscale
  typemod : d.typemod = r.typemod

theorem SameFields.refl (d : Decimal) : SameFields d d := ⟨rfl, rfl, rfl, rfl⟩

inductive SameResult : Option (Except Rc Decimal) → Option (Except Rc Decimal) → Prop
  | undefined : SameResult none none
  | error (rc : Rc) : SameResult (some (.error rc)) (some (.error rc))
  | ok {d r : Decimal} (h : SameFields d r) : SameResult (some (.ok d)) (some (.ok r))

theorem SameResult.refl : (x : Option (Except Rc Decimal)) → SameResult x x
  | none => .undefined
  | some (.error rc) => .error rc
  | some (.ok d) => .ok (.refl d)

theorem sameResult_ok_iff : SameResult (some (.ok d)) (some (.ok r)) ↔ SameFields d r :=
  ⟨fun | .ok h => h, .ok⟩

/-! ## Operands that cancel -/

/-- The display scale does not show whether an operand was cleared before its scale was read. -/
def ScaleKept (t : Target) (a b : Decimal) : Prop :=
  keptDscale t a b = max a.dscale b.dscale
    ∨ maxDscale < keptDscale t a b ∧ maxDscale < max a.dscale b.dscale

theorem stripChecked_cancelled (t : Target) (a b : Decimal) :
    stripChecked (.ok (cancelled t a b))
      = if maxDscale < keptDscale t a b then .error .invalidArg else .ok (cancelled t a b) := by
  have hstrip : (cancelled t a b).strip = cancelled t a b := strip_of_not_own rfl
  rw [stripChecked, Except.bind, hstrip]
  by_cases hlarge : maxDscale < keptDscale t a b
  · rw [if_pos hlarge, if_pos]
    rw [← Bool.not_eq_false, isOutOfBound_eq_false, cancelled_dscale]
    exact fun h => absurd h.2 (not_le.mpr hlarge)
  · rw [if_neg hlarge, if_neg]
    rw [Bool.not_eq_true, isOutOfBound_eq_false, cancelled_dscale]
    exact ⟨show (0 : ℤ) < maxWeight by decide, not_lt.mp hlarge⟩

theorem sameResult_cancelled_iff :
    SameResult (some (stripChecked (.ok (cancelled t a b))))
        (some (stripChecked (.ok (cancelled {} a b)))) ↔ ScaleKept t a b := by
  have hfresh : keptDscale {} a b = max a.dscale b.dscale := rfl
  rw [stripChecked_cancelled, stripChecked_cancelled, hfresh, ScaleKept]
  by_cases hkept : maxDscale < keptDscale t a b <;>
    by_cases hmax : maxDscale < max a.dscale b.dscale
  · rw [if_pos hkept, if_pos hmax]
    exact iff_of_true (.error _) (.inr ⟨hkept, hmax⟩)
  · rw [if_pos hkept, if_neg hmax]
    refine iff_of_false (fun h => by cases h) ?_
    rintro (h | ⟨-, h⟩)
    · exact hmax (h ▸ hkept)
    · exact hmax h
  · rw [if_neg hkept, if_pos hmax]
    refine iff_of_false (fun h => by cases h) ?_
    rintro (h | ⟨h, -⟩)
    · exact hkept (h ▸ hmax)
    · exact hkept h
  · rw [if_neg hkept, if_neg hmax, sameResult_ok_iff]
    constructor
    · intro h
      have := h.dscale
      rw [cancelled_dscale, cancelled_dscale, hfresh] at this
      exact .inl this
    · rintro (h | ⟨h, -⟩)
      · refine ⟨rfl, rfl, ?_, rfl⟩
        rw [cancelled_dscale, cancelled_dscale, hfresh, h]
      · exact absurd h hkept

theorem combine_eq (ha : a.DigitsOk) (hb : b.DigitsOk) {sign1 sign2 : Sign} (t : Target) :
    combine t sign1 sign2 a b
      = if sign1 ≠ sign2 ∧ a.mag = b.mag then .ok (cancelled t a b)
        else combine {} sign1 sign2 a b := by
  have hcmp := cmpAbs_eq_zero_iff ha hb
  unfold combine diffAbs
  by_cases hs : sign1 = sign2 <;> by_cases hmag : a.mag = b.mag <;> simp [hs, hmag, hcmp]

theorem sameResult_combine_iff (ha : a.DigitsOk) (hb : b.DigitsOk) {sign1 sign2 : Sign} :
    SameResult (some (stripChecked (combine t sign1 sign2 a b)))
        (some (stripChecked (combine {} sign1 sign2 a b)))
      ↔ (sign1 ≠ sign2 → a.mag = b.mag → ScaleKept t a b) := by
  rw [combine_eq ha hb t]
  split
  · rename_i hcancel
    rw [combine_eq ha hb {}, if_pos hcancel, sameResult_cancelled_iff]
    exact ⟨fun h _ _ => h, fun h => h hcancel.1 hcancel.2⟩
  · rename_i hcancel
    exact iff_of_true (.refl _) fun hne hmag => absurd ⟨hne, hmag⟩ hcancel

theorem sameResult_add_iff (ha : a.Finite) (hoka : a.DigitsOk) (hb : b.Finite) (hokb : b.DigitsOk) :
    SameResult (some (Decimal.add t a b)) (some (Decimal.add {} a b))
      ↔ (a.sign ≠ b.sign → a.mag = b.mag → ScaleKept t a b) := by
  have hadd : ∀ t, Decimal.add t a b = stripChecked (combine t a.sign b.sign a b) := fun t => by
    simp [Decimal.add, isSpecial_of_finite ha, isSpecial_of_finite hb, addRaw_eq ha hb]
  rw [hadd, hadd]
  exact sameResult_combine_iff hoka hokb

theorem sameResult_sub_iff (ha : a.Finite) (hoka : a.DigitsOk) (hb : b.Finite) (hokb : b.DigitsOk) :
    SameResult (some (Decimal.sub t a b)) (some (Decimal.sub {} a b))
      ↔ (a.sign = b.sign → a.mag = b.mag → ScaleKept t a b) := by
  have hsub : ∀ t, Decimal.sub t a b = stripChecked (combine t a.sign (Decimal.flip b.sign) a b) :=
    fun t => by simp [Decimal.sub, isSpecial_of_finite ha, isSpecial_of_finite hb, subRaw_eq ha hb]
  have hflip : a.sign ≠ Decimal.flip b.sign ↔ a.sign = b.sign := by
    rcases ha with ha | ha <;> rcases hb with hb | hb <;> simp [ha, hb, Decimal.flip]
  rw [hsub, hsub, sameResult_combine_iff hoka hokb, hflip]

theorem round_withTypemod (d : Decimal) (typemod s : ℤ) :
    ({ d with typemod } : Decimal).round s
      = (d.round s).map (Prod.map id fun r => { r with typemod }) := by
  unfold Decimal.round
  dsimp only
  split
  · rfl
  split
  · rfl
  split
  · split
    · rfl
    · cases d.front with
      | nil => rfl
      | cons c front => cases c <;> rfl
  · rfl

theorem strip_withTypemod (d : Decimal) (typemod : ℤ) :
    ({ d with typemod } : Decimal).strip = { d.strip with typemod } := by
  unfold strip
  split <;> rfl

theorem divStore_withTypemod (d : Decimal) (typemod s : ℤ) :
    divStore { d with typemod } s true
      = (divStore d s true).map (Except.map fun r => { r with typemod }) := by
  unfold divStore
  rw [if_pos rfl, if_pos rfl, round_withTypemod]
  cases d.round s with
  | none => rfl
  | some p =>
    obtain ⟨rc, r⟩ := p
    cases rc <;> simp [Except.map, strip_withTypemod]

theorem div_withTypemod (hne : a.digits ≠ []) (ha : a.Finite) (hb : b.Finite) (typemod : ℤ) :
    Decimal.div typemod a b
      = (Decimal.div (-1) a b).map (Except.map fun r => { r with typemod }) := by
  have hraw : divRaw typemod a b (getDivScale a b) true
      = (divRaw (-1) a b (getDivScale a b) true).map (Except.map fun r => { r with typemod }) := by
    by_cases hzero : b.digits = [] ∨ b.digits.getD 0 0 = 0
    · rw [divRaw, divRaw, if_pos hzero, if_pos hzero]
      rfl
    rw [divRaw, divRaw, if_neg hzero, if_neg hzero, if_neg hne, if_neg hne]
    exact divStore_withTypemod {
      weight := a.weight - b.weight
      sign := if a.sign = b.sign then .pos else .neg
      isOwn := true
      front := [.zero]
      digits := _ } typemod _
  unfold Decimal.div
  rw [isSpecial_of_finite ha, isSpecial_of_finite hb, hraw]
  cases divRaw (-1) a b (getDivScale a b) true with
  | none => rfl
  | some x =>
    cases x with
    | error rc => rfl
    | ok d =>
      have hbound : ({ d with typemod } : Decimal).isOutOfBound = d.isOutOfBound := rfl
      cases h : d.isOutOfBound <;> simp [Except.map, Except.bind, hbound, h]

theorem div_of_nil (hnil : a.digits = []) (typemod : ℤ) :
    Decimal.div typemod a b = Decimal.div (-1) a b := by
  simp [Decimal.div, divRaw, hnil]

/-- The divisor has no first digit that is not zero, or the rounded quotient is out of bound. -/
def DivFails (a b : Decimal) : Prop :=
  b.digits.getD 0 0 = 0 ∨ (nbase : ℚ) ^ maxWeight ≤ roundTo (getDivScale a b) (a.mag / b.mag)

theorem div_cases (ha : a.Finite) (hoka : a.DigitsOk) (hb : b.Finite) (hokb : b.DigitsOk) :
    DivFails a b ∧ Decimal.div (-1) a b = some (.error .invalidArg)
      ∨ ¬ DivFails a b ∧ ∃ r, Decimal.div (-1) a b = some (.ok r) ∧ r.typemod = -1 := by
  rw [Decimal.div, isSpecial_of_finite ha, isSpecial_of_finite hb, if_neg (by decide), DivFails]
  by_cases hlead : b.digits.getD 0 0 = 0
  · rw [divRaw, if_pos (.inr hlead)]
    exact .inl ⟨.inl hlead, rfl⟩
  have hne : b.digits ≠ [] := by
    intro hnil
    simp [hnil] at hlead
  obtain ⟨r, hr, hquot, htypemod⟩ :=
    divRaw_of_lead hoka hokb hne hlead (-1) (getDivScale a b) true
  have hscale : ¬ maxDscale < getDivScale a b :=
    not_lt.mpr ((min_le_right _ _).trans (by decide))
  have hbound := hquot.isOutOfBound_iff
  rw [or_iff_right hscale, divTo, if_pos rfl] at hbound
  rw [hr, or_iff_right hlead, ← hbound]
  cases hout : r.isOutOfBound with
  | true => exact .inl ⟨rfl, by simp [Except.bind, hout]⟩
  | false =>
    rw [ite_self] at htypemod
    exact .inr ⟨Bool.false_ne_true, r, by simp [Except.bind, hout], htypemod⟩

theorem sameResult_div_iff (ha : a.Finite) (hoka : a.DigitsOk) (hb : b.Finite) (hokb : b.DigitsOk)
    (typemod : ℤ) :
    SameResult (Decimal.div typemod a b) (Decimal.div (-1) a b)
      ↔ (a.digits ≠ [] → typemod ≠ -1 → DivFails a b) := by
  by_cases hnil : a.digits = []
  · rw [div_of_nil hnil]
    exact iff_of_true (.refl _) fun hne => absurd hnil hne
  rw [div_withTypemod hnil ha hb typemod]
  obtain ⟨hfails, hdiv⟩ | ⟨hfails, r, hdiv, hr⟩ := div_cases ha hoka hb hokb
  · rw [hdiv]
    exact iff_of_true (.error _) fun _ _ => hfails
  rw [hdiv, Option.map_some, Except.map, sameResult_ok_iff]
  constructor
  · intro h _ hne
    exact absurd (h.typemod.trans hr) hne
  intro h
  have htypemod : typemod = -1 := by
    by_contra hne
    exact hfails (h hnil hne)
  exact ⟨rfl, rfl, rfl, htypemod.trans hr.symm⟩

/-- When the result may be stored in an operand: a sum does not cancel, or the scale does not show
it; a quotient is written over no `typemod`, or the dividend has no digits, or the division fails.
-/
def OverwriteSafe (op : Operation) (t : Target) (a b : Decimal) : Prop :=
  match op with
  | .add => a.sign ≠ b.sign → a.mag = b.mag → ScaleKept t a b
  | .sub => a.sign = b.sign → a.mag = b.mag → ScaleKept t a b
  | .mul => True
  | .div => a.digits ≠ [] → t.typemod a b ≠ -1 → DivFails a b

/-- **An operation may write over its operands**, with the same result, exactly when it is safe. -/
theorem overwrite_iff (op : Operation) (t : Target) (ha : a.Finite) (hoka : a.DigitsOk)
    (hb : b.Finite) (hokb : b.DigitsOk) :
    SameResult (op.call t a b) (op.call {} a b) ↔ OverwriteSafe op t a b := by
  cases op with
  | add => exact sameResult_add_iff ha hoka hb hokb
  | sub => exact sameResult_sub_iff ha hoka hb hokb
  | mul => exact iff_of_true (.refl _) trivial
  | div => exact sameResult_div_iff ha hoka hb hokb (t.typemod a b)

def oneDigit (sign : Sign) (x : ℕ) (dscale typemod : ℤ) : Decimal :=
  { typemod, sign, dscale, isOwn := true, front := [.zero], digits := [x] }

/-- `2 + 1` into the left operand. -/
theorem overwrite_two_one :
    SameResult (Operation.add.call { isLeft := true } (oneDigit .pos 2 0 (-1)) (oneDigit .pos 1 0 (-1)))
      (Operation.add.call {} (oneDigit .pos 2 0 (-1)) (oneDigit .pos 1 0 (-1))) := by
  refine (overwrite_iff .add { isLeft := true } (.inl rfl) ?_ (.inl rfl) ?_).mpr fun h => ?_
  · simp [DigitsOk, oneDigit, nbase]
  · simp [DigitsOk, oneDigit, nbase]
  · exact absurd rfl h

/-- `1.00 + (-1)` into the left operand loses the display scale 2; `1` with a `typemod`, divided by
3 into itself, keeps it. -/
theorem overwrite_wrong :
    (∃ d r, Operation.add.call { isLeft := true } (oneDigit .pos 1 2 (-1)) (oneDigit .neg 1 0 (-1))
          = some (.ok d)
        ∧ Operation.add.call {} (oneDigit .pos 1 2 (-1)) (oneDigit .neg 1 0 (-1)) = some (.ok r)
        ∧ d.dscale = 0 ∧ r.dscale = 2)
      ∧ (∃ d r, Operation.div.call { isLeft := true } (oneDigit .pos 1 2 655362)
            (oneDigit .pos 3 0 (-1)) = some (.ok d)
        ∧ Operation.div.call {} (oneDigit .pos 1 2 655362) (oneDigit .pos 3 0 (-1)) = some (.ok r)
        ∧ d.typemod = 655362 ∧ r.typemod = -1)
      ∧ ¬ SameResult
        (Operation.add.call { isLeft := true } (oneDigit .pos 1 2 (-1)) (oneDigit .neg 1 0 (-1)))
        (Operation.add.call {} (oneDigit .pos 1 2 (-1)) (oneDigit .neg 1 0 (-1))) := by
  have hleft : Operation.add.call { isLeft := true } (oneDigit .pos 1 2 (-1)) (oneDigit .neg 1 0 (-1))
      = some (.ok setZero) := by decide +kernel
  have hfresh : Operation.add.call {} (oneDigit .pos 1 2 (-1)) (oneDigit .neg 1 0 (-1))
      = some (.ok { setZero with dscale := 2 }) := by decide +kernel
  refine ⟨⟨_, _, hleft, hfresh, rfl, rfl⟩, ?_, ?_⟩
  · refine ⟨{ oneDigit .pos 3333 20 655362 with
        weight := -1, front := [.zero, .zero], digits := [3333, 3333, 3333, 3333, 3333] },
      { oneDigit .pos 3333 20 (-1) with
        weight := -1, front := [.zero, .zero], digits := [3333, 3333, 3333, 3333, 3333] }, ?_, ?_,
          rfl, rfl⟩
    · decide +kernel
    · decide +kernel
  · rw [hleft, hfresh, sameResult_ok_iff]
    intro h
    cases h.dscale

end Novachains.Bson
