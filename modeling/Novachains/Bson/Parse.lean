import Novachains.Bson.AddSub
import Novachains.Bson.Round
import Novachains.Lib.Numeral

/-!
# Decimals from texts and integers

`decimal_from_str` collects the decimal digits of a text, reads an exponent with `strtoll` and
regroups the digits into digits of base 10000.  `decimal_from_long` takes an integer apart.  Both
then apply the `typemod` of the object that they fill.  A text is the list of its characters without
the terminator.
-/

namespace Novachains.Bson

open Lib List

abbrev maxDweight : ℕ := 131072

/-! ## Phases -/

structure Scan where
  decdigits : List ℕ
  dweight : ℤ
  dscale : ℤ
  rest : List Char
  deriving DecidableEq, Repr

def Scan.cons (x : ℕ) (s : Scan) : Scan := { s with decdigits := x :: s.decdigits }

def scanDigits (haveDp : Bool) (dweight dscale : ℤ) : List Char → Except Rc Scan
  | [] => .ok ⟨[], dweight, dscale, []⟩
  | c :: cs =>
    if c.isDigit then
      if haveDp then
        if maxDscale + maxPrecision < dscale + 1 then .error .invalidArg
        else (scanDigits true dweight (dscale + 1) cs).map (.cons (digitVal c))
      else
        if maxDweight + maxPrecision < dweight + 1 then .error .invalidArg
        else (scanDigits false (dweight + 1) dscale cs).map (.cons (digitVal c))
    else if c = '.' then
      if haveDp then .error .invalidArg else scanDigits true dweight dscale cs
    else .ok ⟨[], dweight, dscale, c :: cs⟩

/-- `isspace` in the C locale. -/
def isSpace (c : Char) : Bool := c = ' ' || (9 ≤ c.toNat && c.toNat ≤ 13)

def clampLong (z : ℤ) : ℤ := max (-2 ^ 63) (min z (2 ^ 63 - 1))

def takeSign : List Char → Option SignMark × List Char
  | '+' :: cs => (some .plus, cs)
  | '-' :: cs => (some .minus, cs)
  | cs => (none, cs)

/-- `strtoll` in base 10: the number and the rest, or nothing if there is no number. -/
def strtoll (cs : List Char) : Option (ℤ × List Char) :=
  let s := takeSign (cs.dropWhile isSpace)
  let digits := s.2.takeWhile Char.isDigit
  if digits = [] then none
  else some (clampLong (signFactor s.1 * beVal 10 (digits.map digitVal)), s.2.dropWhile Char.isDigit)

def parseExponent (s : Scan) : Except Rc Scan :=
  match s.rest with
  | [] => .ok s
  | c :: cs =>
    if c = 'e' ∨ c = 'E' then
      match strtoll cs with
      | none => .error .invalidArg
      | some (exponent, rest) =>
        if maxPrecision < exponent ∨ exponent < -maxPrecision then .error .invalidArg
        else
          .ok { s with
            dweight := s.dweight + exponent
            dscale := max (s.dscale - exponent) 0
            rest }
    else .ok s

/-- Read what stands behind the sign; a digit has to come first, or behind a first point. -/
def readScan (cp : List Char) : Except Rc Scan :=
  let haveDp : Bool := cp.head? = some '.'
  let digits := if haveDp then cp.tail else cp
  if digits.head?.any Char.isDigit then (scanDigits haveDp (-1) 0 digits).bind parseExponent
  else .error .invalidArg

def groupDigits : ℕ → List ℕ → Option (List ℕ)
  | 0, _ => some []
  | n + 1, x1 :: x2 :: x3 :: x4 :: xs =>
    (groupDigits n xs).map fun ds => (((x1 * 10 + x2) * 10 + x3) * 10 + x4) :: ds
  | _, _ => none

def spells : List Char → List Char → List Char → Bool
  | [], [], [] => true
  | l :: ls, u :: us, c :: cs => (c = l || c = u) && spells ls us cs
  | _, _, _ => false

def specialWord (cs : List Char) : Option Decimal :=
  if spells ['n', 'a', 'n'] ['N', 'A', 'N'] cs then some Decimal.setNan
  else if spells ['m', 'i', 'n'] ['M', 'I', 'N'] cs then some Decimal.setMin
  else if spells ['m', 'a', 'x'] ['M', 'A', 'X'] cs then some Decimal.setMax
  else if spells ['i', 'n', 'f'] ['I', 'N', 'F'] cs then some Decimal.setMax
  else if spells ['-', 'i', 'n', 'f'] ['-', 'I', 'N', 'F'] cs then some Decimal.setMin
  else none

/-- The weight of the digit of base 10000 that holds the decimal digit of weight `dweight`. -/
def groupWeight (dweight : ℤ) : ℤ :=
  if 0 ≤ dweight then (dweight + 1 + decDigits - 1) / decDigits - 1
  else -((-dweight - 1) / decDigits + 1)

namespace Decimal

/-- The decimal of the digits that were read, aligned with the point and stripped. -/
def ofScan (typemod : ℤ) (sign : Sign) (s : Scan) : Option Decimal :=
  let weight := groupWeight s.dweight
  let offset := ((weight + 1) * decDigits - (s.dweight + 1)).toNat
  let ndigits := (s.decdigits.length + offset + decDigits - 1) / decDigits
  let padded := List.replicate decDigits 0 ++ s.decdigits ++ List.replicate (decDigits - 1) 0
  (groupDigits ndigits (padded.drop (decDigits - offset))).map fun digits =>
    strip { typemod, sign, dscale := s.dscale, weight, isOwn := true, front := [.zero], digits }

def withTypmod (typemod : ℤ) (d : Decimal) : Option (Except Rc Decimal) :=
  (d.applyTypmod typemod).map fun r => if r.1 = .ok then .ok r.2 else .error r.1

/-- The last check of `decimal_from_str`. -/
def checked (r : Option (Except Rc Decimal)) : Option (Except Rc Decimal) :=
  r.map fun r => r.bind fun d => if d.isOutOfBound then .error .invalidArg else .ok d

/-- `decimal_from_str`, into an object with a `typemod`. -/
def fromStr (typemod : ℤ) (value : List Char) : Option (Except Rc Decimal) :=
  match specialWord value with
  | some d => some (.ok d)
  | none =>
    let t := takeSign value
    let sign : Sign := if t.1 = some .minus then .neg else .pos
    match readScan t.2 with
    | .error rc => some (.error rc)
    | .ok s =>
      if maxDweight ≤ s.dweight ∨ maxDscale < s.dscale then some (.error .invalidArg)
      else if s.rest ≠ [] then some (.error .invalidArg)
      else
        match ofScan typemod sign s with
        | none => none
        | some d => checked (d.withTypmod typemod)

/-- The digits of an integer, the last first stored, while there are cells left. -/
def fillDigits : ℕ → ℕ → List ℕ → Option (List ℕ)
  | 0, _, _ => none
  | room + 1, uval, digits =>
    let newuval := uval / nbase
    let digits := (uval - newuval * nbase) :: digits
    if newuval = 0 then some digits else fillDigits room newuval digits

/-- The digits that `decimal_from_long` allocates. -/
abbrev longNdigits : ℕ := 20 / decDigits

/-- `decimal_from_long`; the opposite of the least `int64_t` wraps around to itself. -/
def fromLong (typemod value : ℤ) : Option (Except Rc Decimal) :=
  if value = 0 then some (.ok { typemod, isOwn := true, front := [.zero] })
  else
    match fillDigits longNdigits value.natAbs [] with
    | none => none
    | some digits =>
      withTypmod typemod {
        typemod
        sign := if value < 0 then .neg else .pos
        weight := digits.length - 1
        isOwn := true
        front := List.replicate (longNdigits - digits.length) .unset ++ [.zero]
        digits }

end Decimal

open Numeral (mantissaText)

structure Scanned (cs : List Char) (dweight dscale : ℤ) (int : List ℕ) (frac : Option (List ℕ))
    (s : Scan) : Prop where
  text : cs = mantissaText int frac ++ s.rest
  digits : s.decdigits = int ++ frac.getD []
  digits_lt : ∀ d ∈ int ++ frac.getD [], d < 10
  dweight : s.dweight = dweight + int.length
  dscale : s.dscale = dscale + (frac.getD []).length

variable {cs : List Char} {dw ds : ℤ} {s : Scan}

theorem scanDigits_point (h : scanDigits true dw ds cs = .ok s) :
    ∃ f, cs = f.map digitChar ++ s.rest ∧ s.decdigits = f ∧ (∀ d ∈ f, d < 10) ∧ s.dweight = dw
      ∧ s.dscale = ds + f.length := by
  induction cs generalizing ds s with
  | nil =>
    obtain rfl : _ = s := by simpa [scanDigits] using h
    exact ⟨[], by simp⟩
  | cons c cs ih =>
    simp only [scanDigits, if_true] at h
    split_ifs at h with hdigit
    · obtain ⟨s', hs', rfl⟩ := except_map_eq_ok.mp h
      obtain ⟨f, htext, hdigits, hlt, hdw, hds⟩ := ih hs'
      refine ⟨digitVal c :: f, ?_, ?_, ?_, hdw, ?_⟩
      · rw [map_cons, digitChar_digitVal hdigit, htext]
        rfl
      · rw [← hdigits]
        rfl
      · exact forall_mem_cons.mpr ⟨digitVal_lt hdigit, hlt⟩
      · rw [length_cons, Nat.cast_succ]
        exact hds.trans (by ring)
    · cases h
      exact ⟨[], by simp⟩

theorem scanDigits_spec (h : scanDigits false dw ds cs = .ok s) :
    ∃ int frac, Scanned cs dw ds int frac s := by
  induction cs generalizing dw s with
  | nil =>
    obtain rfl : _ = s := by simpa [scanDigits] using h
    exact ⟨[], none, by simp [mantissaText], by simp, by simp, by simp, by simp⟩
  | cons c cs ih =>
    simp only [scanDigits, Bool.false_eq_true, if_false] at h
    split_ifs at h with hdigit hfull hpoint
    · obtain ⟨s', hs', rfl⟩ := except_map_eq_ok.mp h
      obtain ⟨int, frac, hsc⟩ := ih hs'
      refine ⟨digitVal c :: int, frac, ⟨?_, ?_, ?_, ?_, hsc.dscale⟩⟩
      · rw [hsc.text]
        cases frac <;> simp [mantissaText, digitChar_digitVal hdigit, Scan.cons]
      · rw [cons_append, ← hsc.digits]
        rfl
      · exact forall_mem_cons.mpr ⟨digitVal_lt hdigit, hsc.digits_lt⟩
      · rw [length_cons, Nat.cast_succ]
        exact hsc.dweight.trans (by ring)
    · obtain ⟨f, htext, hdigits, hlt, hdw, hds⟩ := scanDigits_point h
      refine ⟨[], some f, ⟨?_, ?_, ?_, ?_, ?_⟩⟩
      · rw [hpoint, htext]
        rfl
      · simpa using hdigits
      · simpa using hlt
      · simpa using hdw
      · simpa using hds
    · cases h
      exact ⟨[], none, by simp [mantissaText], by simp, by simp, by simp, by simp⟩

theorem scanDigits_ne_nil {dp : Bool} (hhead : cs.head?.any Char.isDigit = true)
    (h : scanDigits dp dw ds cs = .ok s) : s.decdigits ≠ [] := by
  cases cs with
  | nil => simp at hhead
  | cons c cs =>
    have hdigit : c.isDigit = true := by simpa using hhead
    rw [scanDigits, if_pos hdigit] at h
    split_ifs at h <;> obtain ⟨s', -, rfl⟩ := except_map_eq_ok.mp h <;> simp [Scan.cons]

/-- The digits end in front of `rest`. -/
def Stops (rest : List Char) : Prop :=
  ∀ dp dw ds, scanDigits dp dw ds rest = .ok ⟨[], dw, ds, rest⟩

variable {rest : List Char}

theorem scanDigits_frac {f : List ℕ} (hrest : Stops rest) (hlt : ∀ d ∈ f, d < 10)
    (hle : ds + f.length ≤ maxDscale + maxPrecision) :
    scanDigits true dw ds (f.map digitChar ++ rest) = .ok ⟨f, dw, ds + f.length, rest⟩ := by
  induction f generalizing ds with
  | nil => simp [hrest true dw ds]
  | cons x f ih =>
    obtain ⟨hx, hf⟩ := forall_mem_cons.mp hlt
    rw [length_cons, Nat.cast_succ] at hle
    rw [map_cons, cons_append, scanDigits, if_pos (isDigit_digitChar hx), if_pos rfl,
      if_neg (by omega), ih hf (by omega), digitVal_digitChar hx, length_cons, Nat.cast_succ]
    simp only [Except.map, Scan.cons]
    congr 2
    ring

theorem scanDigits_mantissa {int : List ℕ} {frac : Option (List ℕ)} (hrest : Stops rest)
    (hlt : ∀ d ∈ int ++ frac.getD [], d < 10) (hint : dw + int.length ≤ maxDweight + maxPrecision)
    (hfrac : ds + (frac.getD []).length ≤ maxDscale + maxPrecision) :
    scanDigits false dw ds (mantissaText int frac ++ rest)
      = .ok ⟨int ++ frac.getD [], dw + int.length, ds + (frac.getD []).length, rest⟩ := by
  induction int generalizing dw with
  | nil =>
    cases frac with
    | none => simp [mantissaText, hrest false dw ds]
    | some f =>
      simp only [mantissaText, map_nil, nil_append, cons_append, Option.getD_some] at hlt hfrac ⊢
      rw [scanDigits, if_neg (by decide), if_pos rfl, if_neg (by decide),
        scanDigits_frac hrest hlt hfrac]
      simp
  | cons x int ih =>
    obtain ⟨hx, hlt⟩ := forall_mem_cons.mp hlt
    rw [length_cons, Nat.cast_succ] at hint
    rw [Numeral.mantissaText_cons, cons_append, scanDigits, if_pos (isDigit_digitChar hx),
      if_neg (by decide), if_neg (by omega), ih hlt (by omega), digitVal_digitChar hx, length_cons,
      Nat.cast_succ]
    simp only [Except.map, Scan.cons, cons_append]
    congr 2
    ring

theorem takeSign_spec (cs : List Char) : cs = signText (takeSign cs).1 ++ (takeSign cs).2 := by
  fun_cases takeSign <;> rfl

theorem strtoll_spec {rest : List Char} {z : ℤ} (h : strtoll cs = some (z, rest)) :
    ∃ ws sign ds, (∀ c ∈ ws, isSpace c = true)
      ∧ cs = ws ++ signText sign ++ ds.map digitChar ++ rest ∧ ds ≠ [] ∧ (∀ d ∈ ds, d < 10)
      ∧ z = clampLong (signFactor sign * beVal 10 ds) := by
  rw [strtoll] at h
  split_ifs at h with hnil
  cases h
  have hsign := takeSign_spec (cs.dropWhile isSpace)
  generalize takeSign (cs.dropWhile isSpace) = s at *
  have hdigits : ∀ c ∈ s.2.takeWhile Char.isDigit, c.isDigit = true := fun c hc =>
    mem_takeWhile_imp hc
  refine ⟨cs.takeWhile isSpace, s.1, (s.2.takeWhile Char.isDigit).map digitVal,
    fun c hc => mem_takeWhile_imp hc, ?_, by simpa using hnil, ?_, rfl⟩
  · have hback : ((s.2.takeWhile Char.isDigit).map digitVal).map digitChar
        = s.2.takeWhile Char.isDigit := by
      rw [List.map_map]
      exact (map_congr_left fun c hc => digitChar_digitVal (hdigits c hc)).trans (List.map_id _)
    rw [hback, append_assoc, takeWhile_append_dropWhile, append_assoc, ← hsign,
      takeWhile_append_dropWhile]
  · intro d hd
    obtain ⟨c, hc, rfl⟩ := List.mem_map.mp hd
    exact digitVal_lt (hdigits c hc)

/-- A text as `decimal_from_str` reads it: the numeral, with white space behind the letter of the
exponent. -/
def spacedText (n : Numeral) (ws : List Char) : List Char :=
  signText n.sign ++ mantissaText n.int n.frac ++ match n.exponent with
    | none => []
    | some e => (if e.upper then 'E' else 'e') :: (ws ++ signText e.sign ++ e.digits.map digitChar)

theorem spacedText_nil (n : Numeral) : spacedText n [] = n.text := by
  rw [spacedText, Numeral.text]
  cases n.exponent <;> rfl

/-- The scan `s'` is `s` after an exponent that is in range. -/
structure Shifted (s : Scan) (exp : ℤ) (s' : Scan) : Prop where
  exp_le : exp ≤ maxPrecision
  le_exp : -maxPrecision ≤ exp
  decdigits : s'.decdigits = s.decdigits
  dweight : s'.dweight = s.dweight + exp
  dscale : s'.dscale = max (s.dscale - exp) 0

theorem clampLong_eq {z : ℤ} (h1 : clampLong z ≤ maxPrecision) (h2 : -maxPrecision ≤ clampLong z) :
    clampLong z = z := by
  simp only [clampLong, maxPrecision] at *
  omega

theorem parseExponent_spec {s' : Scan} (h : parseExponent s = .ok s') (hrest : s'.rest = [])
    (hds : 0 ≤ s.dscale) : ∃ (e : Option Exponent) (ws : List Char), (∀ c ∈ ws, isSpace c = true)
      ∧ s.rest = (match e with
        | none => []
        | some e =>
          (if e.upper then 'E' else 'e') :: (ws ++ signText e.sign ++ e.digits.map digitChar))
      ∧ Shifted s ((e.map Exponent.value).getD 0) s' := by
  rw [parseExponent] at h
  have hnone : s = s' → Shifted s 0 s' := by
    rintro rfl
    exact ⟨by decide, by decide, rfl, by simp, by simp [hds]⟩
  split at h
  · rename_i hnil
    have hs : s = s' := by simpa using h
    exact ⟨none, [], by simp, hnil, hnone hs⟩
  rename_i c cs hcons
  split at h
  · rename_i hletter
    split at h
    · simp at h
    rename_i z rest hz
    split at h
    · simp at h
    rename_i hbound
    cases h
    obtain ⟨ws, sign, ds, hws, htext, hne, hlt, hval⟩ := strtoll_spec hz
    have hz' : z = signFactor sign * beVal 10 ds := by
      rw [hval]
      exact clampLong_eq (by rw [← hval]; omega) (by rw [← hval]; omega)
    have hexp : ((some (⟨decide (c = 'E'), sign, ds, hlt, hne⟩ : Exponent)).map
        Exponent.value).getD 0 = z := hz'.symm
    refine ⟨some ⟨decide (c = 'E'), sign, ds, hlt, hne⟩, ws, hws, ?_, ?_⟩
    · have hrest' : rest = [] := hrest
      rw [hcons, htext, hrest', append_nil]
      rcases hletter with rfl | rfl <;> rfl
    · rw [hexp]
      exact ⟨by omega, by omega, rfl, rfl, rfl⟩
  · have hs : s = s' := by simpa using h
    rw [← hs, hcons] at hrest
    simp at hrest

theorem groupDigits_spec {n : ℕ} {xs : List ℕ} (hlen : 4 * n ≤ xs.length)
    (hlt : ∀ x ∈ xs, x < 10) :
    ∃ ds, groupDigits n xs = some ds ∧ Written nbase n ds
      ∧ beVal nbase ds = beVal 10 (xs.take (4 * n)) := by
  induction n generalizing xs with
  | zero => exact ⟨[], rfl, .nil, by simp⟩
  | succ n ih =>
    match xs, hlen, hlt with
    | x1 :: x2 :: x3 :: x4 :: xs, hlen, hlt =>
      simp only [forall_mem_cons, length_cons] at hlt hlen
      obtain ⟨h1, h2, h3, h4, hxs⟩ := hlt
      obtain ⟨ds, hds, hw, hval⟩ := ih (by omega) hxs
      have htake : (xs.take (4 * n)).length = 4 * n := by
        rw [length_take]
        omega
      refine ⟨(((x1 * 10 + x2) * 10 + x3) * 10 + x4) :: ds, by rw [groupDigits, hds]; rfl,
        .cons (by simp only [nbase]; omega) hw, ?_⟩
      rw [show 4 * (n + 1) = 4 * n + 1 + 1 + 1 + 1 by ring]
      simp only [take_succ_cons, beVal_cons, length_cons, htake, hw.length, hval]
      rw [show nbase = 10 ^ 4 from rfl, ← pow_mul]
      ring

theorem groupWeight_eq (dw : ℤ) : groupWeight dw = dw / 4 := by
  simp only [groupWeight, decDigits]
  split <;> omega

namespace Decimal

structure Regrouped (typemod : ℤ) (sign : Sign) (s : Scan) (d : Decimal) : Prop where
  mag : d.mag = beVal 10 s.decdigits * (10 : ℚ) ^ (s.dweight + 1 - s.decdigits.length)
  value : d.value = signed sign d.mag
  normal : d.Normal
  dscale : d.dscale = s.dscale
  typemod : d.typemod = typemod
  isOwn : d.isOwn = true
  front : d.front.head? = some .zero
  zero : d.digits = [] → d.weight = 0

theorem padded_drop (xs : List ℕ) {o : ℕ} (ho : o < 4) :
    (List.replicate decDigits 0 ++ xs ++ List.replicate (decDigits - 1) 0).drop (decDigits - o)
      = List.replicate o 0 ++ xs ++ List.replicate 3 0 := by
  interval_cases o <;> rfl

theorem padded_take {xs : List ℕ} {o n : ℕ} (hn : o + xs.length ≤ 4 * n)
    (hle : 4 * n ≤ o + xs.length + 3) :
    (List.replicate o 0 ++ xs ++ List.replicate 3 0).take (4 * n)
      = List.replicate o 0 ++ xs ++ List.replicate (4 * n - (o + xs.length)) 0 := by
  have hlen : (List.replicate o 0 ++ xs).length = o + xs.length := by simp
  rw [List.take_append, hlen, take_of_length_le (by omega), take_replicate,
    min_eq_left (by omega)]

variable {sign : Sign}

/-- **The digits that were read keep their places**, and none are read outside the array. -/
theorem ofScan_spec (typemod : ℤ) (hsign : sign = .pos ∨ sign = .neg)
    (hlt : ∀ d ∈ s.decdigits, d < 10) :
    ∃ d, ofScan typemod sign s = some d ∧ Regrouped typemod sign s d := by
  obtain ⟨o, ho⟩ : ∃ o : ℕ, (s.dweight / 4 + 1) * 4 - (s.dweight + 1) = o :=
    Int.eq_ofNat_of_zero_le (by omega)
  obtain ⟨n, hn⟩ : ∃ n, (s.decdigits.length + o + decDigits - 1) / decDigits = n := ⟨_, rfl⟩
  have hn4 : o + s.decdigits.length ≤ 4 * n ∧ 4 * n ≤ o + s.decdigits.length + 3 := by
    simp only [decDigits] at hn
    omega
  have hdigits : ∀ x ∈ List.replicate o 0 ++ s.decdigits ++ List.replicate 3 0, x < 10 := by
    intro x hx
    simp only [mem_append, mem_replicate] at hx
    rcases hx with (⟨-, rfl⟩ | hx) | ⟨-, rfl⟩
    · decide
    · exact hlt x hx
    · decide
  obtain ⟨ds, hds, hw, hval⟩ := groupDigits_spec (n := n)
    (by simp only [List.length_append, length_replicate]; omega) hdigits
  rw [padded_take hn4.1 hn4.2, beVal_append, beVal_append, beVal_replicate_zero,
    beVal_replicate_zero, length_replicate, zero_mul, zero_add, add_zero] at hval
  have hscan : ofScan typemod sign s = some (strip {
      typemod
      sign
      dscale := s.dscale
      weight := s.dweight / 4
      isOwn := true
      front := [.zero]
      digits := ds }) := by
    rw [ofScan, groupWeight_eq, show ((decDigits : ℕ) : ℤ) = 4 from rfl, ho, Int.toNat_natCast, hn,
      padded_drop _ (by omega), hds]
    rfl
  refine ⟨_, hscan, ?_, ?_, strip_normal rfl hsign hw.lt, strip_dscale, strip_typemod, strip_isOwn,
    strip_front rfl, strip_weight_of_nil rfl⟩
  · rw [strip_mag, mag_eq, nbase_zpow, hval, hw.length, Nat.cast_mul, Nat.cast_pow, Nat.cast_ofNat,
      mul_assoc, ← zpow_natCast, ← zpow_add₀ (by norm_num)]
    congr 2
    dsimp only
    omega
  · rw [strip_value, strip_mag]
    rfl

/-! ## The whole text -/

theorem readScan_spec (h : readScan cs = .ok s) :
    ∃ int frac s0, Scanned cs (-1) 0 int frac s0 ∧ s0.decdigits ≠ [] ∧ parseExponent s0 = .ok s := by
  rw [readScan] at h
  by_cases hdp : cs.head? = some '.'
  · obtain ⟨tail, rfl⟩ := head?_eq_some_iff.mp hdp
    simp only [head?_cons, decide_true, if_true, tail_cons] at h
    split_ifs at h with hhead
    obtain ⟨s0, hs0, hexp⟩ := except_bind_eq_ok.mp h
    obtain ⟨f, htext, hdigits, hlt, hdw, hds⟩ := scanDigits_point hs0
    refine ⟨[], some f, s0, ⟨?_, ?_, ?_, ?_, ?_⟩, scanDigits_ne_nil hhead hs0, hexp⟩
    · rw [htext]
      rfl
    · simpa using hdigits
    · simpa using hlt
    · simpa using hdw
    · simpa using hds
  · simp only [hdp, decide_false, Bool.false_eq_true, if_false] at h
    split_ifs at h with hhead
    obtain ⟨s0, hs0, hexp⟩ := except_bind_eq_ok.mp h
    obtain ⟨int, frac, hsc⟩ := scanDigits_spec hs0
    exact ⟨int, frac, s0, hsc, scanDigits_ne_nil hhead hs0, hexp⟩

/-- The limits of `decimal_from_str`: an exponent from `-1000` to `1000`, and with the point moved
at most 131072 digits in front of it, leading zeros among them, and 16383 behind. -/
structure InLimits (n : Numeral) : Prop where
  exp_le : n.exp ≤ maxPrecision
  le_exp : -maxPrecision ≤ n.exp
  int : n.int.length + n.exp ≤ maxDweight
  frac : (n.frac.getD []).length - n.exp ≤ maxDscale

/-- The number that a text stands for, before the `typemod` is applied. -/
structure ReadNumber (typemod : ℤ) (text : List Char) (n : Numeral) (ws : List Char) (d : Decimal) :
    Prop where
  space : ∀ c ∈ ws, isSpace c = true
  text : text = spacedText n ws
  value : d.value = n.value
  dscale : d.dscale = max ((n.frac.getD []).length - n.exp) 0
  shown : d.Shown
  normal : d.Normal
  zero : d.digits = [] → d.weight = 0
  weight_lt : d.weight < maxWeight
  limits : InLimits n
  typemod : d.typemod = typemod
  isOwn : d.isOwn = true
  front : d.front.head? = some .zero

theorem ReadNumber.dscale_le {typemod : ℤ} {text ws : List Char} {n : Numeral} {d : Decimal}
    (h : ReadNumber typemod text n ws d) : d.dscale ≤ maxDscale := by
  rw [h.dscale]
  exact max_le h.limits.frac (by decide)

theorem signed_eq_signFactor (sign : Option SignMark) (x : ℚ) :
    signed (if sign = some .minus then .neg else .pos) x = signFactor sign * x := by
  match sign with
  | none => simp [signed, signFactor]
  | some .plus => simp [signed, signFactor]
  | some .minus => simp [signed, signFactor]

variable {typemod : ℤ} {d : Decimal}

theorem Regrouped.weight_lt (h : Regrouped typemod sign s d) (hlt : ∀ x ∈ s.decdigits, x < 10)
    (hdw : s.dweight < maxDweight) : d.weight < maxWeight := by
  by_cases hnil : d.digits = []
  · rw [h.zero hnil]
    decide
  have hbe : (beVal 10 s.decdigits : ℚ) < (10 : ℚ) ^ (s.decdigits.length : ℤ) := by
    rw [zpow_natCast]
    exact_mod_cast beVal_lt (by decide) hlt
  have hmag : d.mag < (10 : ℚ) ^ (s.dweight + 1) := by
    rw [h.mag]
    calc (beVal 10 s.decdigits : ℚ) * (10 : ℚ) ^ (s.dweight + 1 - s.decdigits.length)
        < (10 : ℚ) ^ (s.decdigits.length : ℤ)
          * (10 : ℚ) ^ (s.dweight + 1 - s.decdigits.length) := by gcongr
      _ = (10 : ℚ) ^ (s.dweight + 1) := by
        rw [← zpow_add₀ (by norm_num)]
        congr 1
        ring
  have hle := h.normal.le_mag hnil
  rw [nbase_zpow] at hle
  have := (zpow_lt_zpow_iff_right₀ (by norm_num : (1 : ℚ) < 10)).mp (hle.trans_lt hmag)
  simp only [maxDweight, maxWeight] at *
  omega

variable {s0 : Scan}

theorem Regrouped.mag_eq_numeral (n : Numeral) (hsc : Scanned cs (-1) 0 n.int n.frac s0)
    (hshift : Shifted s0 n.exp s) (hreg : Regrouped typemod sign s d) :
    d.mag = beVal 10 n.digits * (10 : ℚ) ^ (n.exp - (n.frac.getD []).length) := by
  rw [hreg.mag, hshift.decdigits, hsc.digits, hshift.dweight, hsc.dweight, Numeral.digits]
  congr 2
  rw [List.length_append]
  push_cast
  ring

theorem Regrouped.shown (n : Numeral) (hsc : Scanned cs (-1) 0 n.int n.frac s0)
    (hshift : Shifted s0 n.exp s) (hreg : Regrouped typemod sign s d) : d.Shown := by
  obtain ⟨k, hk⟩ : ∃ k : ℕ, n.exp - (n.frac.getD []).length + d.dscale = k := by
    refine Int.eq_ofNat_of_zero_le ?_
    rw [hreg.dscale, hshift.dscale, hsc.dscale]
    omega
  refine ⟨beVal 10 n.digits * 10 ^ k, ?_⟩
  rw [hreg.mag_eq_numeral n hsc hshift, mul_assoc, ← zpow_add₀ (by norm_num), hk, zpow_natCast]
  push_cast
  rfl

variable {value ws : List Char} {n : Numeral}

theorem ofScan_readNumber (typemod : ℤ) (hws : ∀ c ∈ ws, isSpace c = true)
    (htext : value = spacedText n ws) (hsc : Scanned cs (-1) 0 n.int n.frac s0)
    (hshift : Shifted s0 n.exp s) (hdw : s.dweight < maxDweight) (hds : s.dscale ≤ maxDscale) :
    ∃ d, ofScan typemod (if n.sign = some .minus then .neg else .pos) s = some d
      ∧ ReadNumber typemod value n ws d := by
  have hlt : ∀ d ∈ s.decdigits, d < 10 := by
    rw [hshift.decdigits, hsc.digits]
    exact hsc.digits_lt
  have hsign : (if n.sign = some .minus then Sign.neg else .pos) = .pos
      ∨ (if n.sign = some .minus then Sign.neg else .pos) = .neg := by
    split
    · exact .inr rfl
    · exact .inl rfl
  have hlimits : InLimits n := by
    rw [hshift.dweight, hsc.dweight] at hdw
    rw [hshift.dscale, hsc.dscale] at hds
    exact ⟨hshift.exp_le, hshift.le_exp, by omega, by omega⟩
  obtain ⟨d, hd, hreg⟩ := ofScan_spec typemod hsign hlt
  refine ⟨d, hd, hws, htext, ?_, ?_, hreg.shown n hsc hshift, hreg.normal, hreg.zero,
    hreg.weight_lt hlt hdw, hlimits, hreg.typemod, hreg.isOwn, hreg.front⟩
  · rw [hreg.value, signed_eq_signFactor, hreg.mag_eq_numeral n hsc hshift]
    rfl
  · rw [hreg.dscale, hshift.dscale, hsc.dscale, zero_add]

/-- **What a text gives**: it is refused, or it is a numeral that may have white space in its
exponent. -/
theorem fromStr_reads (hword : specialWord value = none) :
    (∀ typemod, ∃ rc, fromStr typemod value = some (.error rc)) ∨ ∃ n ws, ∀ typemod, ∃ d,
      ReadNumber typemod value n ws d ∧ fromStr typemod value = checked (d.withTypmod typemod) := by
  simp only [fromStr, hword]
  have htext := takeSign_spec value
  generalize takeSign value = t at *
  cases hread : readScan t.2 with
  | error rc => exact .inl fun _ => ⟨rc, rfl⟩
  | ok s =>
    dsimp only
    by_cases hbound : maxDweight ≤ s.dweight ∨ maxDscale < s.dscale
    · simp only [if_pos hbound]
      exact .inl fun _ => ⟨_, rfl⟩
    by_cases hrest : s.rest = []
    · obtain ⟨int, frac, s0, hsc, hne, hexp⟩ := readScan_spec hread
      obtain ⟨e, ws, hws, hrest0, hshift⟩ := parseExponent_spec hexp hrest
        (by rw [hsc.dscale]; omega)
      have hmantissa := hsc.text
      have hnonempty : int ++ frac.getD [] ≠ [] := by rwa [← hsc.digits]
      have htext' : value = spacedText ⟨t.1, int, frac, e, hsc.digits_lt, hnonempty⟩ ws := by
        rw [htext, spacedText, append_assoc, ← hrest0, ← hmantissa]
      refine .inr ⟨⟨t.1, int, frac, e, hsc.digits_lt, hnonempty⟩, ws, fun typemod => ?_⟩
      obtain ⟨d, hd, hnum⟩ := ofScan_readNumber typemod hws htext' hsc hshift (by omega) (by omega)
      rw [if_neg hbound, if_neg (not_not.mpr hrest), hd]
      exact ⟨d, hnum, rfl⟩
    · simp only [if_neg hbound, if_pos hrest]
      exact .inl fun _ => ⟨_, rfl⟩

theorem fromStr_cases (typemod : ℤ) (hword : specialWord value = none) :
    (∃ rc, fromStr typemod value = some (.error rc)) ∨ ∃ n ws d,
      ReadNumber typemod value n ws d ∧ fromStr typemod value = checked (d.withTypmod typemod) := by
  rcases fromStr_reads hword with hrefused | ⟨n, ws, hread⟩
  · exact .inl (hrefused typemod)
  · obtain ⟨d, hd⟩ := hread typemod
    exact .inr ⟨n, ws, d, hd⟩

theorem withTypmod_plain (d : Decimal) : d.withTypmod (-1) = some (.ok d) := rfl

theorem ReadNumber.isOutOfBound (h : ReadNumber typemod value n ws d) : d.isOutOfBound = false :=
  isOutOfBound_eq_false.mpr ⟨h.weight_lt, h.dscale_le⟩

theorem ReadNumber.checked_plain (h : ReadNumber typemod value n ws d) :
    checked (d.withTypmod (-1)) = some (.ok d) := by
  rw [withTypmod_plain, checked, Option.map_some, Except.bind, h.isOutOfBound]
  rfl

theorem fromStr_plain (hword : specialWord value = none) :
    (∃ rc, fromStr (-1) value = some (.error rc)) ∨ ∃ n ws d,
      ReadNumber (-1) value n ws d ∧ fromStr (-1) value = some (.ok d) := by
  refine (fromStr_cases (-1) hword).imp_right ?_
  rintro ⟨n, ws, d, hread, hfrom⟩
  exact ⟨n, ws, d, hread, hfrom.trans hread.checked_plain⟩

end Decimal

end Novachains.Bson
