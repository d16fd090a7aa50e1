import Novachains.Bson.Mul
import Novachains.Bson.Parse

/-!
# Decimals as texts

`decimal_to_str` writes the digits in front of the point without leading zeros, then as many
decimals as the display scale says, in groups of four that may go past the end of the text, and sets
the terminator where it ends.  `_decimal_sprint_len` announces how many bytes that takes.
-/

namespace Novachains.Bson

open Lib Lib.Numeral List

def splitDigit (dig : ℕ) : List ℕ :=
  let d1 := dig / 1000
  let dig := dig - d1 * 1000
  let d2 := dig / 100
  let dig := dig - d2 * 100
  let d3 := dig / 10
  [d1, d2, d3, dig - d3 * 10]

/-- The decimal digits of the first digit, of which leading zeros are suppressed. -/
def firstDigits (dig : ℕ) : List ℕ :=
  ((splitDigit dig).take 3).dropWhile (· = 0) ++ (splitDigit dig).drop 3

structure Output where
  written : List Char
  text : List Char
  deriving DecidableEq, Repr

def Output.bytes (o : Output) : ℕ := max o.written.length (o.text.length + 1)

namespace Decimal

/-- `_decimal_sprint_len`. -/
def sprintLen (sign : Sign) (weight scale : ℤ) : ℤ :=
  if sign = .special ∧ scale = 0 then 3 + 1
  else if sign = .special ∧ scale = 1 then 3 + 1
  else if sign = .special ∧ scale = 2 then 3 + 1
  else
    let tmpSize := (weight + 1) * decDigits
    let tmpSize := if tmpSize ≤ 0 then 1 else tmpSize
    tmpSize + (scale + decDigits + 2)

def intGroups (d : Decimal) : List ℕ :=
  (List.range (d.weight + 1).toNat).map fun k : ℕ => digitAt d.digits k

def fracGroups (d : Decimal) : List ℕ :=
  (List.range ((d.dscale.toNat + 3) / decDigits)).map fun k : ℕ =>
    digitAt d.digits (d.weight + 1 + k)

def intDigits (d : Decimal) : List ℕ :=
  match d.intGroups with
  | [] => [0]
  | x :: xs => firstDigits x ++ xs.flatMap splitDigit

def intText (d : Decimal) : List Char :=
  (if d.sign = .neg then ['-'] else []) ++ d.intDigits.map digitChar

def fracDigits (d : Decimal) : List ℕ := d.fracGroups.flatMap splitDigit

/-- `decimal_to_str`, into a buffer of `valueSize` bytes. -/
def toStr (d : Decimal) (valueSize : ℤ) : Except Rc Output :=
  if valueSize < sprintLen d.sign d.weight d.dscale then .error .invalidArg
  else if d.isNan then .ok ⟨['N', 'a', 'N'], ['N', 'a', 'N']⟩
  else if d.isMin then .ok ⟨['M', 'I', 'N'], ['M', 'I', 'N']⟩
  else if d.isMax then .ok ⟨['M', 'A', 'X'], ['M', 'A', 'X']⟩
  else if 0 < d.dscale then
    let head := d.intText ++ ['.']
    let frac := d.fracDigits.map digitChar
    let padded := frac ++ List.replicate (d.dscale.toNat - frac.length) '0'
    .ok ⟨head ++ padded, head ++ padded.take d.dscale.toNat⟩
  else .ok ⟨d.intText, d.intText⟩

end Decimal

theorem splitDigit_eq (x : ℕ) :
    splitDigit x = [x / 1000, x / 100 % 10, x / 10 % 10, x % 10] := by
  simp only [splitDigit, List.cons.injEq, and_true, true_and]
  omega

variable {x : ℕ}

theorem splitDigit_written (hx : x < nbase) : Written 10 4 (splitDigit x) := by
  rw [splitDigit_eq]
  refine .cons ?_ (.cons ?_ (.cons ?_ (.cons ?_ .nil)))
  · simp only [nbase] at hx
    omega
  · exact Nat.mod_lt _ (by decide)
  · exact Nat.mod_lt _ (by decide)
  · exact Nat.mod_lt _ (by decide)

theorem beVal_splitDigit (x : ℕ) : beVal 10 (splitDigit x) = x := by
  rw [splitDigit_eq]
  simp only [beVal_cons, length_cons, length_nil, beVal_nil]
  omega

theorem beVal_dropWhile_zero (b : ℕ) (ds : List ℕ) : beVal b (ds.dropWhile (· = 0)) = beVal b ds := by
  induction ds with
  | nil => rfl
  | cons d ds ih =>
    by_cases hd : d = 0
    · rw [dropWhile_cons_of_pos (by simpa using hd), ih, beVal_cons, hd, zero_mul, zero_add]
    · rw [dropWhile_cons_of_neg (by simpa using hd)]

theorem splitDigits_written {xs : List ℕ} (h : ∀ x ∈ xs, x < nbase) :
    Written 10 (4 * xs.length) (xs.flatMap splitDigit) := by
  induction xs with
  | nil => exact .nil
  | cons x xs ih =>
    obtain ⟨hx, hxs⟩ := forall_mem_cons.mp h
    have hfirst := splitDigit_written hx
    have hrest := ih hxs
    refine ⟨?_, ?_⟩
    · rw [flatMap_cons, List.length_append, hfirst.length, hrest.length, length_cons]
      ring
    · rw [flatMap_cons]
      exact forall_mem_append.mpr ⟨hfirst.lt, hrest.lt⟩

theorem nbase_pow (n : ℕ) : 10 ^ (4 * n) = nbase ^ n := by
  rw [pow_mul]
  rfl

theorem beVal_splitDigits {xs : List ℕ} (h : ∀ x ∈ xs, x < nbase) :
    beVal 10 (xs.flatMap splitDigit) = beVal nbase xs := by
  induction xs with
  | nil => rfl
  | cons x xs ih =>
    obtain ⟨-, hxs⟩ := forall_mem_cons.mp h
    rw [flatMap_cons, beVal_append, beVal_splitDigit, (splitDigits_written hxs).length, ih hxs,
      beVal_cons, nbase_pow]

structure FirstDigits (x : ℕ) (ds : List ℕ) : Prop where
  value : beVal 10 ds = x
  lt : ∀ d ∈ ds, d < 10
  ne_nil : ds ≠ []
  length_le : ds.length ≤ 4

theorem firstDigits_spec (hx : x < nbase) : FirstDigits x (firstDigits x) where
  value := by
    rw [firstDigits, beVal_append, beVal_dropWhile_zero, ← beVal_append, take_append_drop,
      beVal_splitDigit]
  lt := by
    intro d hd
    rcases mem_append.mp hd with hd | hd
    · exact (splitDigit_written hx).lt d
        (mem_of_mem_take ((dropWhile_suffix _).subset hd))
    · exact (splitDigit_written hx).lt d (mem_of_mem_drop hd)
  ne_nil := by
    rw [firstDigits, splitDigit_eq]
    simp
  length_le := by
    have hdrop : (((splitDigit x).take 3).dropWhile (· = 0)).length ≤ 3 :=
      (dropWhile_suffix _).length_le.trans (length_take_le 3 _)
    have hlast : ((splitDigit x).drop 3).length = 1 := by rw [splitDigit_eq]; rfl
    rw [firstDigits, List.length_append, hlast]
    omega

namespace Decimal

variable {d : Decimal}

/-! ## The digits that are written -/

theorem intGroups_length : d.intGroups.length = (d.weight + 1).toNat := by
  rw [intGroups, length_map, length_range]

theorem fracGroups_length : d.fracGroups.length = (d.dscale.toNat + 3) / decDigits := by
  rw [fracGroups, length_map, length_range]

theorem intGroups_lt (h : d.DigitsOk) : ∀ x ∈ d.intGroups, x < nbase := by
  intro x hx
  obtain ⟨k, -, rfl⟩ := List.mem_map.mp hx
  exact digitAt_lt h _

theorem fracGroups_lt (h : d.DigitsOk) : ∀ x ∈ d.fracGroups, x < nbase := by
  intro x hx
  obtain ⟨k, -, rfl⟩ := List.mem_map.mp hx
  exact digitAt_lt h _

structure IntDigits (d : Decimal) (ds : List ℕ) : Prop where
  value : beVal 10 ds = beVal nbase d.intGroups
  lt : ∀ x ∈ ds, x < 10
  ne_nil : ds ≠ []
  length_le : (ds.length : ℤ) ≤ max ((d.weight + 1) * 4) 1

theorem intDigits_spec (h : d.DigitsOk) : IntDigits d d.intDigits := by
  have hlt := intGroups_lt h
  have hlen := intGroups_length (d := d)
  unfold intDigits
  cases hgroups : d.intGroups with
  | nil => exact ⟨by rw [hgroups]; rfl, by simp, by simp, by simp⟩
  | cons x xs =>
    rw [hgroups] at hlt hlen
    obtain ⟨hx, hxs⟩ := forall_mem_cons.mp hlt
    have hfirst := firstDigits_spec hx
    have hrest := splitDigits_written hxs
    refine ⟨?_, forall_mem_append.mpr ⟨hfirst.lt, hrest.lt⟩, ?_, ?_⟩
    · rw [hgroups, beVal_append, hfirst.value, hrest.length, beVal_splitDigits hxs, beVal_cons,
        nbase_pow]
    · simp [hfirst.ne_nil]
    have hle := hfirst.length_le
    rw [length_cons] at hlen
    rw [List.length_append, hrest.length]
    omega

theorem intGroups_getElem (k : ℕ) (h : k < d.intGroups.length) :
    d.intGroups[k] = digitAt d.digits k := by simp [intGroups]

theorem fracGroups_getElem (k : ℕ) (h : k < d.fracGroups.length) :
    d.fracGroups[k] = digitAt d.digits (d.weight + 1 + k) := by simp [fracGroups]

theorem groups_reverse (d : Decimal) : (d.intGroups ++ d.fracGroups).reverse
    = (List.range ((d.weight + 1).toNat + d.fracGroups.length)).map fun k : ℕ =>
      digitAt d.digits (d.fracGroups.length + d.weight - k) := by
  refine ext_getElem ?_ ?_
  · rw [length_reverse, List.length_append, intGroups_length, length_map, length_range]
  intro i h1 h2
  have hi : i < d.intGroups.length + d.fracGroups.length := by
    rwa [length_reverse, List.length_append] at h1
  have hlen := intGroups_length (d := d)
  have hsum : (d.intGroups ++ d.fracGroups).length = _ := List.length_append
  rw [getElem_reverse, getElem_map, getElem_range, getElem_append]
  split
  · rw [intGroups_getElem]
    congr 1
    omega
  · rw [fracGroups_getElem]
    congr 1
    omega

structure Readable (d : Decimal) : Prop where
  normal : d.Normal
  shown : d.Shown
  zero : d.digits = [] → d.weight = 0
  dscale_nonneg : 0 ≤ d.dscale
  weight_lt : d.weight < maxWeight
  dscale_le : d.dscale ≤ maxDscale

variable {text : List Char} {n : Numeral}

theorem ReadNumber.readable {typemod : ℤ} {ws : List Char} (h : ReadNumber typemod text n ws d) :
    d.Readable :=
  ⟨h.normal, h.shown, h.zero, by rw [h.dscale]; exact le_max_right _ _, h.weight_lt, h.dscale_le⟩

theorem Readable.rscale_le (h : d.Readable) : d.rscale ≤ d.fracGroups.length := by
  rw [fracGroups_length, rscale]
  by_cases hnil : d.digits = []
  · have hnonneg := Int.natCast_nonneg ((d.dscale.toNat + 3) / decDigits)
    rw [hnil, h.zero hnil, length_nil]
    exact hnonneg.trans' (by decide)
  have hlt := h.normal.lt_dscale h.shown hnil
  have := h.dscale_nonneg
  simp only [decDigits]
  omega

theorem Readable.mag_lt_groups (h : d.Readable) :
    d.mag < (nbase : ℚ) ^ (((d.weight + 1).toNat : ℤ) - 1 + 1) :=
  (mag_lt h.normal.digits).trans_le (zpow_le_zpow_right₀ (by norm_num) (by omega))

theorem fracDigits_written (h : d.DigitsOk) :
    Written 10 (4 * d.fracGroups.length) d.fracDigits := splitDigits_written (fracGroups_lt h)

theorem Readable.beVal_digits (h : d.Readable) :
    (beVal 10 (d.intDigits ++ d.fracDigits) : ℚ) = d.mag * 10 ^ (4 * d.fracGroups.length) := by
  have hint := intDigits_spec h.normal.digits
  have halign := align_mag h.normal.digits h.rscale_le
    (W := ((d.weight + 1).toNat : ℤ) - 1) (n := (d.weight + 1).toNat + d.fracGroups.length)
    (by push_cast; ring) h.mag_lt_groups
  have hgroups : beVal 10 (d.intDigits ++ d.fracDigits) =
      beVal nbase (d.intGroups ++ d.fracGroups) := by
    rw [beVal_append, hint.value, (fracDigits_written h.normal.digits).length, fracDigits,
      beVal_splitDigits (fracGroups_lt h.normal.digits), nbase_pow, ← beVal_append]
  rw [hgroups, beVal, groups_reverse, ← halign, mul_assoc, zpow_neg, zpow_natCast]
  have hpow : (10 : ℚ) ^ (4 * d.fracGroups.length) = (nbase : ℚ) ^ d.fracGroups.length := by
    exact_mod_cast nbase_pow _
  rw [hpow, inv_mul_cancel₀ (by positivity), mul_one]

/-- **The decimal digits of the text** make the absolute value: none that counts is cut off. -/
theorem Readable.beVal_text (h : d.Readable) :
    (beVal 10 (d.intDigits ++ d.fracDigits.take d.dscale.toNat) : ℚ) * 10 ^ (-d.dscale) = d.mag := by
  obtain ⟨n, hn⟩ := Int.eq_ofNat_of_zero_le h.dscale_nonneg
  obtain ⟨m, hm⟩ := h.shown
  have hint := intDigits_spec h.normal.digits
  have hfrac := fracDigits_written h.normal.digits
  have hle : n ≤ 4 * d.fracGroups.length := by
    rw [fracGroups_length, hn]
    simp only [decDigits, Int.toNat_natCast]
    omega
  -- the decimals that are cut off are zeros, since all digits make a multiple of their unit
  have hall : beVal 10 (d.intDigits ++ d.fracDigits) = m * 10 ^ (4 * d.fracGroups.length - n) := by
    have hrat : (beVal 10 (d.intDigits ++ d.fracDigits) : ℚ)
        = m * 10 ^ (4 * d.fracGroups.length - n) := by
      rw [h.beVal_digits, ← hm, hn, zpow_natCast, mul_assoc, ← pow_add, Nat.add_sub_cancel' hle]
    exact_mod_cast hrat
  have htake : d.intDigits ++ d.fracDigits.take n
      = (d.intDigits ++ d.fracDigits).take (d.intDigits.length + n) := by
    rw [take_length_add_append]
  have hdigits : ∀ x ∈ d.intDigits ++ d.fracDigits, x < 10 :=
    forall_mem_append.mpr ⟨hint.lt, hfrac.lt⟩
  have hcut : (d.intDigits ++ d.fracDigits).length - (d.intDigits.length + n)
      = 4 * d.fracGroups.length - n := by
    rw [List.length_append, hfrac.length]
    omega
  rw [hn] at hm
  rw [hn, Int.toNat_natCast, htake, beVal_take (by decide) hdigits, hcut, hall,
    Nat.mul_div_cancel _ (by positivity), ← hm, mul_assoc, ← zpow_add₀ (by norm_num),
    add_neg_cancel, zpow_zero, mul_one]

def shownFrac (d : Decimal) : Option (List ℕ) :=
  if 0 < d.dscale then some (d.fracDigits.take d.dscale.toNat) else none

theorem shownFrac_getD (d : Decimal) :
    d.shownFrac.getD [] = d.fracDigits.take d.dscale.toNat := by
  rw [shownFrac]
  split
  · rfl
  · rename_i h
    rw [Int.toNat_of_nonpos (not_lt.mp h)]
    rfl

def signMark (d : Decimal) : Option SignMark := if d.sign = .neg then some .minus else none

theorem Readable.isSpecial (h : d.Readable) : d.isSpecial = false := isSpecial_of_finite h.normal.finite

theorem sprintLen_finite (h : d.isSpecial = false) :
    sprintLen d.sign d.weight d.dscale = max ((d.weight + 1) * 4) 1 + d.dscale + 6 := by
  have hs : d.sign ≠ .special := by simpa [Decimal.isSpecial] using h
  simp only [sprintLen, hs, false_and, if_false, decDigits]
  split <;> omega

structure Printed (d : Decimal) (o : Output) : Prop where
  text : o.text = signText d.signMark ++ mantissaText d.intDigits d.shownFrac
  bytes_le : (o.bytes : ℤ) ≤ sprintLen d.sign d.weight d.dscale

theorem signText_length (d : Decimal) : (signText d.signMark).length ≤ 1 := by
  rw [signMark]
  split <;> simp [signText]

theorem intText_eq (d : Decimal) : d.intText = signText d.signMark ++ d.intDigits.map digitChar := by
  rw [intText, signMark]
  split <;> rfl

theorem toStr_finite (h : d.isSpecial = false) {valueSize : ℤ}
    (hsize : sprintLen d.sign d.weight d.dscale ≤ valueSize) :
    toStr d valueSize = if 0 < d.dscale then
      let head := d.intText ++ ['.']
      let frac := d.fracDigits.map digitChar
      let padded := frac ++ List.replicate (d.dscale.toNat - frac.length) '0'
      .ok ⟨head ++ padded, head ++ padded.take d.dscale.toNat⟩
    else .ok ⟨d.intText, d.intText⟩ := by
  rw [toStr, if_neg (not_lt.mpr hsize)]
  simp [isNan, isMin, isMax, h]

theorem Readable.fracDigits_length (h : d.Readable) :
    d.dscale ≤ d.fracDigits.length ∧ d.fracDigits.length ≤ d.dscale + 3 := by
  rw [(fracDigits_written h.normal.digits).length, fracGroups_length]
  have := h.dscale_nonneg
  simp only [decDigits]
  omega

/-- **The announced bytes are enough** for all that is written. -/
theorem toStr_spec (h : d.Readable) {valueSize : ℤ}
    (hsize : sprintLen d.sign d.weight d.dscale ≤ valueSize) :
    ∃ o, toStr d valueSize = .ok o ∧ Printed d o := by
  have hsign := signText_length d
  have hint := (intDigits_spec h.normal.digits).length_le
  have hnonneg := h.dscale_nonneg
  rw [toStr_finite h.isSpecial hsize]
  split
  · rename_i hpos
    obtain ⟨henough, hmore⟩ := h.fracDigits_length
    have hpad : d.dscale.toNat - (d.fracDigits.map digitChar).length = 0 := by
      rw [length_map]
      omega
    refine ⟨_, rfl, ?_, ?_⟩
    · simp only [hpad, replicate_zero, append_nil]
      rw [intText_eq, shownFrac, if_pos hpos, mantissaText, map_take]
      simp
    rw [sprintLen_finite h.isSpecial, Output.bytes, intText_eq]
    simp only [List.length_append, length_map, length_cons, length_nil,
      length_take, length_replicate]
    omega
  · rename_i hpos
    refine ⟨_, rfl, ?_, ?_⟩
    · rw [intText_eq, shownFrac, if_neg hpos]
      rfl
    · rw [sprintLen_finite h.isSpecial, Output.bytes, intText_eq]
      simp only [List.length_append, length_map]
      omega

/-! ## Reading the text again -/

/-- A text that is a word for a special value, in either case of its letters. -/
def Names (text : List Char) (d : Decimal) : Prop :=
  (text.map Char.toLower = ['n', 'a', 'n'] ∧ d.isNan = true)
    ∨ ((text.map Char.toLower = ['m', 'i', 'n'] ∨ text.map Char.toLower = ['-', 'i', 'n', 'f'])
      ∧ d.isMin = true)
    ∨ ((text.map Char.toLower = ['m', 'a', 'x'] ∨ text.map Char.toLower = ['i', 'n', 'f'])
      ∧ d.isMax = true)

theorem spells_toLower {ls us cs : List Char} (h : spells ls us cs = true)
    (hl : ls.map Char.toLower = ls) (hu : us.map Char.toLower = ls) : cs.map Char.toLower = ls := by
  induction ls generalizing us cs with
  | nil =>
    match us, cs, h with
    | [], [], _ => rfl
  | cons l ls ih =>
    match us, cs, h with
    | u :: us, c :: cs, h =>
      simp only [spells, Bool.and_eq_true, Bool.or_eq_true, decide_eq_true_eq] at h
      obtain ⟨hc, hcs⟩ := h
      obtain ⟨hl1, hls⟩ := List.cons.inj hl
      obtain ⟨hu1, hus⟩ := List.cons.inj hu
      rw [map_cons, ih hcs hls hus]
      rcases hc with rfl | rfl
      · rw [hl1]
      · rw [hu1]

theorem specialWord_spec (h : specialWord text = some d) :
    (d = setNan ∨ d = setMin ∨ d = setMax) ∧ Names text d := by
  simp only [specialWord] at h
  split_ifs at h with h1 h2 h3 h4 h5 <;> cases h
  · exact ⟨.inl rfl, .inl ⟨spells_toLower h1 rfl rfl, rfl⟩⟩
  · exact ⟨.inr (.inl rfl), .inr (.inl ⟨.inl (spells_toLower h2 rfl rfl), rfl⟩)⟩
  · exact ⟨.inr (.inr rfl), .inr (.inr ⟨.inl (spells_toLower h3 rfl rfl), rfl⟩)⟩
  · exact ⟨.inr (.inr rfl), .inr (.inr ⟨.inr (spells_toLower h4 rfl rfl), rfl⟩)⟩
  · exact ⟨.inr (.inl rfl), .inr (.inl ⟨.inr (spells_toLower h5 rfl rfl), rfl⟩)⟩

theorem toLower_of_lt {c : Char} (h : c.toNat < 65) : c.toLower = c := by
  refine dif_neg fun hup => ?_
  have hge : 65 ≤ c.toNat := UInt32.le_iff_toNat_le.mp hup.1
  omega

theorem specialWord_numeral (n : Numeral) : specialWord n.text = none := by
  cases hword : specialWord n.text with
  | none => rfl
  | some d =>
    obtain ⟨c, hc, hdigit⟩ := n.exists_isDigit_mem_text
    have hlower : c.toLower = c := toLower_of_lt (by have := (isDigit_iff.mp hdigit).2; omega)
    have hmem : ∀ word, n.text.map Char.toLower = word → c ∈ word := by
      rintro word rfl
      rw [← hlower]
      exact List.mem_map_of_mem hc
    have hno : ∀ word : List Char, word.any Char.isDigit = false →
        n.text.map Char.toLower ≠ word := by
      intro word hword heq
      exact List.any_eq_false.mp hword c (hmem word heq) hdigit
    obtain ⟨-, hnames⟩ := specialWord_spec hword
    rcases hnames with ⟨h, -⟩ | ⟨h | h, -⟩ | ⟨h | h, -⟩ <;> exact absurd h (hno _ (by decide))

theorem isSpace_digitChar (h : x < 10) : isSpace (digitChar x) = false := by
  revert x
  decide

theorem takeSign_signText (sign : Option SignMark) {cs : List Char} (h : NoSign cs) :
    takeSign (signText sign ++ cs) = (sign, cs) := by
  match sign with
  | some .plus => rfl
  | some .minus => rfl
  | none =>
    rw [signText, nil_append]
    unfold takeSign
    split
    · exact absurd rfl (h '+' rfl).1
    · exact absurd rfl (h '-' rfl).2
    · rfl

theorem strtoll_digits (sign : Option SignMark) {ds : List ℕ} (hlt : ∀ d ∈ ds, d < 10)
    (hne : ds ≠ []) : strtoll (signText sign ++ ds.map digitChar)
      = some (clampLong (signFactor sign * beVal 10 ds), []) := by
  have hsign := takeSign_signText sign
    (by simpa using noSign_digits hlt (r := []) (by simp [NoSign]))
  have hspace : (signText sign ++ ds.map digitChar).dropWhile isSpace
      = signText sign ++ ds.map digitChar := by
    obtain ⟨x, xs, rfl⟩ := exists_cons_of_ne_nil hne
    have hx := isSpace_digitChar (hlt x mem_cons_self)
    cases sign with
    | none => exact dropWhile_cons_of_neg (by simp [hx])
    | some mark => cases mark <;> rfl
  have hdigits : ∀ c ∈ ds.map digitChar, c.isDigit = true := by
    intro c hc
    obtain ⟨x, hx, rfl⟩ := List.mem_map.mp hc
    exact isDigit_digitChar (hlt x hx)
  have hback : (ds.map digitChar).map digitVal = ds := by
    rw [List.map_map]
    exact (map_congr_left fun x hx => digitVal_digitChar (hlt x hx)).trans (List.map_id _)
  rw [strtoll, hspace, hsign]
  simp only [takeWhile_eq_self_iff.mpr hdigits, dropWhile_eq_nil_iff.mpr hdigits, hback]
  rw [if_neg (by simpa using hne)]

theorem stops_exponentText (e : Option Exponent) : Stops (Numeral.exponentText e) := by
  intro dp dw ds
  rcases Numeral.exponentText_cases e with h | ⟨c, cs, h, rfl | rfl⟩ <;> rw [h]
  · rfl
  · rfl
  · rfl

theorem parseExponent_text (h : InLimits n) {ds : List ℕ} {dw sc : ℤ} (hsc : 0 ≤ sc) :
    parseExponent ⟨ds, dw, sc, Numeral.exponentText n.exponent⟩
      = .ok ⟨ds, dw + n.exp, max (sc - n.exp) 0, []⟩ := by
  obtain ⟨hle, hge⟩ := And.intro h.exp_le h.le_exp
  rw [Numeral.exp] at hle hge ⊢
  generalize n.exponent = e at hle hge ⊢
  cases e with
  | none => simp [parseExponent, Numeral.exponentText, hsc]
  | some e =>
    simp only [Option.map_some, Option.getD_some, Exponent.value] at hle hge ⊢
    have hclamp : clampLong (signFactor e.sign * beVal 10 e.digits)
        = signFactor e.sign * beVal 10 e.digits := by
      simp only [clampLong, maxPrecision] at *
      omega
    have hletter : (if e.upper then 'E' else 'e') = 'e' ∨ (if e.upper then 'E' else 'e') = 'E' := by
      cases e.upper <;> simp
    simp only [parseExponent, Numeral.exponentText, Option.map_some, Option.getD_some, Exponent.text]
    rw [if_pos hletter, strtoll_digits e.sign e.digits_lt e.nonempty, hclamp]
    dsimp only
    rw [if_neg (by omega)]

theorem readScan_mantissa {int : List ℕ} {frac : Option (List ℕ)} {rest : List Char} {s : Scan}
    (hlt : ∀ d ∈ int ++ frac.getD [], d < 10) (hne : int ++ frac.getD [] ≠ [])
    (hscan : scanDigits false (-1) 0 (mantissaText int frac ++ rest) = .ok s) :
    readScan (mantissaText int frac ++ rest) = parseExponent s := by
  rw [readScan]
  cases int with
  | cons x xs =>
    have hdigit := isDigit_digitChar (hlt x (by simp))
    have hpoint : digitChar x ≠ '.' := by
      intro h
      rw [h] at hdigit
      cases hdigit
    rw [mantissaText_cons, cons_append] at hscan ⊢
    simp only [head?_cons, Option.some.injEq, hpoint, decide_false, Bool.false_eq_true, if_false,
      Option.any_some, hdigit, if_true, hscan, Except.bind]
  | nil =>
    -- the digits are behind a point that comes first
    rcases frac with - | - | ⟨x, xs⟩
    · exact absurd rfl hne
    · exact absurd rfl hne
    · have hdigit := isDigit_digitChar (hlt x (by simp))
      change scanDigits false (-1) 0 ('.' :: (digitChar x :: (xs.map digitChar ++ rest))) = _ at hscan
      rw [scanDigits, if_neg (by decide), if_pos rfl, if_neg (by decide)] at hscan
      simp only [mantissaText, map_nil, nil_append, map_cons, cons_append, head?_cons, decide_true,
        if_true, tail_cons, Option.any_some, hdigit, hscan, Except.bind]

/-- **A numeral in the limits is read.** -/
theorem fromStr_numeral (h : InLimits n) :
    ∃ d, fromStr (-1) n.text = some (.ok d) ∧ ReadNumber (-1) n.text n [] d := by
  obtain ⟨hle, hge, hint, hfrac⟩ := h
  simp only [maxPrecision, maxDweight, maxDscale] at hle hge hint hfrac
  have hsign : takeSign n.text
      = (n.sign, mantissaText n.int n.frac ++ Numeral.exponentText n.exponent) := by
    rw [Numeral.text, append_assoc]
    refine takeSign_signText n.sign ?_
    have hlt := (forall_mem_append.mp n.digits_lt).1
    have hno := noSign_digits hlt (Numeral.noSign_tailText n.frac n.exponent)
    cases hf : n.frac <;> simpa [hf, mantissaText, Numeral.tailText, Numeral.exponentText] using hno
  have hscan : scanDigits false (-1) 0 (mantissaText n.int n.frac ++ _) = _ :=
    scanDigits_mantissa (stops_exponentText n.exponent) n.digits_lt
      (by simp only [maxDweight, maxPrecision]; omega) (by simp only [maxDscale, maxPrecision]; omega)
  have hread := (readScan_mantissa n.digits_lt n.nonempty hscan).trans
    (parseExponent_text ⟨hle, hge, hint, hfrac⟩ (by omega))
  have hsc : Scanned (mantissaText n.int n.frac ++ Numeral.exponentText n.exponent) (-1) 0 n.int n.frac
      ⟨n.int ++ n.frac.getD [], -1 + n.int.length, 0 + (n.frac.getD []).length,
        Numeral.exponentText n.exponent⟩ := ⟨rfl, rfl, n.digits_lt, rfl, rfl⟩
  obtain ⟨d, hd, hnum⟩ := ofScan_readNumber (-1) (forall_mem_nil _) (spacedText_nil n).symm hsc
    (s := ⟨n.int ++ n.frac.getD [], -1 + n.int.length + n.exp,
      max (0 + (n.frac.getD []).length - n.exp) 0, []⟩)
    ⟨hle, hge, rfl, rfl, rfl⟩ (by simp only [maxDweight]; omega) (by simp only [maxDscale]; omega)
  refine ⟨d, ?_, hnum⟩
  rw [fromStr, specialWord_numeral]
  simp only [hsign, hread, hd]
  rw [if_neg (by simp only [maxDweight, maxDscale]; omega), if_neg (by simp)]
  exact hnum.checked_plain

theorem Normal.sign_eq {d' : Decimal} (h : d.Normal) (h' : d'.Normal) (hval : d.value = d'.value) :
    d.sign = d'.sign := by
  have h0 : 0 ≤ d.mag := mag_nonneg
  have h0' : 0 ≤ d'.mag := mag_nonneg
  rcases h.finite with hs | hs <;> rcases h'.finite with hs' | hs' <;> rw [hs, hs']
  · have hpos := h'.mag_pos hs'
    rw [value, value, hs, hs', if_neg (by decide), if_pos rfl] at hval
    linarith
  · have hpos := h.mag_pos hs
    rw [value, value, hs, hs', if_pos rfl, if_neg (by decide)] at hval
    linarith

def numeral (d : Decimal) (h : d.DigitsOk) : Numeral where
  sign := d.signMark
  int := d.intDigits
  frac := d.shownFrac
  exponent := none
  digits_lt := by
    rw [shownFrac_getD]
    exact forall_mem_append.mpr ⟨(intDigits_spec h).lt, fun x hx =>
      (fracDigits_written h).lt x (mem_of_mem_take hx)⟩
  nonempty := by simp [(intDigits_spec h).ne_nil]

theorem Readable.shownFrac_length (h : d.Readable) :
    ((d.shownFrac.getD []).length : ℤ) = d.dscale := by
  have := h.fracDigits_length
  have := h.dscale_nonneg
  rw [shownFrac_getD, length_take]
  omega

theorem Readable.numeral_value (h : d.Readable) :
    (d.numeral h.normal.digits).value = d.value := by
  have htext := h.beVal_text
  rw [← shownFrac_getD] at htext
  have hmag : (beVal 10 (d.numeral h.normal.digits).digits : ℚ)
      * (10 : ℚ) ^ ((d.numeral h.normal.digits).exp - (d.shownFrac.getD []).length) = d.mag := by
    rw [h.shownFrac_length, ← htext]
    congr 2
    exact zero_sub _
  rw [Numeral.value]
  refine (congrArg _ hmag).trans ?_
  rw [← signed_eq_signFactor, value_eq_signed, numeral, signMark]
  rcases h.normal.finite with hs | hs <;> rw [hs] <;> rfl

structure SameNumber (d d' : Decimal) : Prop where
  isNan : d'.isNan = d.isNan
  isMin : d'.isMin = d.isMin
  isMax : d'.isMax = d.isMax
  sign : d'.sign = d.sign
  value : d'.value = d.value
  dscale : d'.dscale = d.dscale

/-- Every buffer of the announced size is enough for the text, which is read as the same number. -/
def RoundTrips (d : Decimal) : Prop :=
  ∀ valueSize, sprintLen d.sign d.weight d.dscale ≤ valueSize → ∃ o, toStr d valueSize = .ok o
    ∧ (o.bytes : ℤ) ≤ sprintLen d.sign d.weight d.dscale
    ∧ ∃ d', fromStr (-1) o.text = some (.ok d') ∧ SameNumber d d'

def Means (text : List Char) (d : Decimal) : Prop :=
  Names text d ∨ ∃ n : Numeral, text = n.text ∧ d.Finite ∧ d.value = n.value

theorem SameNumber.of_readable {d' : Decimal} (h : d.Readable) (h' : d'.Readable)
    (hval : d'.value = d.value) (hscale : d'.dscale = d.dscale) : SameNumber d d' := by
  refine ⟨?_, ?_, ?_, h'.normal.sign_eq h.normal hval, hval, hscale⟩
  · rw [Decimal.isNan, Decimal.isNan, h.isSpecial, h'.isSpecial]
    rfl
  · rw [Decimal.isMin, Decimal.isMin, h.isSpecial, h'.isSpecial]
    rfl
  · rw [Decimal.isMax, Decimal.isMax, h.isSpecial, h'.isSpecial]
    rfl

/-- **A number that was read is printed and read again.** -/
theorem Readable.roundTrips (h : d.Readable) : d.RoundTrips := by
  intro valueSize hsize
  obtain ⟨o, ho, hprint⟩ := toStr_spec h hsize
  have hint := intDigits_spec h.normal.digits
  have hweight := h.weight_lt
  have hscale := h.dscale_le
  have hlen := hint.length_le
  have hfrac := h.shownFrac_length
  have hexp : (d.numeral h.normal.digits).exp = 0 := rfl
  obtain ⟨d', hd', hread⟩ := fromStr_numeral (n := d.numeral h.normal.digits)
    ⟨by rw [hexp]; decide, by rw [hexp]; decide,
      by rw [hexp]; simp only [numeral, maxDweight, maxWeight] at *; omega,
      by rw [hexp]; simp only [numeral, maxDscale] at *; omega⟩
  have htext : (d.numeral h.normal.digits).text = o.text := by
    rw [hprint.text, Numeral.text]
    exact append_nil _
  refine ⟨o, ho, hprint.bytes_le, d', by rwa [← htext], .of_readable h hread.readable ?_ ?_⟩
  · rw [hread.value, h.numeral_value]
  · rw [hread.dscale, ← h.shownFrac_length]
    simp [numeral, Numeral.exp]

theorem roundTrips_special (h : d = setNan ∨ d = setMin ∨ d = setMax) : d.RoundTrips := by
  intro valueSize hsize
  rcases h with rfl | rfl | rfl
  · exact ⟨⟨['N', 'a', 'N'], ['N', 'a', 'N']⟩, if_neg (not_lt.mpr hsize), by decide, setNan, rfl,
      rfl, rfl, rfl, rfl, rfl, rfl⟩
  · exact ⟨⟨['M', 'I', 'N'], ['M', 'I', 'N']⟩, if_neg (not_lt.mpr hsize), by decide, setMin, rfl,
      rfl, rfl, rfl, rfl, rfl, rfl⟩
  · exact ⟨⟨['M', 'A', 'X'], ['M', 'A', 'X']⟩, if_neg (not_lt.mpr hsize), by decide, setMax, rfl,
      rfl, rfl, rfl, rfl, rfl, rfl⟩

/-! ## White space -/

theorem toLower_of_isSpace {c : Char} (h : isSpace c = true) : c.toLower = c := by
  refine toLower_of_lt ?_
  simp only [isSpace, Bool.or_eq_true, decide_eq_true_eq, Bool.and_eq_true] at h
  rcases h with rfl | h
  · decide
  · omega

theorem no_space_of_toLower {word : List Char} (h : text.map Char.toLower = word)
    (hword : word.any isSpace = false) : ∀ c ∈ text, isSpace c = false := by
  intro c hc
  rw [← Bool.not_eq_true]
  intro hspace
  have hmem : c ∈ word := by
    rw [← h, ← toLower_of_isSpace hspace]
    exact List.mem_map_of_mem hc
  exact List.any_eq_false.mp hword c hmem hspace

theorem no_space_signText (sign : Option SignMark) : ∀ c ∈ signText sign, isSpace c = false := by
  match sign with
  | none => simp [signText]
  | some .plus => exact forall_mem_singleton.mpr rfl
  | some .minus => exact forall_mem_singleton.mpr rfl

theorem no_space_digits {ds : List ℕ} (h : ∀ d ∈ ds, d < 10) :
    ∀ c ∈ ds.map digitChar, isSpace c = false := by
  intro c hc
  obtain ⟨x, hx, rfl⟩ := List.mem_map.mp hc
  exact isSpace_digitChar (h x hx)

theorem no_space_numeral (n : Numeral) : ∀ c ∈ n.text, isSpace c = false := by
  obtain ⟨hint, hfrac⟩ := forall_mem_append.mp n.digits_lt
  have hmantissa : ∀ c ∈ mantissaText n.int n.frac, isSpace c = false := by
    cases hf : n.frac with
    | none => exact no_space_digits hint
    | some f =>
      rw [hf] at hfrac
      exact forall_mem_append.mpr ⟨no_space_digits hint,
        forall_mem_cons.mpr ⟨by decide, no_space_digits hfrac⟩⟩
  have hexp : ∀ c ∈ (n.exponent.map Exponent.text).getD [], isSpace c = false := by
    cases n.exponent with
    | none => simp
    | some e =>
      refine forall_mem_cons.mpr ⟨by cases e.upper <;> decide, ?_⟩
      exact forall_mem_append.mpr ⟨no_space_signText _, no_space_digits e.digits_lt⟩
  rw [Numeral.text]
  exact forall_mem_append.mpr
    ⟨forall_mem_append.mpr ⟨no_space_signText _, hmantissa⟩, hexp⟩

theorem Means.no_space (h : Means text d) : ∀ c ∈ text, isSpace c = false := by
  rcases h with (⟨h, -⟩ | ⟨h | h, -⟩ | ⟨h | h, -⟩) | ⟨n, rfl, -⟩
  iterate 5 exact no_space_of_toLower h rfl
  · exact no_space_numeral n

theorem ReadNumber.text_eq {typemod : ℤ} {ws : List Char} (h : ReadNumber typemod text n ws d)
    (hno : ∀ c ∈ text, isSpace c = false) : text = n.text := by
  have htext := h.text
  cases hexp : n.exponent with
  | none =>
    rw [htext, spacedText, Numeral.text, hexp]
    rfl
  | some e =>
    have hws : ws = [] := by
      refine eq_nil_iff_forall_not_mem.mpr fun c hc => ?_
      have hmem : c ∈ text := by
        rw [htext, spacedText, hexp]
        simp [hc]
      have hspace := h.space c hc
      rw [hno c hmem] at hspace
      cases hspace
    rw [htext, hws, spacedText_nil]

structure TextOk (text : List Char) (d : Decimal) : Prop where
  roundTrips : d.RoundTrips
  means : Means text d

/-- **Every text is refused or gives a number that is printed and read again**, the one the text
stands for unless white space was skipped. -/
theorem text_ok_iff (text : List Char) :
    (∃ rc, fromStr (-1) text = some (.error rc))
      ∨ ∃ d, fromStr (-1) text = some (.ok d)
        ∧ (TextOk text d ↔ ∀ c ∈ text, isSpace c = false) := by
  cases hword : specialWord text with
  | some d =>
    obtain ⟨hkind, hnames⟩ := specialWord_spec hword
    have hmeans : Means text d := .inl hnames
    refine .inr ⟨d, by rw [fromStr, hword], fun h => h.means.no_space, fun _ => ?_⟩
    exact ⟨roundTrips_special hkind, hmeans⟩
  | none =>
    refine (fromStr_plain hword).imp_right ?_
    rintro ⟨n, ws, d, hread, hfrom⟩
    refine ⟨d, hfrom, fun h => h.means.no_space, fun hno => ⟨hread.readable.roundTrips, .inr ?_⟩⟩
    exact ⟨n, hread.text_eq hno, hread.normal.finite, hread.value⟩

/-- `1e 5` is accepted. -/
theorem spaced_exponent_accepted : ∃ d, fromStr (-1) ['1', 'e', ' ', '5'] = some (.ok d)
    ∧ ¬ TextOk ['1', 'e', ' ', '5'] d := by
  refine ⟨{ weight := 1, isOwn := true, front := [.zero], digits := [10] }, by decide, fun h => ?_⟩
  cases h.means.no_space ' ' (by decide)

end Decimal

end Novachains.Bson
