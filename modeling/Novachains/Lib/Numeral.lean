import Novachains.Lib.Digits

/-!
# Decimal numerals

A numeral is an optional sign, decimal digits with an optional point among them, and an optional
exponent.  Its text and its value are given here without any reference to a program that reads it.
-/

namespace Novachains.Lib

open List

def digitChar (d : ℕ) : Char := Char.ofNat (d + 48)

def digitVal (c : Char) : ℕ := c.toNat - 48

theorem isDigit_digitChar {d : ℕ} (h : d < 10) : (digitChar d).isDigit = true := by
  revert d
  decide

theorem digitVal_digitChar {d : ℕ} (h : d < 10) : digitVal (digitChar d) = d := by
  revert d
  decide

theorem isDigit_iff {c : Char} : c.isDigit = true ↔ 48 ≤ c.toNat ∧ c.toNat ≤ 57 := by
  simp only [Char.isDigit, Bool.and_eq_true, decide_eq_true_eq, ge_iff_le, UInt32.le_iff_toNat_le]
  rfl

theorem digitVal_lt {c : Char} (h : c.isDigit = true) : digitVal c < 10 := by
  rw [isDigit_iff] at h
  rw [digitVal]
  omega

theorem digitChar_digitVal {c : Char} (h : c.isDigit = true) : digitChar (digitVal c) = c := by
  rw [isDigit_iff] at h
  rw [digitChar, digitVal, Nat.sub_add_cancel h.1, Char.ofNat_toNat]

inductive SignMark
  | plus
  | minus
  deriving DecidableEq, Repr

def signText : Option SignMark → List Char
  | none => []
  | some .plus => ['+']
  | some .minus => ['-']

def signFactor : Option SignMark → ℤ
  | some .minus => -1
  | _ => 1

structure Exponent where
  upper : Bool
  sign : Option SignMark
  digits : List ℕ
  digits_lt : ∀ d ∈ digits, d < 10
  nonempty : digits ≠ []

def Exponent.text (e : Exponent) : List Char :=
  (if e.upper then 'E' else 'e') :: (signText e.sign ++ e.digits.map digitChar)

def Exponent.value (e : Exponent) : ℤ := signFactor e.sign * beVal 10 e.digits

/-- A decimal numeral; `frac` are the digits behind a point. -/
structure Numeral where
  sign : Option SignMark
  int : List ℕ
  frac : Option (List ℕ)
  exponent : Option Exponent
  digits_lt : ∀ d ∈ int ++ frac.getD [], d < 10
  nonempty : int ++ frac.getD [] ≠ []

namespace Numeral

def digits (n : Numeral) : List ℕ := n.int ++ n.frac.getD []

def mantissaText (int : List ℕ) : Option (List ℕ) → List Char
  | none => int.map digitChar
  | some frac => int.map digitChar ++ '.' :: frac.map digitChar

theorem mantissaText_cons (x : ℕ) (int : List ℕ) (frac : Option (List ℕ)) :
    mantissaText (x :: int) frac = digitChar x :: mantissaText int frac := by
  cases frac <;> rfl

theorem digitChar_mem_mantissaText {int : List ℕ} {frac : Option (List ℕ)} {x : ℕ}
    (hx : x ∈ int ++ frac.getD []) : digitChar x ∈ mantissaText int frac := by
  rcases mem_append.mp hx with h | h
  · cases frac with
    | none => exact List.mem_map_of_mem h
    | some f => exact mem_append_left _ (List.mem_map_of_mem h)
  · cases frac with
    | none => simp at h
    | some f => exact mem_append_right _ (mem_cons_of_mem _ (List.mem_map_of_mem h))

def text (n : Numeral) : List Char :=
  signText n.sign ++ mantissaText n.int n.frac ++ (n.exponent.map Exponent.text).getD []

theorem exists_isDigit_mem_text (n : Numeral) : ∃ c ∈ n.text, c.isDigit = true := by
  obtain ⟨x, hx⟩ := exists_mem_of_ne_nil _ n.nonempty
  refine ⟨digitChar x, ?_, isDigit_digitChar (n.digits_lt x hx)⟩
  exact mem_append_left _ (mem_append_right _ (digitChar_mem_mantissaText hx))

def exp (n : Numeral) : ℤ := (n.exponent.map Exponent.value).getD 0

def value (n : Numeral) : ℚ :=
  signFactor n.sign * (beVal 10 n.digits * (10 : ℚ) ^ (n.exp - (n.frac.getD []).length))

end Numeral

/-! ## Texts are unambiguous -/

def NoDigit (cs : List Char) : Prop := ∀ c ∈ cs.head?, c.isDigit = false

theorem digits_append_inj {ds es : List ℕ} (hd : ∀ d ∈ ds, d < 10) (he : ∀ d ∈ es, d < 10)
    {r q : List Char} (hr : NoDigit r) (hq : NoDigit q)
    (h : ds.map digitChar ++ r = es.map digitChar ++ q) : ds = es ∧ r = q := by
  induction ds generalizing es with
  | nil =>
    cases es with
    | nil => exact ⟨rfl, h⟩
    | cons e es =>
      have hdigit := isDigit_digitChar (he e mem_cons_self)
      simp only [map_nil, nil_append, map_cons, cons_append] at h
      rw [hr (digitChar e) (by simp [h])] at hdigit
      cases hdigit
  | cons d ds ih =>
    obtain ⟨hd0, hds⟩ := forall_mem_cons.mp hd
    cases es with
    | nil =>
      have hdigit := isDigit_digitChar hd0
      simp only [map_nil, nil_append, map_cons, cons_append] at h
      rw [hq (digitChar d) (by simp [← h])] at hdigit
      cases hdigit
    | cons e es =>
      obtain ⟨he0, hes⟩ := forall_mem_cons.mp he
      simp only [map_cons, cons_append, List.cons.injEq] at h
      obtain ⟨rfl, hrest⟩ := ih hds hes h.2
      have hval : d = e := by
        rw [← digitVal_digitChar hd0, h.1, digitVal_digitChar he0]
      exact ⟨by rw [hval], hrest⟩

def NoSign (cs : List Char) : Prop := ∀ c ∈ cs.head?, c ≠ '+' ∧ c ≠ '-'

theorem signText_append_inj {s t : Option SignMark} {r q : List Char} (hr : NoSign r)
    (hq : NoSign q) (h : signText s ++ r = signText t ++ q) : s = t ∧ r = q := by
  rcases s with - | - | - <;> rcases t with - | - | - <;>
    simp only [signText, nil_append, cons_append, List.cons.injEq, true_and,
      reduceCtorEq, false_and] at h ⊢
  · exact h
  · exact absurd rfl (hr '+' (by simp [h])).1
  · exact absurd rfl (hr '-' (by simp [h])).2
  · exact absurd rfl (hq '+' (by simp [← h])).1
  · exact h
  · cases h.1
  · exact absurd rfl (hq '-' (by simp [← h])).2
  · cases h.1
  · exact h

theorem noSign_digits {ds : List ℕ} (hd : ∀ d ∈ ds, d < 10) {r : List Char} (hr : NoSign r) :
    NoSign (ds.map digitChar ++ r) := by
  cases ds with
  | nil => exact hr
  | cons d ds =>
    intro c hc
    cases hc
    have hdigit := isDigit_digitChar (hd d mem_cons_self)
    constructor <;> rintro heq <;> rw [heq] at hdigit <;> cases hdigit

theorem Exponent.text_injective {e f : Exponent} (h : e.text = f.text) : e = f := by
  obtain ⟨upper, sign, digits, hlt, hne⟩ := e
  obtain ⟨upper', sign', digits', hlt', hne'⟩ := f
  simp only [Exponent.text, List.cons.injEq] at h
  obtain ⟨hletter, hrest⟩ := h
  have hnil : NoSign [] := by simp [NoSign]
  obtain ⟨rfl, hdigits⟩ := signText_append_inj (by simpa using noSign_digits hlt hnil)
    (by simpa using noSign_digits hlt' hnil) hrest
  obtain ⟨rfl, -⟩ := digits_append_inj (r := []) (q := []) hlt hlt' (by simp [NoDigit])
    (by simp [NoDigit]) (by simpa using hdigits)
  have hcase : ∀ b c : Bool, (if b then 'E' else 'e') = (if c then 'E' else 'e') → b = c := by
    decide
  rw [hcase upper upper' hletter]

namespace Numeral

def exponentText (e : Option Exponent) : List Char := (e.map Exponent.text).getD []

theorem exponentText_cases (e : Option Exponent) :
    exponentText e = [] ∨ ∃ c cs, exponentText e = c :: cs ∧ (c = 'e' ∨ c = 'E') := by
  cases e with
  | none => exact .inl rfl
  | some e =>
    refine .inr ⟨_, _, rfl, ?_⟩
    cases e.upper
    · exact .inl rfl
    · exact .inr rfl

theorem noDigit_exponentText (e : Option Exponent) : NoDigit (exponentText e) := by
  rcases exponentText_cases e with h | ⟨c, cs, h, hc⟩
  · simp [NoDigit, h]
  rw [h]
  intro c' hc'
  cases hc'
  rcases hc with rfl | rfl <;> decide

theorem noSign_exponentText (e : Option Exponent) : NoSign (exponentText e) := by
  rcases exponentText_cases e with h | ⟨c, cs, h, hc⟩
  · simp [NoSign, h]
  rw [h]
  intro c' hc'
  cases hc'
  rcases hc with rfl | rfl <;> decide

theorem exponentText_injective {e f : Option Exponent} (h : exponentText e = exponentText f) :
    e = f := by
  cases e with
  | none =>
    cases f with
    | none => rfl
    | some f => simp [exponentText, Exponent.text] at h
  | some e =>
    cases f with
    | none => simp [exponentText, Exponent.text] at h
    | some f => rw [Exponent.text_injective h]

def tailText (frac : Option (List ℕ)) (e : Option Exponent) : List Char :=
  match frac with
  | none => exponentText e
  | some f => '.' :: (f.map digitChar ++ exponentText e)

theorem text_eq (n : Numeral) :
    n.text = signText n.sign ++ (n.int.map digitChar ++ tailText n.frac n.exponent) := by
  rw [text, append_assoc]
  cases n.frac <;> simp [mantissaText, tailText, exponentText]

theorem noDigit_tailText (frac : Option (List ℕ)) (e : Option Exponent) :
    NoDigit (tailText frac e) := by
  cases frac with
  | none => exact noDigit_exponentText e
  | some f => simp [NoDigit, tailText]

theorem noSign_tailText (frac : Option (List ℕ)) (e : Option Exponent) :
    NoSign (tailText frac e) := by
  cases frac with
  | none => exact noSign_exponentText e
  | some f => simp [NoSign, tailText]

theorem tailText_injective {f g : Option (List ℕ)} (hf : ∀ d ∈ f.getD [], d < 10)
    (hg : ∀ d ∈ g.getD [], d < 10) {e e' : Option Exponent} (h : tailText f e = tailText g e') :
    f = g ∧ e = e' := by
  cases f with
  | none =>
    cases g with
    | none => exact ⟨rfl, exponentText_injective h⟩
    | some g =>
      simp only [tailText] at h
      rcases exponentText_cases e with h0 | ⟨c, cs, h0, hc⟩
      · simp [h0] at h
      · simp only [h0, List.cons.injEq] at h
        rcases hc with rfl | rfl <;> cases h.1
  | some f =>
    cases g with
    | none =>
      simp only [tailText] at h
      rcases exponentText_cases e' with h0 | ⟨c, cs, h0, hc⟩
      · simp [h0] at h
      · simp only [h0, List.cons.injEq] at h
        rcases hc with rfl | rfl <;> cases h.1
    | some g =>
      simp only [tailText, List.cons.injEq, true_and] at h
      obtain ⟨rfl, hexp⟩ := digits_append_inj hf hg (noDigit_exponentText e)
        (noDigit_exponentText e') h
      exact ⟨rfl, exponentText_injective hexp⟩

/-- **A text is the text of one numeral only.** -/
theorem text_injective {n m : Numeral} (h : n.text = m.text) : n = m := by
  rw [text_eq, text_eq] at h
  have hn := forall_mem_append.mp n.digits_lt
  have hm := forall_mem_append.mp m.digits_lt
  obtain ⟨hsign, hrest⟩ := signText_append_inj
    (noSign_digits hn.1 (noSign_tailText n.frac n.exponent))
    (noSign_digits hm.1 (noSign_tailText m.frac m.exponent)) h
  obtain ⟨hint, htail⟩ := digits_append_inj hn.1 hm.1 (noDigit_tailText n.frac n.exponent)
    (noDigit_tailText m.frac m.exponent) hrest
  obtain ⟨hfrac, hexp⟩ := tailText_injective hn.2 hm.2 htail
  obtain ⟨sign, int, frac, exponent, hlt, hne⟩ := n
  obtain ⟨sign', int', frac', exponent', hlt', hne'⟩ := m
  simp only at hsign hint hfrac hexp
  subst hsign hint hfrac hexp
  rfl

end Numeral

end Novachains.Lib
