import Novachains.Lib.Numeral
import Mathlib.Data.List.TakeWhile

/-!
# Texts of configuration values

The values of a configuration record have texts, under which they stand in its maps: an integer
its decimal, a boolean `TRUE` or `FALSE`, and a string itself.
-/

namespace Novachains.Util.Cfg

open Lib List

abbrev Text := List Char

def cstr (s : Text) : Text := s.takeWhile (· ≠ Char.ofNat 0)

/-- `ossStrncpy` into a buffer of `len` characters, the last of which is set to zero. -/
def clip (len : ℕ) (s : Text) : Text := (cstr s).take (len - 1)

def natText (n : ℕ) : Text := if n = 0 then ['0'] else (Nat.digits 10 n).reverse.map digitChar

def itoa : ℤ → Text
  | .ofNat n => natText n
  | .negSucc n => '-' :: natText (n + 1)

def natValue (s : Text) : ℕ := beVal 10 ((s.takeWhile Char.isDigit).map digitVal)

/-- `ossAtoi`, on texts without white space at the beginning. -/
def atoi : Text → ℤ
  | '-' :: s => -natValue s
  | '+' :: s => natValue s
  | s => natValue s

def boolText (b : Bool) : Text := if b then ['T', 'R', 'U', 'E'] else ['F', 'A', 'L', 'S', 'E']

/-- `OSSTRUELIST`, in small letters and without what is the beginning of another word. -/
def trueWords : List Text := [['y', 'e', 's'], ['t', 'r', 'u', 'e'], ['1']]

/-- `OSSFALSELIST`, likewise. -/
def falseWords : List Text := [['n', 'o'], ['f', 'a', 'l', 's', 'e'], ['0']]

/-- `ossStrToBoolean`: a word is recognised by any of its beginnings, and `none` stands for
`SDB_INVALIDARG`. -/
def ossStrToBoolean (s : Text) : Option Bool :=
  if s = [] then none
  else if trueWords.any fun w => (s.map Char.toLower).isPrefixOf w then some true
  else if falseWords.any fun w => (s.map Char.toLower).isPrefixOf w then some false
  else none

/-! ## Numbers -/

theorem isDigit_natText (n : ℕ) : ∀ c ∈ natText n, c.isDigit = true := by
  intro c hc
  unfold natText at hc
  split at hc
  · rw [mem_singleton.mp hc]
    rfl
  · obtain ⟨d, hd, rfl⟩ := List.mem_map.mp hc
    exact isDigit_digitChar (Nat.digits_lt_base (by decide) (mem_reverse.mp hd))

theorem natValue_natText (n : ℕ) : natValue (natText n) = n := by
  rw [natValue, takeWhile_eq_self_iff.mpr (isDigit_natText n)]
  unfold natText
  split
  next h =>
    rw [h]
    rfl
  next =>
    have hmap : ((Nat.digits 10 n).reverse.map digitChar).map digitVal =
        (Nat.digits 10 n).reverse := by
      rw [List.map_map]
      have hid : ∀ d ∈ (Nat.digits 10 n).reverse, (digitVal ∘ digitChar) d = id d := by
        intro d hd
        exact digitVal_digitChar (Nat.digits_lt_base (by decide) (mem_reverse.mp hd))
      rw [map_congr_left hid, List.map_id]
    rw [hmap, beVal, reverse_reverse, Nat.ofDigits_digits]

/-- **A number is read back from its text.** -/
@[simp] theorem atoi_itoa (n : ℤ) : atoi (itoa n) = n := by
  cases n with
  | ofNat n =>
    have hdigit := isDigit_natText n
    have hvalue := natValue_natText n
    rw [itoa]
    generalize natText n = s at hdigit hvalue
    unfold atoi
    split
    · cases hdigit '-' mem_cons_self
    · cases hdigit '+' mem_cons_self
    · rw [hvalue]
      rfl
  | negSucc n =>
    rw [itoa, atoi, natValue_natText]
    rfl

@[simp] theorem ossStrToBoolean_boolText (b : Bool) : ossStrToBoolean (boolText b) = some b := by
  cases b <;> decide

end Novachains.Util.Cfg
