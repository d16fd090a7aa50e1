import Novachains.Basic
import Novachains.Lib.Bitmap

/-!
# The space management extent

One bit for each page of a storage unit.  A clear bit is a free page (`DMS_SME_FREE`),
a set bit an allocated one.
-/

namespace Novachains.Dms

open Lib

/-- `DMS_MAX_PG`: the number of pages a storage unit may have. -/
def maxPg : ℕ := 128 * 1024 * 1024

/-- `_dmsSpaceManagementExtent`: the bytes of `_smeMask`. -/
structure SME where
  smeMask : Bitmap

namespace SME

variable (s : SME)

/-- The state of a page: `true` is `DMS_SME_ALLOCATED`, `false` is `DMS_SME_FREE`. -/
def getBitMask (bitNum : ℕ) : Bool := s.smeMask.get bitNum

def freeBitMask (bitNum : ℕ) : SME := ⟨s.smeMask.clear bitNum⟩

def setBitMask (bitNum : ℕ) : SME := ⟨s.smeMask.set bitNum⟩

def empty : SME := ⟨Bitmap.zero⟩

def Free (page : ℕ) : Prop := s.getBitMask page = false

instance (s : SME) (page : ℕ) : Decidable (s.Free page) := inferInstanceAs (Decidable (_ = _))

theorem getBitMask_setBitMask (n p : ℕ) :
    (s.setBitMask n).getBitMask p = (decide (p = n) || s.getBitMask p) := Bitmap.get_set ..

theorem getBitMask_freeBitMask (n p : ℕ) :
    (s.freeBitMask n).getBitMask p = (!decide (p = n) && s.getBitMask p) := Bitmap.get_clear ..

/-- Mark the `n` pages from `start` on as allocated, one after the other. -/
def setRange (s : SME) (start : ℕ) : ℕ → SME
  | 0 => s
  | n + 1 => (s.setBitMask start).setRange (start + 1) n

/-- Mark the `n` pages from `start` on as free, one after the other. -/
def freeRange (s : SME) (start : ℕ) : ℕ → SME
  | 0 => s
  | n + 1 => (s.freeBitMask start).freeRange (start + 1) n

theorem free_setRange (start n p : ℕ) :
    (s.setRange start n).Free p ↔ s.Free p ∧ ¬ (start ≤ p ∧ p < start + n) := by
  induction n generalizing s start with
  | zero => simp only [setRange, add_zero]; constructor
            · intro h; exact ⟨h, by omega⟩
            · intro h; exact h.1
  | succ n ih =>
    rw [setRange, ih, Free, getBitMask_setBitMask, Free]
    simp only [Bool.or_eq_false_iff, decide_eq_false_iff_not]
    constructor
    · rintro ⟨⟨h1, h2⟩, h3⟩; exact ⟨h2, by omega⟩
    · rintro ⟨h1, h2⟩; exact ⟨⟨by omega, h1⟩, by omega⟩

theorem free_freeRange (start n p : ℕ) :
    (s.freeRange start n).Free p ↔ s.Free p ∨ (start ≤ p ∧ p < start + n) := by
  induction n generalizing s start with
  | zero => simp only [freeRange, add_zero]; constructor
            · intro h; exact Or.inl h
            · rintro (h | h)
              · exact h
              · omega
  | succ n ih =>
    rw [freeRange, ih, Free, getBitMask_freeBitMask, Free]
    simp only [Bool.and_eq_false_imp, Bool.not_eq_true', decide_eq_false_iff_not]
    constructor
    · rintro (h | h)
      · by_cases hp : p = start
        · exact Or.inr (by omega)
        · exact Or.inl (h hp)
      · exact Or.inr (by omega)
    · rintro (h | h)
      · exact Or.inl fun _ => h
      · by_cases hp : p = start
        · exact Or.inl fun hne => absurd hp hne
        · exact Or.inr (by omega)

end SME

end Novachains.Dms
