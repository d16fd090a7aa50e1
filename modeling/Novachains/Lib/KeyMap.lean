import Mathlib.Data.List.AList

/-!
# Loops over the entries of a map

A loop that goes through the entries of one map and changes another one, or the same one, at the
key of each entry.  What it leaves at a key depends on the entry of that key only.
-/

namespace Novachains.Lib

open List

universe u v

variable {α : Type u} {β : α → Type v} [DecidableEq α]

/-- A round changes the map at the key of its entry only, and by what stands there. -/
structure KeyLocal (g : AList β → Sigma β → AList β) : Prop where
  lookup_of_ne : ∀ m e a, a ≠ e.1 → (g m e).lookup a = m.lookup a
  lookup_congr : ∀ m m' e, m.lookup e.1 = m'.lookup e.1 → (g m e).lookup e.1 = (g m' e).lookup e.1

namespace KeyLocal
variable {g : AList β → Sigma β → AList β}

theorem lookup_foldl_of_notMem (hg : KeyLocal g) {a : α} {l : List (Sigma β)} (h : a ∉ l.keys)
    (m : AList β) : (l.foldl g m).lookup a = m.lookup a := by
  induction l generalizing m with
  | nil => rfl
  | cons e l ih =>
    rw [keys_cons, mem_cons, not_or] at h
    rw [foldl_cons, ih h.2, hg.lookup_of_ne m e a h.1]

/-- **What a loop over the entries of `s` leaves at a key.** -/
theorem lookup_foldl (hg : KeyLocal g) (s m : AList β) (a : α) :
    (s.entries.foldl g m).lookup a =
      match s.lookup a with
      | none => m.lookup a
      | some b => (g m ⟨a, b⟩).lookup a := by
  obtain ⟨l, hl⟩ := s
  change (l.foldl g m).lookup a = match l.dlookup a with
    | none => m.lookup a
    | some b => (g m ⟨a, b⟩).lookup a
  induction l generalizing m with
  | nil => rfl
  | cons e l ih =>
    obtain ⟨k, b⟩ := e
    rw [nodupKeys_cons] at hl
    rw [foldl_cons]
    by_cases hk : a = k
    · subst hk
      rw [dlookup_cons_eq, hg.lookup_foldl_of_notMem hl.1]
    rw [dlookup_cons_ne l ⟨k, b⟩ hk, ih (g m ⟨k, b⟩) hl.2]
    -- The first round is about another key.
    cases l.dlookup a with
    | none => exact hg.lookup_of_ne m ⟨k, b⟩ a hk
    | some b' =>
      exact hg.lookup_congr (g m ⟨k, b⟩) m ⟨a, b'⟩ (hg.lookup_of_ne m ⟨k, b⟩ a hk)

end KeyLocal

end Novachains.Lib
