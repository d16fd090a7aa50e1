import Mathlib.Data.List.Basic
import Mathlib.Order.Lattice

/-!
# Maps as lists in the order of their keys

A value is put at the place of its key, and a search through the entries finds the least key that
has a value of the kind that is looked for.
-/

namespace Novachains.Lib

universe u v

variable {κ : Type u} {α : Type v} [LinearOrder κ] {l : List (κ × α)} {k : κ} {a : α}

def insertKey (k : κ) (a : α) : List (κ × α) → List (κ × α)
  | [] => [(k, a)]
  | e :: l =>
    if k < e.1 then (k, a) :: e :: l else if k = e.1 then (k, a) :: l else e :: insertKey k a l

def eraseKey (k : κ) (l : List (κ × α)) : List (κ × α) := l.filter (·.1 ≠ k)

def KeysSorted (l : List (κ × α)) : Prop := l.Pairwise (·.1 < ·.1)

theorem lookup_insertKey (k k' : κ) (a : α) (l : List (κ × α)) :
    (insertKey k a l).lookup k' = if k' = k then some a else l.lookup k' := by
  induction l with
  | nil => grind [insertKey]
  | cons e l ih =>
    rw [insertKey]
    split_ifs with hlt heq hk <;> grind

theorem lookup_eraseKey (k k' : κ) (l : List (κ × α)) :
    (eraseKey k l).lookup k' = if k' = k then none else l.lookup k' := by
  induction l with
  | nil => simp [eraseKey]
  | cons e l ih =>
    rw [eraseKey, List.filter_cons, ← eraseKey]
    split_ifs <;> grind

theorem mem_insertKey {e : κ × α} (h : e ∈ insertKey k a l) : e = (k, a) ∨ e ∈ l := by
  induction l with
  | nil => simpa [insertKey] using h
  | cons e' l ih =>
    rw [insertKey] at h
    split_ifs at h <;> grind

theorem KeysSorted.insertKey (h : KeysSorted l) : KeysSorted (insertKey k a l) := by
  induction l with
  | nil => simp [Lib.insertKey, KeysSorted]
  | cons e l ih =>
    obtain ⟨hhead, htail⟩ := List.pairwise_cons.mp h
    rw [Lib.insertKey]
    split_ifs with hlt heq
    · exact List.pairwise_cons.mpr ⟨by grind, h⟩
    · exact List.pairwise_cons.mpr ⟨by grind, htail⟩
    refine List.pairwise_cons.mpr ⟨?_, ih htail⟩
    intro e' he'
    rcases mem_insertKey he' with rfl | hmem
    · exact lt_of_le_of_ne (not_lt.mp hlt) (Ne.symm heq)
    · exact hhead e' hmem

theorem KeysSorted.eraseKey (h : KeysSorted l) : KeysSorted (eraseKey k l) :=
  List.Pairwise.filter _ h

theorem KeysSorted.lookup_eq_some (h : KeysSorted l) : l.lookup k = some a ↔ (k, a) ∈ l := by
  induction l with
  | nil => simp
  | cons e l ih =>
    obtain ⟨hhead, htail⟩ := List.pairwise_cons.mp h
    have hne : e.1 = k → (k, a) ∉ l := fun heq hmem => (hhead _ hmem).ne heq
    have htl := ih htail
    grind

/-- **The search finds the least key** whose value is of the kind. -/
theorem KeysSorted.find?_eq_some (h : KeysSorted l) {p : α → Bool} :
    (l.find? fun e => p e.2).map Prod.fst = some k ↔
      (∃ a, l.lookup k = some a ∧ p a) ∧ ∀ k' a, l.lookup k' = some a → p a → k ≤ k' := by
  simp only [h.lookup_eq_some]
  induction l with
  | nil => simp
  | cons e l ih =>
    obtain ⟨hhead, htail⟩ := List.pairwise_cons.mp h
    by_cases hp : p e.2
    · grind
    · rw [List.find?_cons_of_neg (by simpa using hp), ih htail]
      grind

end Novachains.Lib
