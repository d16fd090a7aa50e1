import Mathlib.Data.List.Nodup
import Mathlib.Logic.Relation

/-!
# Lists in dependency order

`r a b` says that `a` depends on `b`.  A list is in dependency order when every element comes after
all elements it depends on.
-/

namespace Novachains.Lib

open List

variable {α : Type*} {r : α → α → Prop} {l : List α}

def DependencyOrdered (r : α → α → Prop) (l : List α) : Prop :=
  ∀ l₁ a l₂, l = l₁ ++ a :: l₂ → ∀ b, r a b → b ∈ l₁

theorem dependencyOrdered_nil : DependencyOrdered r [] := by
  intro l₁ a l₂ h
  simp at h

section
variable (h : DependencyOrdered r l)
include h

theorem DependencyOrdered.concat {a : α} (ha : ∀ b, r a b → b ∈ l) :
    DependencyOrdered r (l ++ [a]) := by
  intro l₁ x l₂ heq b hb
  rcases eq_nil_or_concat' l₂ with rfl | ⟨l₂, y, rfl⟩
  · obtain ⟨rfl, hx⟩ := append_inj' heq rfl
    cases hx
    exact ha b hb
  · rw [← cons_append, ← append_assoc] at heq
    exact h l₁ x l₂ (append_inj' heq rfl).1 b hb

theorem DependencyOrdered.of_prefix {l' : List α} (hpre : l' <+: l) :
    DependencyOrdered r l' := by
  obtain ⟨t, rfl⟩ := hpre
  intro l₁ a l₂ heq b hb
  exact h l₁ a (l₂ ++ t) (by simp [heq]) b hb

theorem DependencyOrdered.mem_of_transGen {l₁ l₂ : List α} {a b : α}
    (heq : l = l₁ ++ a :: l₂) (hab : Relation.TransGen r a b) : b ∈ l₁ := by
  induction hab with
  | single hb => exact h l₁ a l₂ heq _ hb
  | tail _ hbc ih =>
    obtain ⟨l₃, l₄, rfl⟩ := append_of_mem ih
    have hc := h l₃ _ (l₄ ++ a :: l₂) (by simp [heq]) _ hbc
    exact mem_append_left _ hc

theorem DependencyOrdered.not_transGen_self (hnd : l.Nodup) {a : α}
    (ha : a ∈ l) : ¬ Relation.TransGen r a a := by
  intro hcycle
  obtain ⟨l₁, l₂, rfl⟩ := append_of_mem ha
  have hmem := h.mem_of_transGen rfl hcycle
  exact (nodup_append.mp hnd).2.2 a hmem a (mem_cons_self ..) rfl

end

end Novachains.Lib
