import Mathlib.Algebra.Order.BigOperators.Group.List
import Mathlib.Algebra.Order.Ring.Nat

/-!
# Lists with one entry replaced or appended
-/

namespace Novachains.Lib

open List Function

universe u
variable {α : Type u}
variable {l : List α} {a : α}

theorem sum_map_set (f : α → ℕ) {i : ℕ} {b : α} (h : l[i]? = some a) :
    ((l.set i b).map f).sum + f a = (l.map f).sum + f b := by
  induction l generalizing i with
  | nil => simp at h
  | cons x l ih =>
    cases i with
    | zero =>
      cases h
      simp only [set_cons_zero, map_cons, sum_cons]
      omega
    | succ i =>
      have := ih (by simpa using h)
      simp only [set_cons_succ, map_cons, sum_cons]
      omega

theorem sum_map_update [DecidableEq α] {β : Type*} (f : β → ℕ) (hl : l.Nodup) (ha : a ∈ l)
    (v : α → β) (b : β) : (l.map fun e => f (update v a b e)).sum + f (v a) =
      (l.map fun e => f (v e)).sum + f b := by
  induction l with
  | nil => cases ha
  | cons e l ih =>
    obtain ⟨hnot, hl⟩ := nodup_cons.mp hl
    simp only [map_cons, sum_cons]
    rcases mem_cons.mp ha with rfl | ha
    · have hrest : (l.map fun e => f (update v a b e)) = l.map fun e => f (v e) :=
        map_congr_left fun e he =>
          congrArg f (update_of_ne (ne_of_mem_of_not_mem he hnot) b v)
      rw [hrest, update_self]
      omega
    · have hne : e ≠ a := fun heq => hnot (heq ▸ ha)
      have := ih hl ha
      rw [update_of_ne hne]
      omega

theorem map_erase_of_injOn {β : Type*} [DecidableEq α] [DecidableEq β] {f : α → β} (ha : a ∈ l)
    (hf : ∀ b ∈ l, f b = f a → b = a) : (l.erase a).map f = (l.map f).erase (f a) := by
  induction l with
  | nil => cases ha
  | cons b l ih =>
    by_cases hba : b = a
    · subst hba
      rw [erase_cons_head, map_cons, erase_cons_head]
    have hmem : a ∈ l := (mem_cons.mp ha).resolve_left (Ne.symm hba)
    have hne : f b ≠ f a := fun heq => hba (hf b mem_cons_self heq)
    rw [erase_cons_tail (by simpa using hba), map_cons, map_cons,
      erase_cons_tail (by simpa using hne), ih hmem fun c hc => hf c (mem_cons_of_mem b hc)]

theorem forall_getElem?_concat {P : ℕ → α → Prop} {b : α} (hl : ∀ k a, l[k]? = some a → P k a)
    (hb : P l.length b) : ∀ k a, (l ++ [b])[k]? = some a → P k a := by
  intro k a hk
  rcases lt_or_ge k l.length with hlt | hge
  · rw [getElem?_append_left hlt] at hk
    exact hl k a hk
  rw [getElem?_append_right hge, getElem?_singleton] at hk
  split at hk
  · cases hk
    obtain rfl : k = l.length := by omega
    exact hb
  · simp at hk

theorem sum_map_le (f : α → ℕ) {b : ℕ} (h : ∀ a ∈ l, f a ≤ b) : (l.map f).sum ≤ l.length * b := by
  have := sum_le_card_nsmul (l.map f) b (by simpa using h)
  simpa using this

end Novachains.Lib
