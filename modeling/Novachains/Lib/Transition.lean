import Mathlib.Logic.Function.Iterate

/-!
# Transition systems and their invariants

A system is a set of initial states and a step relation.  The one induction every
safety result goes through, that an inductive invariant holds in every reachable
state, is done here once.
-/

namespace Novachains.Lib

universe u

structure System (σ : Type u) where
  init : σ → Prop
  step : σ → σ → Prop

namespace System
variable {σ : Type u} (S : System σ)

inductive Reachable : σ → Prop
  | init {s : σ} : S.init s → Reachable s
  | step {s t : σ} : Reachable s → S.step s t → Reachable t

structure Invariant (I : σ → Prop) : Prop where
  init : ∀ s, S.init s → I s
  step : ∀ s t, I s → S.step s t → I t

variable {S}

theorem Invariant.reachable {I : σ → Prop} (h : S.Invariant I) {s : σ} (hs : S.Reachable s) :
    I s := by
  induction hs with
  | init h0 => exact h.init _ h0
  | step _ hst ih => exact h.step _ _ ih hst

theorem Reachable.iterate {f : σ → σ} (hf : ∀ s, S.step s (f s)) {s : σ} (hs : S.Reachable s)
    (n : ℕ) : S.Reachable (f^[n] s) := by
  induction n generalizing s with
  | zero => exact hs
  | succ n ih => exact ih (hs.step (hf s))

/-- **What a list of operations leads to is reachable** if each of them is a step. -/
theorem Reachable.run {α : Type u} {exec : σ → α → Option σ} {s t : σ} (hs : S.Reachable s)
    (hexec : ∀ s a t, exec s a = some t → S.step s t) {ops : List α}
    (h : ops.foldlM exec s = some t) : S.Reachable t := by
  induction ops generalizing s with
  | nil =>
    cases h
    exact hs
  | cons a ops ih =>
    obtain ⟨s', hstep, hrest⟩ := Option.bind_eq_some_iff.mp h
    exact ih (hs.step (hexec s a s' hstep)) hrest

end System

inductive Interleaves {α : Type u} : List α → List α → List α → Prop
  | nil : Interleaves [] [] []
  | left {a : α} {as bs l : List α} : Interleaves as bs l → Interleaves (a :: as) bs (a :: l)
  | right {b : α} {as bs l : List α} : Interleaves as bs l → Interleaves as (b :: bs) (b :: l)

namespace Interleaves
variable {α : Type u} {a b : α} {as bs l : List α}

@[simp] theorem nil_left_iff : Interleaves [] bs l ↔ l = bs := by
  constructor
  · intro h
    induction bs generalizing l with
    | nil => cases h; rfl
    | cons b bs ih => cases h with | right h => rw [ih h]
  · rintro rfl
    induction l with
    | nil => exact nil
    | cons b bs ih => exact ih.right

@[simp] theorem nil_right_iff : Interleaves as [] l ↔ l = as := by
  constructor
  · intro h
    induction as generalizing l with
    | nil => cases h; rfl
    | cons a as ih => cases h with | left h => rw [ih h]
  · rintro rfl
    induction l with
    | nil => exact nil
    | cons a as ih => exact ih.left

theorem cons_cons_iff : Interleaves (a :: as) (b :: bs) l ↔
    (∃ l', Interleaves as (b :: bs) l' ∧ l = a :: l') ∨
      ∃ l', Interleaves (a :: as) bs l' ∧ l = b :: l' := by
  constructor
  · intro h
    cases h with
    | left h => exact .inl ⟨_, h, rfl⟩
    | right h => exact .inr ⟨_, h, rfl⟩
  · rintro (⟨l', h, rfl⟩ | ⟨l', h, rfl⟩)
    · exact h.left
    · exact h.right

end Interleaves

end Novachains.Lib
