import Mathlib.Algebra.BigOperators.Group.Finset.Basic
import Mathlib.Data.Fintype.Basic

/-!
# Threads that move one at a time

The threads of a system are a function, and a step replaces one of its values.  Two things are
said here about such a step: what it does to a sum over the threads, and that a flag which a
thread sets by compare-and-swap keeps all others out.
-/

namespace Novachains.Lib

open Function

section
variable {T : Type} {α : Type}

theorem sum_update_add [Fintype T] [DecidableEq T] (f : α → ℕ) (g : T → α) (t : T) (x : α) :
    ∑ u, f (update g t x u) + f (g t) = ∑ u, f (g u) + f x := by
  rw [← Finset.add_sum_erase _ _ (Finset.mem_univ t),
    ← Finset.add_sum_erase Finset.univ (fun u => f (g u)) (Finset.mem_univ t),
    update_self, Finset.sum_congr rfl fun u hu => by
      rw [update_of_ne (Finset.ne_of_mem_erase hu)]]
  omega

structure Guarded (inside : α → Bool) (flag : Bool) (g : T → α) : Prop where
  locked : ∀ t, inside (g t) = true → flag = true
  alone : ∀ t u, inside (g t) = true → inside (g u) = true → t = u

namespace Guarded
variable {inside : α → Bool} {flag flag' : Bool} {g : T → α} {t u : T} {x : α}

theorem of_forall_outside (h : ∀ t, inside (g t) = false) : Guarded inside flag g where
  locked := fun t ht => absurd ((h t).symm.trans ht) Bool.false_ne_true
  alone := fun t _ ht => absurd ((h t).symm.trans ht) Bool.false_ne_true

theorem outside_of_ne (h : Guarded inside flag g) (hne : u ≠ t) (ht : inside (g t) = true) :
    inside (g u) = false := by
  refine Bool.eq_false_iff.mpr ?_
  intro hu
  exact hne (h.alone u t hu ht)

theorem update [DecidableEq T] (h : Guarded inside flag g)
    (takes : inside x = true → flag' = true ∧ (inside (g t) = true ∨ flag = false))
    (keeps : inside (g t) = false → flag = true → flag' = true) :
    Guarded inside flag' (update g t x) := by
  -- somebody else inside has set the flag, so this thread does not go inside
  have hother : ∀ u, u ≠ t → inside (g u) = true → inside x = false := by
    intro u hne hu
    refine Bool.eq_false_iff.mpr ?_
    intro hx
    obtain ⟨_, ht | hfree⟩ := takes hx
    · exact hne (h.alone u t hu ht)
    · cases hfree.symm.trans (h.locked u hu)
  refine ⟨?_, ?_⟩
  · intro u hu
    by_cases hne : u = t
    · subst hne
      rw [update_self] at hu
      exact (takes hu).1
    · rw [update_of_ne hne] at hu
      exact keeps (h.outside_of_ne (Ne.symm hne) hu) (h.locked u hu)
  · intro u v hu hv
    by_cases hut : u = t
    · by_cases hvt : v = t
      · rw [hut, hvt]
      · rw [hut, update_self] at hu
        rw [update_of_ne hvt] at hv
        cases (hother v hvt hv).symm.trans hu
    · rw [update_of_ne hut] at hu
      by_cases hvt : v = t
      · rw [hvt, update_self] at hv
        cases (hother u hut hu).symm.trans hv
      · rw [update_of_ne hvt] at hv
        exact h.alone u v hu hv

end Guarded

end

end Novachains.Lib
