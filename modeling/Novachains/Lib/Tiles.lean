import Mathlib.Algebra.BigOperators.Group.List.Basic
import Novachains.Lib.Runs

/-!
# Tilings

A range of cells cut into runs, without a gap and without an overlap.  The order in which
the runs are listed does not matter.
-/

namespace Novachains.Lib

open List

def Run.Apart (r s : Run) : Prop := r.start + r.size ≤ s.start ∨ s.start + s.size ≤ r.start

theorem Run.Apart.symm {r s : Run} (h : r.Apart s) : s.Apart r := Or.symm h

instance : Std.Symm Run.Apart := ⟨fun _ _ => Run.Apart.symm⟩

/-- The cells from `lo` to `hi` are cut into the runs of the list. -/
structure Tiles (lo hi : ℕ) (l : List Run) : Prop where
  pos : ∀ r ∈ l, 0 < r.size
  within : ∀ r ∈ l, lo ≤ r.start ∧ r.start + r.size ≤ hi
  apart : l.Pairwise Run.Apart
  cover : ∀ x, lo ≤ x → x < hi → Covers l x
  total_eq : lo + (l.map Run.size).sum = hi

variable {lo hi s m n : ℕ} {k l : List Run} {r : Run}

theorem Tiles.perm (h : Tiles lo hi k) (hp : k.Perm l) : Tiles lo hi l where
  pos := fun r hr => h.pos r (hp.mem_iff.mpr hr)
  within := fun r hr => h.within r (hp.mem_iff.mpr hr)
  apart := (hp.pairwise_iff Run.Apart.symm).mp h.apart
  cover := fun x h1 h2 => by
    obtain ⟨r, hr, hx⟩ := h.cover x h1 h2
    exact ⟨r, hp.mem_iff.mp hr, hx⟩
  total_eq := by rw [← (hp.map Run.size).sum_eq, h.total_eq]

theorem tiles_singleton (h : 0 < n) : Tiles lo (lo + n) [⟨lo, n⟩] where
  pos := by simpa using h
  within := by simp
  apart := pairwise_singleton _ _
  cover := fun x h1 h2 => ⟨_, mem_singleton_self _, h1, h2⟩
  total_eq := by simp

theorem Tiles.split (h : Tiles lo hi (⟨s, m + n⟩ :: l)) (hm : 0 < m) (hn : 0 < n) :
    Tiles lo hi (⟨s, m⟩ :: ⟨s + m, n⟩ :: l) := by
  have hw := h.within _ mem_cons_self
  have ha := pairwise_cons.mp h.apart
  simp only [Run.Apart] at ha
  refine ⟨?_, ?_, ?_, ?_, ?_⟩
  · intro r hr
    rcases mem_cons.mp hr with rfl | hr
    · exact hm
    · rcases mem_cons.mp hr with rfl | hr
      · exact hn
      · exact h.pos r (mem_cons_of_mem _ hr)
  · intro r hr
    rcases mem_cons.mp hr with rfl | hr
    · exact ⟨hw.1, by dsimp only at hw ⊢; omega⟩
    rcases mem_cons.mp hr with rfl | hr
    · dsimp only at hw ⊢
      omega
    · exact h.within r (mem_cons_of_mem _ hr)
  · refine pairwise_cons.mpr ⟨?_, pairwise_cons.mpr ⟨?_, ha.2⟩⟩
    · intro r hr
      rcases mem_cons.mp hr with rfl | hr
      · exact .inl le_rfl
      · have := ha.1 r hr
        simp only [Run.Apart]
        omega
    · intro r hr
      have := ha.1 r hr
      simp only [Run.Apart]
      omega
  · intro x h1 h2
    have hx := h.cover x h1 h2
    simp only [covers_cons, Run.has_mk] at hx ⊢
    rw [add_assoc, ← or_assoc]
    refine hx.imp_left fun hx => ?_
    omega
  · have := h.total_eq
    simp only [map_cons, sum_cons] at this ⊢
    omega

theorem Tiles.cons_zero (h : Tiles n hi l) (hn : 0 < n) (hle : n ≤ hi) :
    Tiles 0 hi (⟨0, n⟩ :: l) where
  pos := by
    intro r hr
    rcases mem_cons.mp hr with rfl | hr
    · exact hn
    · exact h.pos r hr
  within := by
    intro r hr
    rcases mem_cons.mp hr with rfl | hr
    · simpa using hle
    · exact ⟨Nat.zero_le _, (h.within r hr).2⟩
  apart := pairwise_cons.mpr
    ⟨fun r hr => .inl (by rw [zero_add]; exact (h.within r hr).1), h.apart⟩
  cover := fun x _ h2 => by
    rw [covers_cons, Run.has_mk]
    rcases Nat.lt_or_ge x n with hx | hx
    · exact .inl ⟨Nat.zero_le x, by omega⟩
    · exact .inr (h.cover x hx h2)
  total_eq := by
    rw [map_cons, sum_cons, zero_add]
    exact h.total_eq

theorem Tiles.apart_append (h : Tiles lo hi (k ++ l)) : ∀ r ∈ k, ∀ t ∈ l, r.Apart t :=
  (pairwise_append.mp h.apart).2.2

theorem Tiles.nodup (h : Tiles lo hi l) : l.Nodup :=
  List.Pairwise.imp_of_mem (fun {r t} hr _ hrt heq => by
    have := h.pos r hr
    subst heq
    simp only [Run.Apart] at hrt
    omega) h.apart

end Novachains.Lib
