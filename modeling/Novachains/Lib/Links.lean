import Mathlib.Data.List.Nodup

/-!
# Linked lists in a store

A store that gives each cell the next one links cells into lists.  A list is a path
from its first cell that ends in nothing; a list linked in both directions is a path
each way.
-/

namespace Novachains.Lib

open List

variable {α : Type} {f g : α → Option α}

/-- Following `f` from `p` passes through the cells of `l` and arrives at `q`. -/
def Path (f : α → Option α) : Option α → List α → Option α → Prop
  | p, [], q => p = q
  | p, a :: l, q => p = some a ∧ Path f (f a) l q

variable {p q : Option α} {k l : List α}

theorem path_append : Path f p (k ++ l) q ↔ ∃ m, Path f p k m ∧ Path f m l q := by
  induction k generalizing p with
  | nil => simp [Path]
  | cons a k ih => simp [Path, ih, and_assoc]

theorem path_concat {a : α} : Path f p (k ++ [a]) q ↔ Path f p k (some a) ∧ f a = q := by
  rw [path_append]
  constructor
  · rintro ⟨m, hk, rfl, ha⟩
    exact ⟨hk, ha⟩
  · rintro ⟨hk, ha⟩
    exact ⟨some a, hk, rfl, ha⟩

theorem Path.congr (h : Path f p l q) (hg : ∀ a ∈ l, g a = f a) : Path g p l q := by
  induction l generalizing p with
  | nil => exact h
  | cons a l ih =>
    refine ⟨h.1, ?_⟩
    rw [hg a mem_cons_self]
    exact ih h.2 fun b hb => hg b (mem_cons_of_mem a hb)

theorem Path.head? (h : Path f p l none) : p = l.head? := by
  cases l with
  | nil => exact h
  | cons a l => exact h.1

theorem Path.unique (hk : Path f p k none) (hl : Path f p l none) : k = l := by
  induction k generalizing p l with
  | nil =>
    cases l with
    | nil => rfl
    | cons b l =>
      obtain rfl : p = none := hk
      cases hl.1
  | cons a k ih =>
    cases l with
    | nil =>
      obtain rfl : p = none := hl
      cases hk.1
    | cons b l =>
      obtain ⟨rfl, hk⟩ := hk
      obtain ⟨hab, hl⟩ := hl
      cases hab
      rw [ih hk hl]

variable {x : α}

theorem Path.remove {a : α} (h : Path f p (k ++ a :: x :: l) q) (ha : g a = f x)
    (hg : ∀ b ∈ k ++ l, g b = f b) : Path g p (k ++ a :: l) q := by
  obtain ⟨m, hk, hm, -, hl⟩ := path_append.mp h
  refine path_append.mpr ⟨m, hk.congr fun b hb => hg b (mem_append_left l hb), hm, ?_⟩
  rw [ha]
  exact hl.congr fun b hb => hg b (mem_append_right k hb)

theorem Path.insert (h : Path f (k ++ l).head? (k ++ l) none) (hd : k.Nodup) (hx : g x = l.head?)
    (hlast : ∀ a ∈ k.getLast?, g a = some x) (hk : ∀ a ∈ k, some a ≠ k.getLast? → g a = f a)
    (hl : ∀ a ∈ l, g a = f a) : Path g (k ++ x :: l).head? (k ++ x :: l) none := by
  obtain ⟨m, hkm, hml⟩ := path_append.mp h
  obtain rfl := hml.head?
  have htail : Path g (some x) (x :: l) none := ⟨rfl, by rw [hx]; exact hml.congr hl⟩
  rcases eq_nil_or_concat' k with rfl | ⟨k, a, rfl⟩
  · exact htail
  rw [path_concat] at hkm
  have hhead : (k ++ [a] ++ x :: l).head? = (k ++ [a] ++ l).head? := by cases k <;> rfl
  rw [hhead]
  refine path_append.mpr ⟨some x, path_concat.mpr ⟨hkm.1.congr fun b hb => ?_, ?_⟩, htail⟩
  · refine hk b (mem_append_left _ hb) ?_
    rw [getLast?_concat]
    intro hba
    exact (nodup_append.mp hd).2.2 b hb a (mem_singleton_self a) (Option.some.inj hba)
  · exact hlast a getLast?_concat

/-- The cells of `l` are linked by `nxt` from the first to the last and by `prv` back. -/
structure Linked (nxt prv : α → Option α) (l : List α) : Prop where
  forward : Path nxt l.head? l none
  backward : Path prv l.getLast? l.reverse none

theorem linked_nil (nxt prv : α → Option α) : Linked nxt prv [] := ⟨rfl, rfl⟩

theorem Linked.congr {nxt prv nxt' prv' : α → Option α} (h : Linked nxt prv l)
    (hn : ∀ a ∈ l, nxt' a = nxt a) (hp : ∀ a ∈ l, prv' a = prv a) : Linked nxt' prv' l :=
  ⟨h.forward.congr hn, h.backward.congr fun a ha => hp a (mem_reverse.mp ha)⟩

/-- **Insertion into a list linked both ways** changes one forward and one backward pointer. -/
theorem Linked.insert {nxt prv nxt' prv' : α → Option α} (h : Linked nxt prv (k ++ l))
    (hd : (k ++ l).Nodup) (hnx : nxt' x = l.head?) (hpx : prv' x = k.getLast?)
    (hnk : ∀ a ∈ k.getLast?, nxt' a = some x) (hpl : ∀ a ∈ l.head?, prv' a = some x)
    (hn : ∀ a ∈ k ++ l, some a ≠ k.getLast? → nxt' a = nxt a)
    (hp : ∀ a ∈ k ++ l, some a ≠ l.head? → prv' a = prv a) : Linked nxt' prv' (k ++ x :: l) := by
  have hdisj : ∀ a ∈ l, some a ≠ k.getLast? := fun a ha he =>
    (nodup_append.mp hd).2.2 a (mem_of_getLast? he.symm) a ha rfl
  have hdisj' : ∀ a ∈ k, some a ≠ l.head? := fun a ha he =>
    (nodup_append.mp hd).2.2 a ha a (mem_of_head? he.symm) rfl
  refine ⟨h.forward.insert (nodup_append.mp hd).1 hnx hnk
    (fun a ha => hn a (mem_append_left l ha))
    fun a ha => hn a (mem_append_right k ha) (hdisj a ha), ?_⟩
  -- Backwards the two parts change places.
  have hback : Path prv (l.reverse ++ k.reverse).head? (l.reverse ++ k.reverse) none := by
    rw [← reverse_append, head?_reverse]
    exact h.backward
  have hins := hback.insert (g := prv') (x := x)
    (nodup_reverse.mpr (nodup_append.mp hd).2.1)
    (by rw [head?_reverse]; exact hpx)
    (by rw [getLast?_reverse]; exact hpl)
    (fun a ha => by
      rw [getLast?_reverse]
      exact hp a (mem_append_right k (mem_reverse.mp ha)))
    (fun a ha => hp a (mem_append_left l (mem_reverse.mp ha))
      (hdisj' a (mem_reverse.mp ha)))
  have hrev : (k ++ x :: l).reverse = l.reverse ++ x :: k.reverse := by simp
  rw [← head?_reverse, hrev]
  exact hins

end Novachains.Lib
