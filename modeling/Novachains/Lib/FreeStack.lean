import Mathlib.Data.List.Perm.Basic
import Mathlib.Data.List.Nodup
import Mathlib.Data.List.Range
import Mathlib.Algebra.Order.Ring.Nat

/-!
# Free stacks

The numbers below `n` are given out and taken back through an array of `n` entries and a
cursor: the entries from the cursor on are the free numbers, and the next one to be given out
is the one at the cursor.  The entries before the cursor mean nothing.
-/

namespace Novachains.Lib

open List

/-- The entries of `l` from `b` on are the numbers below `l.length` that are not in `used`. -/
structure FreeStack (l : List ℕ) (b : ℕ) (used : List ℕ) : Prop where
  length_used : used.length = b
  perm : (l.drop b ++ used).Perm (List.range l.length)

namespace FreeStack
variable {l used : List ℕ} {b x : ℕ}

theorem nil : FreeStack [] 0 [] := ⟨rfl, .nil⟩

section
variable (h : FreeStack l b used)
include h

theorem le_length : b ≤ l.length := by
  have hlen := h.perm.length_eq
  simp only [List.length_append, length_drop, length_range, h.length_used] at hlen
  omega

theorem nodup : (l.drop b ++ used).Nodup :=
  h.perm.nodup_iff.mpr nodup_range

theorem nodup_used : used.Nodup := (nodup_append.mp h.nodup).2.1

theorem lt_of_mem_used (hx : x ∈ used) : x < l.length :=
  mem_range.mp (h.perm.mem_iff.mp (mem_append_right _ hx))

theorem lt_of_mem_free (hx : x ∈ l.drop b) : x < l.length :=
  mem_range.mp (h.perm.mem_iff.mp (mem_append_left _ hx))

theorem mem_free_iff (hx : x < l.length) : x ∈ l.drop b ↔ x ∉ used := by
  constructor
  · intro hfree hused
    exact (nodup_append.mp h.nodup).2.2 x hfree x hused rfl
  · intro hused
    have hmem := h.perm.mem_iff.mpr (mem_range.mpr hx)
    exact (mem_append.mp hmem).resolve_right hused

end

theorem mem_free_cursor (hx : l[b]? = some x) : x ∈ l.drop b :=
  mem_of_getElem? (by rw [getElem?_drop, add_zero]; exact hx : (l.drop b)[0]? = some x)

section
variable (h : FreeStack l b used)
include h

theorem not_mem_used (hx : l[b]? = some x) : x ∉ used :=
  (h.mem_free_iff (h.lt_of_mem_free (mem_free_cursor hx))).mp (mem_free_cursor hx)

theorem pop (hx : l[b]? = some x) : FreeStack l (b + 1) (x :: used) := by
  obtain ⟨hb, rfl⟩ := List.getElem?_eq_some_iff.mp hx
  refine ⟨by rw [length_cons, h.length_used], ?_⟩
  have hperm := h.perm
  rw [drop_eq_getElem_cons hb, cons_append] at hperm
  exact perm_middle.trans hperm

theorem push (hx : x ∈ used) :
    FreeStack (l.set (b - 1) x) (b - 1) (used.erase x) := by
  have hpos : 0 < b := h.length_used ▸ length_pos_of_mem hx
  have hle := h.le_length
  refine ⟨by rw [length_erase_of_mem hx, h.length_used], ?_⟩
  have hdrop : (l.set (b - 1) x).drop (b - 1) = x :: l.drop b := by
    rw [drop_eq_getElem_cons (by rw [length_set]; omega), getElem_set_self,
      drop_set_of_lt (by omega), Nat.sub_add_cancel hpos]
  rw [hdrop, length_set, cons_append]
  refine (perm_middle.symm.trans ?_).trans h.perm
  exact (perm_cons_erase hx).symm.append_left _

theorem grow (d : ℕ) :
    FreeStack (l ++ List.range' l.length d) b used := by
  refine ⟨h.length_used, ?_⟩
  have hrange : List.range (l.length + d) = List.range l.length ++ List.range' l.length d := by
    rw [range_eq_range', range_eq_range', ← range'_append_1, zero_add]
  rw [drop_append_of_le_length h.le_length, List.length_append, length_range', hrange, append_assoc]
  refine (List.perm_append_comm.append_left _).trans ?_
  rw [← append_assoc]
  exact h.perm.append_right _

theorem compact {m : ℕ} (hm : m ≤ l.length) (hused : ∀ x ∈ used, x < m)
    {junk : List ℕ} (hjunk : junk.length = b) {p : ℕ → Bool}
    (hp : ∀ x < m, p x = true ↔ x ∈ l.drop b) :
    FreeStack (junk ++ (List.range m).filter p) b used ∧
      (junk ++ (List.range m).filter p).length = m := by
  have hrest : ((List.range m).filter fun x => !p x).Perm used := by
    refine (perm_ext_iff_of_nodup (List.nodup_range.filter _) h.nodup_used).mpr fun x => ?_
    rw [mem_filter, mem_range, Bool.not_eq_true', ← Bool.not_eq_true]
    constructor
    · rintro ⟨hx, hnot⟩
      by_contra hne
      exact hnot ((hp x hx).mpr ((h.mem_free_iff (hx.trans_le hm)).mpr hne))
    · intro hx
      have hlt := hused x hx
      exact ⟨hlt, fun hpx => (h.mem_free_iff (hlt.trans_le hm)).mp ((hp x hlt).mp hpx) hx⟩
  have hall : ((List.range m).filter p ++ used).Perm (List.range m) :=
    (hrest.symm.append_left _).trans (filter_append_perm p _)
  have hlen : (junk ++ (List.range m).filter p).length = m := by
    have hl := hall.length_eq
    rw [List.length_append, h.length_used, length_range] at hl
    rw [List.length_append, hjunk]
    omega
  refine ⟨⟨h.length_used, ?_⟩, hlen⟩
  rw [hlen, drop_left' hjunk]
  exact hall

end

end FreeStack

end Novachains.Lib
