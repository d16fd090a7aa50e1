import Mathlib.Algebra.Order.Ring.Nat
import Mathlib.Data.Finset.Card

/-!
# Buckets

A list whose elements have a number is put in order of that number, and those with one
number stay in the order they had.  The result changes in one place when an element is
added to the list.
-/

namespace Novachains.Lib

open List

variable {α : Type} (key : α → ℕ)

/-- The elements with the number `s`, in the order of the list. -/
def bucket (l : List α) (s : ℕ) : List α := l.filter fun a => key a = s

/-- The buckets `s`, `s + 1`, ... up to `s + n`. -/
def buckets (l : List α) (s n : ℕ) : List α := (List.range' s n).flatMap (bucket key l)

variable {key} {l : List α} {x a : α} {s n : ℕ}

theorem mem_bucket : a ∈ bucket key l s ↔ a ∈ l ∧ key a = s := by simp [bucket]

theorem bucket_concat_of_eq (h : key x = s) : bucket key (l ++ [x]) s = bucket key l s ++ [x] := by
  simp [bucket, filter_append, h]

theorem bucket_concat_of_ne (h : key x ≠ s) : bucket key (l ++ [x]) s = bucket key l s := by
  simp [bucket, filter_append, h]

theorem buckets_append (m : ℕ) :
    buckets key l s (m + n) = buckets key l s m ++ buckets key l (s + m) n := by
  rw [buckets, ← range'_append_1, flatMap_append]
  rfl

theorem buckets_one : buckets key l s 1 = bucket key l s := by
  simp [buckets, range'_one]

theorem mem_buckets : a ∈ buckets key l s n ↔ a ∈ l ∧ s ≤ key a ∧ key a < s + n := by
  simp only [buckets, mem_flatMap, mem_range'_1, mem_bucket]
  constructor
  · rintro ⟨_, hi, ha, rfl⟩
    exact ⟨ha, hi⟩
  · rintro ⟨ha, hi⟩
    exact ⟨key a, hi, ha, rfl⟩

theorem buckets_concat_of_not_mem (h : key x < s ∨ s + n ≤ key x) :
    buckets key (l ++ [x]) s n = buckets key l s n := by
  refine flatMap_congr fun i hi => bucket_concat_of_ne ?_
  rw [mem_range'_1] at hi
  omega

theorem buckets_split (h : s < n) :
    buckets key l 0 n = buckets key l 0 (s + 1) ++ buckets key l (s + 1) (n - (s + 1)) := by
  conv_lhs => rw [show n = s + 1 + (n - (s + 1)) by omega]
  rw [buckets_append, zero_add]

/-- **Adding an element** puts it at the end of its bucket. -/
theorem buckets_concat (h : key x < n) :
    buckets key (l ++ [x]) 0 n =
      buckets key l 0 (key x + 1) ++ x :: buckets key l (key x + 1) (n - (key x + 1)) := by
  rw [buckets_split h, buckets_concat_of_not_mem (s := key x + 1) (.inl (Nat.lt_succ_self _)),
    buckets_append, buckets_append (key x), buckets_one, buckets_one, zero_add,
    buckets_concat_of_not_mem (.inr (by omega)), bucket_concat_of_eq rfl]
  simp

theorem perm_buckets (h : ∀ a ∈ l, key a < n) : (buckets key l 0 n).Perm l := by
  induction l using List.reverseRecOn with
  | nil =>
    have hnil : buckets key ([] : List α) 0 n = [] := by simp [buckets, bucket]
    rw [hnil]
  | append_singleton l x ih =>
    have hx : key x < n := h x (mem_append_right l (mem_singleton_self x))
    rw [buckets_concat hx]
    refine perm_middle.trans ?_
    rw [← buckets_split hx]
    exact ((ih fun a ha => h a (mem_append_left [x] ha)).cons x).trans
      (perm_append_singleton x l).symm

theorem perm_flatMap_bucket {nums : List ℕ} (hnd : nums.Nodup) (h : ∀ a ∈ l, key a ∈ nums) :
    (nums.flatMap (bucket key l)).Perm l := by
  induction nums generalizing l with
  | nil =>
    obtain rfl : l = [] := eq_nil_iff_forall_not_mem.mpr fun a ha => absurd (h a ha) (by simp)
    rfl
  | cons s nums ih =>
    obtain ⟨hs, hnd⟩ := nodup_cons.mp hnd
    -- The later buckets are those of what is not in the first one.
    have hrest : ∀ t ∈ nums, bucket key l t = bucket key (l.filter fun a => !decide (key a = s)) t := by
      intro t ht
      have hne : t ≠ s := ne_of_mem_of_not_mem ht hs
      rw [bucket, bucket, List.filter_filter]
      refine filter_congr fun a _ => ?_
      by_cases hat : key a = t <;> simp [hat, hne]
    rw [flatMap_cons, flatMap_congr hrest]
    refine ((ih hnd fun a ha => ?_).append_left _).trans (filter_append_perm _ l)
    obtain ⟨hal, has⟩ := mem_filter.mp ha
    exact (mem_cons.mp (h a hal)).resolve_left (by simpa using has)

theorem pairwise_buckets : (buckets key l s n).Pairwise fun a b => key a ≤ key b := by
  rw [buckets, pairwise_flatMap]
  constructor
  · intro i _
    refine pairwise_of_forall_mem_list ?_
    intro a ha b hb
    rw [(mem_bucket.mp ha).2, (mem_bucket.mp hb).2]
  · refine (pairwise_lt_range' 1).imp ?_
    intro i j hij a ha b hb
    rw [(mem_bucket.mp ha).2, (mem_bucket.mp hb).2]
    exact hij.le

theorem bucket_buckets (h : s < n) : bucket key (buckets key l 0 n) s = bucket key l s := by
  have hnone : ∀ t k, (s < t ∨ t + k ≤ s) → bucket key (buckets key l t k) s = [] := by
    intro t k ht
    refine filter_eq_nil_iff.mpr fun a ha => ?_
    have hk := (mem_buckets.mp ha).2
    simp only [decide_eq_true_eq]
    omega
  have hsplit : buckets key l 0 n =
      buckets key l 0 s ++ bucket key l s ++ buckets key l (s + 1) (n - (s + 1)) := by
    rw [buckets_split h, buckets_append, zero_add, buckets_one]
  have happ : ∀ l₁ l₂ : List α, bucket key (l₁ ++ l₂) s = bucket key l₁ s ++ bucket key l₂ s :=
    fun l₁ l₂ => filter_append l₁ l₂
  rw [hsplit, happ, happ, hnone 0 s (by omega), hnone (s + 1) _ (by omega), nil_append, append_nil]
  exact filter_eq_self.mpr fun a ha => by simpa using (mem_bucket.mp ha).2

/-- How many of the first `n` buckets are not empty. -/
def usedBuckets (key : α → ℕ) (l : List α) (n : ℕ) : ℕ :=
  ((Finset.range n).filter fun s => bucket key l s ≠ []).card

theorem usedBuckets_concat_of_ne (h : bucket key l (key x) ≠ []) :
    usedBuckets key (l ++ [x]) n = usedBuckets key l n := by
  unfold usedBuckets
  congr 1
  refine Finset.filter_congr fun s _ => ?_
  by_cases hs : key x = s
  · subst hs
    simp [bucket_concat_of_eq, h]
  · rw [bucket_concat_of_ne hs]

theorem usedBuckets_concat_of_eq (hn : key x < n) (h : bucket key l (key x) = []) :
    usedBuckets key (l ++ [x]) n = usedBuckets key l n + 1 := by
  have hset : ((Finset.range n).filter fun s => bucket key (l ++ [x]) s ≠ []) =
      insert (key x) ((Finset.range n).filter fun s => bucket key l s ≠ []) := by
    ext s
    by_cases hs : key x = s
    · subst hs
      simp [bucket_concat_of_eq, hn]
    · simp [bucket_concat_of_ne hs, Ne.symm hs]
  rw [usedBuckets, hset, Finset.card_insert_of_notMem (by simp [h]), usedBuckets]

theorem usedBuckets_le : usedBuckets key l n ≤ n :=
  (Finset.card_filter_le _ _).trans (Finset.card_range n).le

end Novachains.Lib
