import Mathlib.Data.List.Basic
import Mathlib.Data.List.Pairwise
import Mathlib.Tactic.Ring

/-!
# Canonical lists of runs

A set of cells kept as a list of runs of consecutive cells.  The list is
canonical when its runs are nonempty, ascending, and separated by at least one
uncovered cell, so that no two of them could be one.  Then the largest run says
how many consecutive cells the set contains.
-/

namespace Novachains.Lib

open List

/-- The `size` consecutive cells that begin at `start`. -/
structure Run where
  start : ℕ
  size : ℕ
  deriving DecidableEq, Repr

namespace Run

def stop (r : Run) : ℕ := r.start + r.size

/-- The run holds the cell `x`. -/
def Has (r : Run) (x : ℕ) : Prop := r.start ≤ x ∧ x < r.start + r.size

theorem stop_eq (r : Run) : r.stop = r.start + r.size := rfl

@[simp] theorem stop_mk (s n : ℕ) : (Run.mk s n).stop = s + n := rfl
@[simp] theorem has_mk (s n x : ℕ) : (Run.mk s n).Has x ↔ s ≤ x ∧ x < s + n := Iff.rfl

end Run

/-- Some run of the list holds the cell `x`. -/
def Covers (l : List Run) (x : ℕ) : Prop := ∃ r ∈ l, r.Has x

@[simp] theorem not_covers_nil (x : ℕ) : ¬ Covers [] x := by simp [Covers]

@[simp] theorem covers_cons (r : Run) (l : List Run) (x : ℕ) :
    Covers (r :: l) x ↔ r.Has x ∨ Covers l x := by simp [Covers]

@[simp] theorem covers_append (k l : List Run) (x : ℕ) :
    Covers (k ++ l) x ↔ Covers k x ∨ Covers l x := by
  simp only [Covers, mem_append, or_and_right, exists_or]

structure Canonical (l : List Run) : Prop where
  pos : ∀ r ∈ l, 0 < r.size
  gaps : l.Pairwise fun a b => a.stop < b.start

theorem canonical_nil : Canonical [] := ⟨by simp, List.Pairwise.nil⟩

variable {r : Run} {l : List Run}

theorem canonical_cons :
    Canonical (r :: l) ↔ 0 < r.size ∧ (∀ b ∈ l, r.stop < b.start) ∧ Canonical l := by
  constructor
  · rintro ⟨hp, hg⟩
    rw [pairwise_cons] at hg
    exact ⟨hp r (by simp), hg.1, fun b hb => hp b (by simp [hb]), hg.2⟩
  rintro ⟨h0, hgap, hp, hg⟩
  refine ⟨?_, pairwise_cons.mpr ⟨hgap, hg⟩⟩
  intro b hb
  rcases mem_cons.mp hb with rfl | hb
  · exact h0
  · exact hp b hb

variable {k : List Run}

theorem canonical_append : Canonical (k ++ l) ↔
      Canonical k ∧ Canonical l ∧ ∀ a ∈ k, ∀ b ∈ l, a.stop < b.start := by
  constructor
  · rintro ⟨hp, hg⟩
    rw [pairwise_append] at hg
    exact ⟨⟨fun r hr => hp r (by simp [hr]), hg.1⟩,
      ⟨fun r hr => hp r (by simp [hr]), hg.2.1⟩, hg.2.2⟩
  · rintro ⟨hk, hl, hkl⟩
    refine ⟨?_, pairwise_append.mpr ⟨hk.gaps, hl.gaps, hkl⟩⟩
    intro r hr
    rcases mem_append.mp hr with hr | hr
    · exact hk.pos r hr
    · exact hl.pos r hr

def total (l : List Run) : ℕ := (l.map Run.size).sum

@[simp] theorem total_nil : total [] = 0 := rfl
@[simp] theorem total_cons (r : Run) (l : List Run) : total (r :: l) = r.size + total l := by
  simp [total]
@[simp] theorem total_append (k l : List Run) : total (k ++ l) = total k + total l := by
  simp [total]

def largest : List Run → ℕ
  | [] => 0
  | r :: l => max r.size (largest l)

@[simp] theorem largest_nil : largest [] = 0 := rfl
@[simp] theorem largest_cons (r : Run) (l : List Run) :
    largest (r :: l) = max r.size (largest l) := rfl

@[simp] theorem largest_append (k l : List Run) :
    largest (k ++ l) = max (largest k) (largest l) := by
  induction k with
  | nil => simp
  | cons r k ih => simp [ih, max_assoc]

theorem largest_eq_foldr (l : List Run) : largest l = (l.map Run.size).foldr max 0 := by
  induction l with
  | nil => rfl
  | cons r l ih => rw [largest_cons, ih, map_cons, foldr_cons]

theorem size_le_largest (h : r ∈ l) : r.size ≤ largest l := by
  induction l with
  | nil => simp at h
  | cons a l ih =>
    rcases mem_cons.mp h with rfl | h
    · exact le_max_left _ _
    · exact le_trans (ih h) (le_max_right _ _)

variable {n : ℕ}

theorem largest_le_iff : largest l ≤ n ↔ ∀ r ∈ l, r.size ≤ n := by
  induction l with
  | nil => simp
  | cons a l ih => simp [ih]

theorem exists_le_size (h0 : 0 < n) (h : n ≤ largest l) : ∃ r ∈ l, n ≤ r.size := by
  by_contra hc
  push Not at hc
  have hle : largest l ≤ n - 1 := largest_le_iff.mpr fun r hr => by have := hc r hr; omega
  omega

theorem total_eq_zero_iff (h : Canonical l) : total l = 0 ↔ l = [] := by
  cases l with
  | nil => simp
  | cons r l =>
    have hr := (canonical_cons.mp h).1
    simp only [total_cons, reduceCtorEq, iff_false]
    omega

theorem eq_nil_of_not_covers (h : Canonical l) (hc : ∀ x, ¬ Covers l x) : l = [] := by
  cases l with
  | nil => rfl
  | cons r l =>
    have hr := (canonical_cons.mp h).1
    exact absurd ((covers_cons r l r.start).mpr (Or.inl ⟨le_rfl, by omega⟩)) (hc r.start)

theorem Canonical.total_le (h : Canonical l) (hb : ∀ r ∈ l, r.stop ≤ n) : total l ≤ n := by
  have key : ∀ (l : List Run) (m : ℕ), Canonical l → (∀ r ∈ l, m ≤ r.start) →
      (∀ r ∈ l, r.stop ≤ n) → m ≤ n → m + total l ≤ n := by
    intro l
    induction l with
    | nil => intro m _ _ _ hm; simpa using hm
    | cons r l ih =>
      intro m hc hlo hhi _
      obtain ⟨-, hgap, hl⟩ := canonical_cons.mp hc
      have hr := hhi r (by simp)
      have hlo' := hlo r (by simp)
      have := ih r.stop hl (fun b hb => le_of_lt (hgap b hb))
        (fun b hb => hhi b (by simp [hb])) hr
      rw [Run.stop_eq] at this
      simp only [total_cons]
      omega
  simpa using key l 0 h (fun _ _ => Nat.zero_le _) hb (Nat.zero_le _)

/-- What is left of a run once its first `n` cells are taken. -/
def carve (n : ℕ) (r : Run) : List Run :=
  if r.size = n then [] else [⟨r.start + n, r.size - n⟩]

section Carve
variable {k l : List Run} {r : Run} {n : ℕ}

theorem canonical_carve (h : Canonical (k ++ r :: l)) (hn : n ≤ r.size) :
    Canonical (k ++ (carve n r ++ l)) := by
  obtain ⟨hk, hrl, hkr⟩ := canonical_append.mp h
  obtain ⟨hr, hgap, hl⟩ := canonical_cons.mp hrl
  by_cases he : r.size = n
  · rw [carve, if_pos he, nil_append]
    exact canonical_append.mpr ⟨hk, hl, fun a ha b hb => hkr a ha b (by simp [hb])⟩
  rw [carve, if_neg he, singleton_append]
  refine canonical_append.mpr ⟨hk, canonical_cons.mpr ⟨?_, ?_, hl⟩, ?_⟩
  · show 0 < r.size - n
    omega
  · intro b hb
    have := hgap b hb
    rw [Run.stop_eq] at this
    rw [Run.stop_mk]
    omega
  · intro a ha b hb
    have hab := hkr a ha r (by simp)
    rcases mem_cons.mp hb with rfl | hb
    · show a.stop < r.start + n
      omega
    · exact hkr a ha b (by simp [hb])

theorem covers_carve (h : Canonical (k ++ r :: l)) (hn : n ≤ r.size) (x : ℕ) :
    Covers (k ++ (carve n r ++ l)) x ↔
      Covers (k ++ r :: l) x ∧ ¬ (r.start ≤ x ∧ x < r.start + n) := by
  obtain ⟨hk, hrl, hkr⟩ := canonical_append.mp h
  obtain ⟨hr, hgap, hl⟩ := canonical_cons.mp hrl
  -- Cells of the other runs lie outside `r`.
  have hleft : Covers k x → ¬ (r.start ≤ x ∧ x < r.start + r.size) := by
    rintro ⟨a, ha, hax⟩ hx
    have hlt := hkr a ha r (by simp)
    have hax' : a.start ≤ x ∧ x < a.start + a.size := hax
    rw [Run.stop_eq] at hlt
    omega
  have hright : Covers l x → ¬ (r.start ≤ x ∧ x < r.start + r.size) := by
    rintro ⟨b, hb, hbx⟩ hx
    have hlt := hgap b hb
    have hbx' : b.start ≤ x ∧ x < b.start + b.size := hbx
    rw [Run.stop_eq] at hlt
    omega
  have hcarve : Covers (carve n r) x ↔ r.Has x ∧ ¬ (r.start ≤ x ∧ x < r.start + n) := by
    simp only [carve, Run.Has]
    split
    · simp only [not_covers_nil, false_iff]; omega
    · simp only [covers_cons, not_covers_nil, or_false, Run.has_mk]; omega
  simp only [covers_append, covers_cons, hcarve]
  have hmono : (r.start ≤ x ∧ x < r.start + n) → (r.start ≤ x ∧ x < r.start + r.size) := by omega
  constructor
  · rintro (hc | ⟨hr, hout⟩ | hc)
    · exact ⟨.inl hc, fun hx => hleft hc (hmono hx)⟩
    · exact ⟨.inr (.inl hr), hout⟩
    · exact ⟨.inr (.inr hc), fun hx => hright hc (hmono hx)⟩
  · rintro ⟨hc | hr | hc, hout⟩
    · exact .inl hc
    · exact .inr (.inl ⟨hr, hout⟩)
    · exact .inr (.inr hc)

theorem total_carve (hn : n ≤ r.size) :
    total (k ++ (carve n r ++ l)) + n = total (k ++ r :: l) := by
  simp only [total_append, total_cons, carve]
  split
  · simp only [total_nil]; omega
  · simp only [total_cons, total_nil]; omega

theorem stop_le_of_mem_carve {b : Run} (hb : b ∈ carve n r) (hn : n ≤ r.size) :
    b.stop = r.stop := by
  rw [carve] at hb
  split at hb
  · simp at hb
  · rw [mem_singleton.mp hb, Run.stop_mk, Run.stop_eq]; omega

end Carve

/-! ## Adding cells -/

/-- Put the run `[s, s + n)` in front of a list, joining it to the first run when
the two touch. -/
def addFront (s n : ℕ) : List Run → List Run
  | [] => [⟨s, n⟩]
  | b :: l => if s + n = b.start then ⟨s, n + b.size⟩ :: l else ⟨s, n⟩ :: b :: l

/-- Put two lists together, joining the last run of the first to the first run of
the second when they touch. -/
def joinLast (k l : List Run) : List Run :=
  match k.getLast?, l with
  | some a, r :: l' =>
    if a.stop = r.start then k.dropLast ++ ⟨a.start, a.size + r.size⟩ :: l' else k ++ l
  | _, _ => k ++ l

section Add
variable {k l : List Run} {s n : ℕ}

theorem addFront_eq_cons (s n : ℕ) (l : List Run) :
    ∃ m l', addFront s n l = ⟨s, m⟩ :: l' ∧ n ≤ m := by
  cases l with
  | nil => exact ⟨n, [], rfl, le_rfl⟩
  | cons b l =>
    by_cases h : s + n = b.start
    · exact ⟨n + b.size, l, by rw [addFront, if_pos h], by omega⟩
    · exact ⟨n, b :: l, by rw [addFront, if_neg h], le_rfl⟩

variable {m : ℕ}

theorem largest_addFront {l' : List Run} (h : addFront s n l = ⟨s, m⟩ :: l') :
    largest (addFront s n l) = max m (largest l) := by
  cases l with
  | nil => simp only [addFront, List.cons.injEq, Run.mk.injEq] at h ⊢; simp [h.1.2]
  | cons b l =>
    by_cases hb : s + n = b.start
    · simp only [addFront, if_pos hb, List.cons.injEq, Run.mk.injEq] at h ⊢
      simp only [largest_cons]
      omega
    · simp only [addFront, if_neg hb, List.cons.injEq, Run.mk.injEq] at h ⊢
      simp only [largest_cons]
      omega

theorem canonical_addFront (hl : Canonical l) (hn : 0 < n) (hs : ∀ b ∈ l, s + n ≤ b.start) :
    Canonical (addFront s n l) := by
  cases l with
  | nil => exact canonical_cons.mpr ⟨hn, by simp, canonical_nil⟩
  | cons b l =>
    obtain ⟨hb, hgap, hl'⟩ := canonical_cons.mp hl
    by_cases h : s + n = b.start
    · rw [addFront, if_pos h]
      refine canonical_cons.mpr ⟨by show 0 < n + b.size; omega, ?_, hl'⟩
      intro c hc
      have := hgap c hc
      rw [Run.stop_eq] at this
      rw [Run.stop_mk]
      omega
    · rw [addFront, if_neg h]
      refine canonical_cons.mpr ⟨hn, ?_, hl⟩
      intro c hc
      have hsb := hs b (by simp)
      rcases mem_cons.mp hc with rfl | hc
      · rw [Run.stop_mk]; omega
      have := hgap c hc
      rw [Run.stop_eq] at this
      rw [Run.stop_mk]
      omega

theorem covers_addFront (s n : ℕ) (l : List Run) (x : ℕ) :
    Covers (addFront s n l) x ↔ (s ≤ x ∧ x < s + n) ∨ Covers l x := by
  cases l with
  | nil => simp [addFront]
  | cons b l =>
    by_cases h : s + n = b.start
    · rw [addFront, if_pos h]
      simp only [covers_cons, Run.Has]
      rw [← or_assoc]
      apply or_congr _ Iff.rfl
      omega
    · rw [addFront, if_neg h]; simp

@[simp] theorem total_addFront (s n : ℕ) (l : List Run) :
    total (addFront s n l) = n + total l := by
  cases l with
  | nil => simp [addFront]
  | cons b l =>
    simp only [addFront]
    split
    · simp only [total_cons]; omega
    · simp only [total_cons]

theorem stop_addFront_le (hm : s + n ≤ m) (hb : ∀ b ∈ l, b.stop ≤ m) :
    ∀ b ∈ addFront s n l, b.stop ≤ m := by
  intro c hc
  cases l with
  | nil => rw [addFront, mem_singleton] at hc; rw [hc, Run.stop_mk]; exact hm
  | cons b l =>
    by_cases h : s + n = b.start
    · rw [addFront, if_pos h] at hc
      rcases mem_cons.mp hc with rfl | hc
      · have := hb b (by simp)
        rw [Run.stop_eq] at this
        rw [Run.stop_mk]
        omega
      · exact hb c (by simp [hc])
    · rw [addFront, if_neg h] at hc
      rcases mem_cons.mp hc with rfl | hc
      · rw [Run.stop_mk]; exact hm
      · exact hb c hc

@[simp] theorem joinLast_nil (l : List Run) : joinLast [] l = l := rfl

theorem joinLast_concat (k : List Run) (a r : Run) (l : List Run) :
    joinLast (k ++ [a]) (r :: l) =
      if a.stop = r.start then k ++ ⟨a.start, a.size + r.size⟩ :: l else k ++ a :: r :: l := by
  simp [joinLast]

theorem canonical_joinLast (hk : Canonical k) (hl : Canonical (r :: l))
    (hkl : ∀ a ∈ k, a.stop ≤ r.start) : Canonical (joinLast k (r :: l)) := by
  rcases eq_nil_or_concat' k with rfl | ⟨k, a, rfl⟩
  · simpa using hl
  obtain ⟨hk', ha, hka⟩ := canonical_append.mp hk
  obtain ⟨hr, hgap, hl'⟩ := canonical_cons.mp hl
  have hapos : 0 < a.size := (canonical_cons.mp ha).1
  have har := hkl a (by simp)
  rw [joinLast_concat]
  by_cases h : a.stop = r.start
  · rw [if_pos h]
    rw [Run.stop_eq] at h
    refine canonical_append.mpr ⟨hk', canonical_cons.mpr ⟨?_, ?_, hl'⟩, ?_⟩
    · show 0 < a.size + r.size
      omega
    · intro c hc
      have := hgap c hc
      rw [Run.stop_eq] at this
      rw [Run.stop_mk]
      omega
    · intro b hb c hc
      have hba : b.stop < a.start := hka b hb a (by simp)
      rcases mem_cons.mp hc with rfl | hc
      · exact hba
      · have := hgap c hc
        rw [Run.stop_eq] at this
        omega
  · rw [if_neg h]
    have hlt : a.stop < r.start := by omega
    refine canonical_append.mpr ⟨hk', canonical_cons.mpr ⟨hapos, ?_, hl⟩, ?_⟩
    · intro c hc
      rcases mem_cons.mp hc with rfl | hc
      · exact hlt
      · have := hgap c hc
        rw [Run.stop_eq] at this
        omega
    · intro b hb c hc
      have hba : b.stop < a.start := hka b hb a (by simp)
      rw [Run.stop_eq] at hlt
      rcases mem_cons.mp hc with rfl | hc
      · exact hba
      rcases mem_cons.mp hc with rfl | hc
      · omega
      · have := hgap c hc
        rw [Run.stop_eq] at this
        omega

theorem covers_joinLast (k l : List Run) (x : ℕ) :
    Covers (joinLast k l) x ↔ Covers k x ∨ Covers l x := by
  rcases eq_nil_or_concat' k with rfl | ⟨k, a, rfl⟩
  · simp
  cases l with
  | nil => simp [joinLast]
  | cons r l =>
    rw [joinLast_concat]
    by_cases h : a.stop = r.start
    · rw [if_pos h]
      rw [Run.stop_eq] at h
      have hjoin : (Run.mk a.start (a.size + r.size)).Has x ↔ a.Has x ∨ r.Has x := by
        simp only [Run.Has]; omega
      simp only [covers_append, covers_cons, hjoin, not_covers_nil, or_false, or_assoc]
    · rw [if_neg h]
      simp only [covers_append, covers_cons, not_covers_nil, or_false, or_assoc]

@[simp] theorem total_joinLast (k l : List Run) :
    total (joinLast k l) = total k + total l := by
  rcases eq_nil_or_concat' k with rfl | ⟨k, a, rfl⟩
  · simp
  cases l with
  | nil => simp [joinLast]
  | cons r l =>
    rw [joinLast_concat]
    split <;> simp only [total_append, total_cons, total_nil] <;> omega

theorem stop_joinLast_le (hk : ∀ b ∈ k, b.stop ≤ m) (hl : ∀ b ∈ l, b.stop ≤ m) :
    ∀ b ∈ joinLast k l, b.stop ≤ m := by
  intro c hc
  rcases eq_nil_or_concat' k with rfl | ⟨k, a, rfl⟩
  · exact hl c (by simpa using hc)
  cases l with
  | nil => exact hk c (by simpa [joinLast] using hc)
  | cons r l =>
    have hr := hl r (by simp)
    rw [joinLast_concat] at hc
    by_cases h : a.stop = r.start
    · rw [if_pos h, mem_append, mem_cons] at hc
      rcases hc with hc | rfl | hc
      · exact hk c (by simp [hc])
      · rw [Run.stop_eq] at h hr
        rw [Run.stop_mk]
        omega
      · exact hl c (by simp [hc])
    · rw [if_neg h, mem_append, mem_cons] at hc
      rcases hc with hc | rfl | hc
      · exact hk c (by simp [hc])
      · exact hk c (by simp)
      · exact hl c hc

end Add

/-- The `n` cells from `x` on all satisfy `p`. -/
def Consecutive (p : ℕ → Prop) (x n : ℕ) : Prop := ∀ i < n, p (x + i)

variable {x : ℕ}

theorem Canonical.eq_of_adjacent (h : Canonical l) {a b : Run} (ha : a ∈ l) (hb : b ∈ l)
    (hax : a.Has x) (hbx : b.Has (x + 1)) : a = b := by
  have hs : a.start ≤ x ∧ x < a.start + a.size := hax
  have ht : b.start ≤ x + 1 ∧ x + 1 < b.start + b.size := hbx
  induction l with
  | nil => simp at ha
  | cons r l ih =>
    obtain ⟨-, hgap, hl⟩ := canonical_cons.mp h
    rcases mem_cons.mp ha with har | hal <;> rcases mem_cons.mp hb with hbr | hbl
    · rw [har, hbr]
    · have hsep := hgap b hbl
      rw [← har, Run.stop_eq] at hsep
      omega
    · have hsep := hgap a hal
      rw [← hbr, Run.stop_eq] at hsep
      omega
    · exact ih hl hal hbl

theorem Canonical.consecutive_le (h : Canonical l) (hc : Consecutive (Covers l) x n) :
    n ≤ largest l := by
  rcases Nat.eq_zero_or_pos n with rfl | hn
  · exact Nat.zero_le _
  obtain ⟨r, hr, hx⟩ := hc 0 hn
  -- The run that holds the first cell holds all of them.
  have hall : ∀ i, i < n → r.Has (x + i) := by
    intro i
    induction i with
    | zero => intro _; exact hx
    | succ i ih =>
      intro hi
      obtain ⟨b, hb, hbx⟩ := hc (i + 1) hi
      have hri := ih (by omega)
      rw [h.eq_of_adjacent hr hb hri hbx]
      exact hbx
  have hlast : r.start ≤ x + (n - 1) ∧ x + (n - 1) < r.start + r.size := hall (n - 1) (by omega)
  have hfirst : r.start ≤ x + 0 ∧ x + 0 < r.start + r.size := hx
  have hle := size_le_largest hr
  omega

theorem start_le_of_covers (h : Canonical (r :: l)) (hx : Covers (r :: l) x) : r.start ≤ x := by
  obtain ⟨-, hgap, -⟩ := canonical_cons.mp h
  rcases (covers_cons r l x).mp hx with hr | ⟨b, hb, hbx⟩
  · exact hr.1
  have hsep := hgap b hb
  have hle : b.start ≤ x := hbx.1
  rw [Run.stop_eq] at hsep
  omega

theorem not_covers_stop (h : Canonical (r :: l)) : ¬ Covers (r :: l) r.stop := by
  obtain ⟨-, hgap, -⟩ := canonical_cons.mp h
  rw [covers_cons]
  rintro (hr | ⟨b, hb, hbx⟩)
  · exact absurd hr.2 (lt_irrefl _)
  · exact absurd hbx.1 (Nat.not_le.mpr (hgap b hb))

theorem head_eq_of_covers {s : Run} (hk : Canonical (r :: k)) (hl : Canonical (s :: l))
    (h : ∀ x, Covers (r :: k) x ↔ Covers (s :: l) x) : r = s := by
  have hr0 := hk.pos r mem_cons_self
  have hs0 := hl.pos s mem_cons_self
  have hr : Covers (r :: k) r.start := (covers_cons ..).mpr (.inl ⟨le_rfl, by omega⟩)
  have hs : Covers (s :: l) s.start := (covers_cons ..).mpr (.inl ⟨le_rfl, by omega⟩)
  have hstart : r.start = s.start :=
    le_antisymm (start_le_of_covers hk ((h _).mpr hs)) (start_le_of_covers hl ((h _).mp hr))
  have hrs : ¬ s.Has r.stop := fun hx =>
    not_covers_stop hk ((h _).mpr ((covers_cons ..).mpr (.inl hx)))
  have hsr : ¬ r.Has s.stop := fun hx =>
    not_covers_stop hl ((h _).mp ((covers_cons ..).mpr (.inl hx)))
  obtain ⟨a, m⟩ := r
  obtain ⟨b, n⟩ := s
  simp only [Run.has_mk, Run.stop_mk] at hrs hsr hstart
  congr 1
  omega

/-- **A canonical list is determined by the cells it covers.** -/
theorem Canonical.ext (hk : Canonical k) (hl : Canonical l) (h : ∀ x, Covers k x ↔ Covers l x) :
    k = l := by
  induction k generalizing l with
  | nil => exact (eq_nil_of_not_covers hl fun x hx => not_covers_nil x ((h x).mpr hx)).symm
  | cons r k ih =>
    cases l with
    | nil => exact eq_nil_of_not_covers hk fun x hx => not_covers_nil x ((h x).mp hx)
    | cons s l =>
      obtain rfl := head_eq_of_covers hk hl h
      obtain ⟨-, hgapk, hk'⟩ := canonical_cons.mp hk
      obtain ⟨-, hgapl, hl'⟩ := canonical_cons.mp hl
      -- The tails have no cell of the first run.
      have hout : ∀ {t : List Run}, (∀ b ∈ t, r.stop < b.start) → ∀ x, Covers t x → ¬ r.Has x := by
        rintro t hgap x ⟨b, hb, hbx⟩ hx
        exact absurd (hx.2.trans (hgap b hb)) (Nat.not_lt.mpr hbx.1)
      refine congrArg (r :: ·) (ih hk' hl' fun x => ⟨fun hx => ?_, fun hx => ?_⟩)
      · exact ((covers_cons ..).mp ((h x).mp ((covers_cons ..).mpr (.inr hx)))).resolve_left
          (hout hgapk x hx)
      · exact ((covers_cons ..).mp ((h x).mpr ((covers_cons ..).mpr (.inr hx)))).resolve_left
          (hout hgapl x hx)

end Novachains.Lib
