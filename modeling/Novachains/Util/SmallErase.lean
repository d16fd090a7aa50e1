import Mathlib.Data.List.Basic
import Mathlib.Logic.Function.Basic

/-!
# Erasing from the small containers

`_utilSet`, `_utilList` and `_utilDeque` keep their elements in an array until there are too many,
and then in a container of the standard library.  An iterator into the array is a pointer.  `erase`
takes the difference of two pointers, which is a number of elements, and divides it by the size of
an element once more.
-/

namespace Novachains.Util

open Function List

/-- `_staticBuf`, `_eleSize` and the elements of the standard container, if there is one. -/
structure SmallStore (α : Type) where
  staticBuf : ℕ → α
  eleSize : ℕ
  heap : Option (List α)

variable {α : Type}

namespace SmallStore

/-- What iterating from `begin` to `end` gives. -/
def elems (s : SmallStore α) : List α := s.heap.getD ((range s.eleSize).map s.staticBuf)

/-- `shift2Stack` of `_utilSet`; the elements are copied to the front of the array. -/
def shift2Stack (s : SmallStore α) (stackSize divisor : ℕ) : SmallStore α :=
  match s.heap with
  | none => s
  | some l =>
    if l.length ≤ (if divisor > 0 then stackSize / divisor else 0) then
      ⟨fun i => l.getD i (s.staticBuf i), l.length, none⟩
    else s

/-- `k` rounds of `_staticBuf[ i ] = _staticBuf[ i + 1 ]`. -/
def shiftDown (buf : ℕ → α) (i : ℕ) : ℕ → ℕ → α
  | 0 => buf
  | k + 1 => shiftDown (update buf i (buf (i + 1))) (i + 1) k

/-- `erase` at a pointer: the index that it has, and that of the pointer returned. -/
def eraseAt (sizeofT : ℕ) (s : SmallStore α) (i : ℕ) : SmallStore α × ℕ :=
  let pos := i / sizeofT
  ({ s with
      eleSize := s.eleSize - 1
      staticBuf := shiftDown s.staticBuf pos (s.eleSize - 1 - pos) }, pos)

/-- `k` rounds of the loop that erases a range, from `i` on: elements before `e` are left out, and
the others go to `j`. -/
def eraseLoop (e : ℕ) : ℕ → (ℕ → α) → ℕ → ℕ → ℕ → (ℕ → α) × ℕ
  | 0, buf, _, n, _ => (buf, n)
  | k + 1, buf, j, n, i =>
    if i < e then eraseLoop e k buf j (n - 1) (i + 1)
    else eraseLoop e k (update buf j (buf i)) (j + 1) n (i + 1)

def eraseIterator (sizeofT : ℕ) (s : SmallStore α) (i : ℕ) : SmallStore α × ℕ :=
  match s.heap with
  | none => s.eraseAt sizeofT i
  | some l => ({ s with heap := some (l.eraseIdx i) }, i)

def eraseIterators (stackSize sizeofT : ℕ) (s : SmallStore α) (first last : ℕ) : SmallStore α × ℕ :=
  match s.heap with
  | some l => ({ s with heap := some (l.take first ++ l.drop last) }, first)
  | none =>
    if s.eleSize > 0 then
      let b := first / sizeofT
      let x := eraseLoop (last / sizeofT) (s.eleSize - b) s.staticBuf b s.eleSize b
      ({ s with staticBuf := x.1, eleSize := x.2 }, b)
    else (s, stackSize)

end SmallStore

/-! The members; an iterator is the index it has. -/

/-- `_utilSet::erase`. -/
def utilSetErase (stackSize sizeofT : ℕ) (s : SmallStore α) (i : ℕ) : SmallStore α :=
  match s.heap with
  | some l => ({ s with heap := some (l.eraseIdx i) } : SmallStore α).shift2Stack stackSize 8
  | none => if s.eleSize > 0 then (s.eraseAt sizeofT i).1 else s

/-- `_utilList::erase`. -/
def utilListErase (sizeofT : ℕ) (s : SmallStore α) (i : ℕ) : SmallStore α × ℕ :=
  s.eraseIterator sizeofT i

/-- `_utilDeque::erase`. -/
def utilDequeErase (sizeofT : ℕ) (s : SmallStore α) (i : ℕ) : SmallStore α × ℕ :=
  s.eraseIterator sizeofT i

def utilListEraseRange (stackSize sizeofT : ℕ) (s : SmallStore α) (first last : ℕ) :
    SmallStore α × ℕ :=
  s.eraseIterators stackSize sizeofT first last

def utilDequeEraseRange (stackSize sizeofT : ℕ) (s : SmallStore α) (first last : ℕ) :
    SmallStore α × ℕ :=
  s.eraseIterators stackSize sizeofT first last

namespace SmallStore

theorem shiftDown_apply (buf : ℕ → α) (i k x : ℕ) :
    shiftDown buf i k x = if i ≤ x ∧ x < i + k then buf (x + 1) else buf x := by
  induction k generalizing buf i with
  | zero => rw [shiftDown, if_neg (by omega)]
  | succ k ih =>
    rw [shiftDown, ih]
    grind [update_apply]

/-- The loop leaves out the `d` elements it finds before `e`. -/
theorem eraseLoop_eq {e k j n i d : ℕ} (buf : ℕ → α) (hd : d = min k (e - i)) (hj : j ≤ i) :
    (eraseLoop e k buf j n i).2 = n - d ∧ ∀ x, (eraseLoop e k buf j n i).1 x =
      if j ≤ x ∧ x < j + (k - d) then buf (x + (i + d - j)) else buf x := by
  induction k generalizing buf j n i d with
  | zero => exact ⟨by simp [eraseLoop, hd], fun x => by rw [eraseLoop, if_neg (by omega)]⟩
  | succ k ih =>
    rw [eraseLoop]
    split_ifs with hi
    · obtain ⟨hn, hx⟩ := @ih j (n - 1) (i + 1) (d - 1) buf (by omega) (by omega)
      refine ⟨by rw [hn]; omega, fun x => ?_⟩
      rw [hx, show k - (d - 1) = k + 1 - d by omega, show i + 1 + (d - 1) = i + d by omega]
    · obtain ⟨hn, hx⟩ := @ih (j + 1) n (i + 1) d (update buf j (buf i)) (by omega) (by omega)
      refine ⟨hn, fun x => ?_⟩
      rw [hx]
      grind [update_apply]

/-- Leaving out `d` elements from `b` on. -/
theorem map_range_skip {f g : ℕ → α} {b d n : ℕ} (h : d ≤ n - b)
    (hg : ∀ x < n - d, g x = if x < b then f x else f (x + d)) :
    (range (n - d)).map g = ((range n).map f).take b ++ ((range n).map f).drop (b + d) := by
  refine ext_getElem (by simp; omega) fun x hx _ => ?_
  have hlen : (((range n).map f).take b).length = min b n := by simp
  rw [length_map, length_range] at hx
  rw [getElem_map, getElem_range, hg x hx]
  split_ifs with hb
  · rw [getElem_append_left (by omega)]
    simp
  · rw [getElem_append_right (by omega)]
    simp only [hlen, getElem_drop, getElem_map, getElem_range]
    congr 1
    omega

/-- Two stretches of one length have the same elements outside. -/
theorem take_append_drop_eq_iff {l : List α} {a b d : ℕ} (hab : a ≤ b) (hb : b + d ≤ l.length) :
    l.take a ++ l.drop (a + d) = l.take b ++ l.drop (b + d) ↔
      ∀ i, a ≤ i → i < b → l[i]? = l[i + d]? := by
  have hget : ∀ c ≤ b, ∀ i, (l.take c ++ l.drop (c + d))[i]? = if i < c then l[i]? else l[i + d]? := by
    intro c hc i
    rw [getElem?_append, length_take, Nat.min_eq_left (by omega), getElem?_take, getElem?_drop]
    split_ifs with hi
    · rfl
    · congr 1
      omega
  constructor
  · intro h i ha hi
    have := congrArg (fun x => x[i]?) h
    simp only [hget a hab, hget b (Nat.le_refl b), if_neg (Nat.not_lt.mpr ha), if_pos hi] at this
    exact this.symm
  · intro h
    apply ext_getElem?
    intro i
    rw [hget a hab, hget b (Nat.le_refl b)]
    split_ifs with ha hb hb
    · rfl
    · omega
    · exact (h i (Nat.not_lt.mp ha) hb).symm
    · rfl

/-! ## What is erased -/

theorem elems_shift2Stack (s : SmallStore α) (stackSize divisor : ℕ) :
    (s.shift2Stack stackSize divisor).elems = s.elems := by
  unfold shift2Stack
  cases hl : s.heap with
  | none => rfl
  | some l =>
    dsimp only
    generalize (if divisor > 0 then stackSize / divisor else 0) = threshold
    split
    · rw [elems, elems, hl]
      refine ext_getElem (by simp) fun i _ h => ?_
      simp [getD, getElem?_eq_getElem (show i < l.length from h)]
    · rfl

variable {s : SmallStore α}

theorem elems_of_array (h : s.heap = none) : s.elems = (range s.eleSize).map s.staticBuf := by
  rw [elems, h, Option.getD_none]

/-- The designated element is erased: the elements from the one that `erase` takes up to it are
the same. -/
def ErasesAt (sizeofT : ℕ) (s : SmallStore α) (i : ℕ) : Prop :=
  s.heap ≠ none ∨ ∀ j, i / sizeofT ≤ j → j < i → s.elems[j]? = s.elems[j + 1]?

theorem eraseAt_iff {sizeofT i : ℕ} (h : s.heap = none) (hi : i < s.elems.length) :
    (s.eraseAt sizeofT i).1.elems = s.elems.eraseIdx i ↔ s.ErasesAt sizeofT i := by
  have hle : i / sizeofT ≤ i := Nat.div_le_self i sizeofT
  have hlen : s.elems.length = s.eleSize := by simp [elems_of_array h]
  have hcode : (s.eraseAt sizeofT i).1.elems =
      s.elems.take (i / sizeofT) ++ s.elems.drop (i / sizeofT + 1) := by
    rw [elems_of_array h, eraseAt, elems_of_array (by exact h)]
    refine map_range_skip (by omega) fun x hx => ?_
    dsimp only
    rw [shiftDown_apply]
    grind
  rw [hcode, eraseIdx_eq_take_drop_succ, take_append_drop_eq_iff hle (by omega), ErasesAt]
  simp [h]

/-- The range is erased: as many elements are, and the others are those that should stay. -/
def ErasesRange (sizeofT : ℕ) (s : SmallStore α) (first last : ℕ) : Prop :=
  s.heap ≠ none ∨
    min (last / sizeofT) s.elems.length - first / sizeofT =
      min last s.elems.length - min first s.elems.length ∧
    ∀ j, first / sizeofT ≤ j → j < min first s.elems.length →
      s.elems[j]? = s.elems[j + (min last s.elems.length - min first s.elems.length)]?

theorem elems_eraseIterators {stackSize sizeofT first last : ℕ} (h : s.heap = none) :
    (s.eraseIterators stackSize sizeofT first last).1.elems = s.elems.take (first / sizeofT) ++
      s.elems.drop (first / sizeofT +
        (min (last / sizeofT) s.elems.length - first / sizeofT)) := by
  have hlen : s.elems.length = s.eleSize := by simp [elems_of_array h]
  rw [hlen]
  unfold eraseIterators
  rw [h]
  dsimp only
  split_ifs with hpos
  · obtain ⟨hn, hx⟩ := @eraseLoop_eq _ (last / sizeofT) (s.eleSize - first / sizeofT)
      (first / sizeofT) s.eleSize (first / sizeofT)
      (min (last / sizeofT) s.eleSize - first / sizeofT) s.staticBuf (by omega) (Nat.le_refl _)
    rw [elems_of_array (by rfl), elems_of_array h]
    dsimp only
    rw [hn]
    refine map_range_skip (by omega) fun x hlt => ?_
    rw [hx]
    grind
  · have hnil : s.elems = [] := length_eq_zero_iff.mp (by omega)
    simp [hnil]

theorem eraseIterators_iff {stackSize sizeofT first last : ℕ} (h : s.heap = none)
    (hvalid : min first s.elems.length ≤ min last s.elems.length) :
    (s.eraseIterators stackSize sizeofT first last).1.elems =
      s.elems.take first ++ s.elems.drop last ↔ s.ErasesRange sizeofT first last := by
  have hle : first / sizeofT ≤ first := Nat.div_le_self first sizeofT
  rw [elems_eraseIterators h, ErasesRange]
  generalize s.elems = l at hvalid ⊢
  generalize hd : min (last / sizeofT) l.length - first / sizeofT = d
  obtain ⟨b, hb⟩ : ∃ b, b = min first l.length := ⟨_, rfl⟩
  obtain ⟨d', hd'⟩ : ∃ d', d' = min last l.length - b := ⟨_, rfl⟩
  have hwant : l.take first ++ l.drop last = l.take b ++ l.drop (b + d') := by
    rw [take_eq_take_iff.mpr (by omega : min first l.length = min b l.length),
      drop_eq_drop_iff.mpr (by omega : min last l.length = min (b + d') l.length)]
  rw [hwant, ← hb, ← hd']
  simp only [h, ne_eq, not_true_eq_false, false_or]
  by_cases hin : first / sizeofT ≤ l.length
  · by_cases hdd : d = d'
    · rw [← hdd, take_append_drop_eq_iff (by omega) (by omega)]
      simp
    · refine iff_of_false (fun heq => hdd ?_) fun hc => hdd hc.1
      have hlen := congrArg length heq
      simp only [length_append, length_take, length_drop] at hlen
      omega
  · -- both ranges are behind the last element
    obtain ⟨rfl, rfl, rfl⟩ : b = l.length ∧ d = 0 ∧ d' = 0 := by omega
    simp [take_of_length_le (Nat.le_of_not_le hin), drop_of_length_le (Nat.le_of_not_le hin)]

end SmallStore

open SmallStore

/-- Erasing is right exactly in the standard container, or when the second division does not tell.
-/
theorem erase_designated_iff (stackSize sizeofT : ℕ) (s : SmallStore α) :
    (∀ i < s.elems.length,
      ((utilSetErase stackSize sizeofT s i).elems = s.elems.eraseIdx i ↔ s.ErasesAt sizeofT i) ∧
      ((utilListErase sizeofT s i).1.elems = s.elems.eraseIdx i ↔ s.ErasesAt sizeofT i) ∧
      ((utilDequeErase sizeofT s i).1.elems = s.elems.eraseIdx i ↔ s.ErasesAt sizeofT i)) ∧
    ∀ first last, min first s.elems.length ≤ min last s.elems.length →
      ((utilListEraseRange stackSize sizeofT s first last).1.elems =
        s.elems.take first ++ s.elems.drop last ↔ s.ErasesRange sizeofT first last) ∧
      ((utilDequeEraseRange stackSize sizeofT s first last).1.elems =
        s.elems.take first ++ s.elems.drop last ↔ s.ErasesRange sizeofT first last) := by
  cases h : s.heap with
  | some l =>
    have hl : s.elems = l := by simp [elems, h]
    have hset : ∀ i, (utilSetErase stackSize sizeofT s i).elems = l.eraseIdx i := by
      intro i
      simp only [utilSetErase, h, elems_shift2Stack]
      rfl
    simp only [hset]
    simp [utilListErase, utilDequeErase, utilListEraseRange, utilDequeEraseRange, h,
      eraseIterator, eraseIterators, ErasesAt,
      ErasesRange, elems]
  | none =>
    refine ⟨fun i hi => ?_, fun first last hvalid => ?_⟩
    · have hpos : s.eleSize > 0 := by
        have hlen : s.elems.length = s.eleSize := by simp [elems_of_array h]
        omega
      have hiff := @eraseAt_iff _ _ sizeofT i h hi
      simp only [utilSetErase, utilListErase, utilDequeErase, eraseIterator, h, if_pos hpos]
      exact ⟨hiff, hiff, hiff⟩
    · have hiff := @eraseIterators_iff _ _ stackSize sizeofT first last h hvalid
      exact ⟨hiff, hiff⟩

/-- Erasing the second of two elements of four bytes removes the first. -/
theorem erase_wrong_element : ((utilListErase 4 (⟨id, 2, none⟩ : SmallStore ℕ) 1).1.elems = [1]) ∧
    (⟨id, 2, none⟩ : SmallStore ℕ).elems.eraseIdx 1 = [0] := by
  decide

end Novachains.Util
