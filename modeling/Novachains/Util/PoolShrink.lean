import Novachains.Util.PoolInvariant

/-!
# Shrinking a segment pool

`shrink` keeps the segments up to that of the highest acquired object, and as many more as it is
told to.  It keeps the invariant as long as this number does not wrap around.
-/

namespace Novachains.Util

open Lib List

namespace UtilBitmap
variable {b : UtilBitmap} {i j : ℕ}

@[simp] theorem size_setBit (b : UtilBitmap) (j : ℕ) : (b.setBit j).size = b.size := by
  unfold setBit
  split <;> rfl

theorem testBit_setBit : (b.setBit j).testBit i = true ↔ b.testBit i = true ∨ i < b.size ∧ i = j := by
  rw [testBit, size_setBit, testBit, setBit]
  by_cases hi : i < b.size
  · by_cases hj : j < b.size
    · by_cases hij : i = j
      · simp [hj, hij]
      · simp [hi, hj, hij]
    · have hij : i ≠ j := fun h => hj (h ▸ hi)
      simp [hi, hj, hij]
  · simp [hi]

theorem testBit_foldl (l : List ℕ) (b : UtilBitmap) :
    (l.foldl setBit b).testBit i = true ↔ b.testBit i = true ∨ i < b.size ∧ i ∈ l := by
  induction l generalizing b with
  | nil => simp
  | cons j l ih =>
    rw [foldl_cons, ih, testBit_setBit, size_setBit, mem_cons]
    tauto

end UtilBitmap

namespace SegmentPool
variable {p p' : SegmentPool} {used : List ℕ} {env : ShrinkEnv} {i k : ℕ}

theorem testBit_freeBitmap (l : List ℕ) (alloc : BitmapAlloc) :
    (p.freeBitmap l alloc).testBit i = true ↔
      alloc = .ok ∧ i < p.numOfObjs ∧ i ∈ l.drop p.begin := by
  rw [freeBitmap, UtilBitmap.testBit_foldl]
  cases alloc <;> simp [UtilBitmap.testBit]

theorem maxObjFrom_spec {b : UtilBitmap} {n : ℕ} (h : ∃ i < n, ¬ b.testBit i = true) :
    maxObjFrom b n < n ∧ ∀ i < n, ¬ b.testBit i = true → i ≤ maxObjFrom b n := by
  induction n with
  | zero =>
    obtain ⟨i, hi, -⟩ := h
    exact absurd hi (Nat.not_lt_zero i)
  | succ n ih =>
    rw [maxObjFrom]
    by_cases hn : b.testBit n = true
    · have hrest : ∃ i < n, ¬ b.testBit i = true := by
        obtain ⟨i, hi, hb⟩ := h
        have hne : i ≠ n := fun heq => hb (heq ▸ hn)
        exact ⟨i, by omega, hb⟩
      obtain ⟨hlt, hmax⟩ := ih hrest
      rw [if_neg (by simp [hn])]
      refine ⟨by omega, fun i hi hb => hmax i ?_ hb⟩
      have hne : i ≠ n := fun heq => hb (heq ▸ hn)
      omega
    · rw [if_pos (by simp [hn])]
      exact ⟨by omega, fun i hi _ => by omega⟩

theorem Ok.maxObj (h : p.Ok used) (hpos : 0 < p.begin) (alloc : BitmapAlloc) :
    p.maxObj (p.freeBitmap p.entries alloc) < p.numOfObjs ∧
      ∀ i ∈ used, i ≤ p.maxObj (p.freeBitmap p.entries alloc) := by
  have hbit : ∀ i ∈ used, ¬ (p.freeBitmap p.entries alloc).testBit i = true := by
    intro i hi hb
    have hfree := ((testBit_freeBitmap _ _).mp hb).2.2
    exact (h.stack.mem_free_iff (h.stack.lt_of_mem_used hi)).mp hfree hi
  obtain ⟨i, hi⟩ : ∃ i, i ∈ used :=
    exists_mem_of_length_pos (h.stack.length_used.symm ▸ hpos)
  obtain ⟨hlt, hmax⟩ := maxObjFrom_spec ⟨i, h.lt_num hi, hbit i hi⟩
  exact ⟨hlt, fun j hj => hmax j (h.lt_num hj) (hbit j hj)⟩

theorem Ok.maxObj_noBuffer (h : p.Ok used) (hpos : 0 < p.begin) {alloc : BitmapAlloc}
    (halloc : alloc ≠ .ok) :
    p.maxObj (p.freeBitmap p.entries alloc) = p.numOfObjs - 1 := by
  have hle := h.begin_le
  have hbit : ∀ i, ¬ (p.freeBitmap p.entries alloc).testBit i = true :=
    fun i hb => halloc ((testBit_freeBitmap _ _).mp hb).1
  obtain ⟨hlt, hmax⟩ := maxObjFrom_spec (b := p.freeBitmap p.entries alloc) (n := p.numOfObjs)
    ⟨0, by omega, hbit 0⟩
  have htop := hmax (p.numOfObjs - 1) (by omega) (hbit _)
  rw [SegmentPool.maxObj]
  omega

/-! ## Fewer segments -/

/-- The pool with its first `m` segments and the list `l`. -/
def cut (p : SegmentPool) (m : ℕ) (l : Option (List ℕ)) : SegmentPool :=
  { p with list := l, numOfObjs := m * p.delta, segList := p.segList.take m }

theorem addrs_cut (p : SegmentPool) (m : ℕ) (l : Option (List ℕ)) :
    (p.cut m l).addrs = p.addrs.take m := map_take ..

theorem Ok.cut (h : p.Ok used) {m : ℕ} (hm : m < p.segList.length) {l : Option (List ℕ)}
    (hnone : l = none ↔ m = 0) (hlen : (l.getD []).length = m * p.delta)
    (hstack : FreeStack (l.getD []) p.begin used) : (p.cut m l).Ok used := by
  have hpos := h.delta_pos
  have hlt : m * p.delta < p.numOfObjs := h.num_eq ▸ Nat.mul_lt_mul_of_pos_right hm hpos
  have hnum := h.num_le
  refine ⟨h.initialized, h.size_pos, h.delta_eq, h.exponent_le, h.poolId_lt, h.max_le, ?_,
    (hlt.trans_le hnum).le, ?_, hlen, hstack, fun s hs => h.objs_length s (mem_of_mem_take hs),
    fun i hi => ?_, ?_, fun _ hn => absurd hn (ne_of_lt (hlt.trans_le hnum))⟩
  · rw [SegmentPool.cut, length_take, min_eq_left hm.le]
  · refine hnone.trans ⟨fun h0 => ?_, fun h0 => ?_⟩
    · rw [SegmentPool.cut, h0, zero_mul]
    · exact (Nat.mul_eq_zero.mp h0).resolve_right (ne_of_gt hpos)
  · have hi' : i < m * p.delta := hi
    have hseg : p.segmentOf i < m := by
      rw [segmentOf_eq h.delta_eq (by omega)]
      exact (Nat.div_lt_iff_lt_mul hpos).mpr hi'
    have hget : (p.segList.take m)[p.segmentOf i]? = p.segList[p.segmentOf i]? :=
      getElem?_take_of_lt hseg
    refine Eq.trans ?_ (h.objs_eq i (hi'.trans hlt))
    exact congrArg (fun x : Option Segment => x.bind fun s => s.objs[p.placeOf i]?) hget
  · rw [addrs_cut]
    exact h.apart.sublist (take_sublist ..)

structure Shrinks (p p' : SegmentPool) (used : List ℕ) : Prop where
  ok : p'.Ok used
  shape : p.SameShape p'
  begin_eq : p'.begin = p.begin
  num_le : p'.numOfObjs ≤ p.numOfObjs
  ptr_eq : ∀ i ∈ used, p'.getObjPtrByIndex i = p.getObjPtrByIndex i

theorem Ok.shrinks_self (h : p.Ok used) : p.Shrinks p used :=
  ⟨h, .rfl, rfl, le_rfl, fun _ _ => rfl⟩

theorem Ok.withHighWatermark (h : p.Ok used) (top : ℕ) :
    { p with highWatermark := top }.Ok used :=
  ⟨h.initialized, h.size_pos, h.delta_eq, h.exponent_le, h.poolId_lt, h.max_le, h.num_eq, h.num_le,
    h.list_eq_none_iff, h.length_entries, h.stack, h.objs_length, h.objs_eq, h.apart, h.last_eq⟩

theorem setHighWatermark_eq (p : SegmentPool) (top : ℕ) :
    ∃ w, p.setHighWatermark top = { p with highWatermark := w } := by
  unfold setHighWatermark
  split
  · exact ⟨top, rfl⟩
  · exact ⟨p.highWatermark, rfl⟩

theorem Shrinks.withHighWatermark {top : ℕ}
    (h : { p with highWatermark := top }.Shrinks p' used) : p.Shrinks p' used :=
  ⟨h.ok, ⟨h.shape.objXSize_eq, h.shape.delta_eq, h.shape.exponent_eq, h.shape.poolId_eq⟩,
    h.begin_eq, h.num_le, h.ptr_eq⟩

section
variable (h : p.Ok used)
include h

theorem Ok.shrinks_cut {m : ℕ} (hm : m < p.segList.length) {l : Option (List ℕ)}
    (hok : (p.cut m l).Ok used) : p.Shrinks (p.cut m l) used where
  ok := hok
  shape := ⟨rfl, rfl, rfl, rfl⟩
  begin_eq := rfl
  num_le := h.num_eq ▸ Nat.mul_le_mul_right _ hm.le
  ptr_eq := by
    intro i hi
    have hseg : p.segmentOf i < m := by
      have hlt : i < m * p.delta := hok.lt_num hi
      rw [segmentOf_eq h.delta_eq ((h.lt_num hi).trans_le h.num_le)]
      exact (Nat.div_lt_iff_lt_mul h.delta_pos).mpr hlt
    have hshape : p.SameShape (p.cut m l) := ⟨rfl, rfl, rfl, rfl⟩
    refine hshape.getObjPtrByIndex_eq ?_
    rw [addrs_cut, getElem?_take_of_lt hseg]

/-- **`shrinkTo`**, if the new list can be made: with the bitmap, or from all indices. -/
theorem Ok.shrinkTo {b : Option UtilBitmap} {m : ℕ} (hzero : m = 0 → p.begin = 0)
    (hlist : m < p.segList.length → ∃ l,
      b.elim (some (List.range (m * p.delta))) (p.compactList · (m * p.delta) env.junk) = some l ∧
        l.length = m * p.delta ∧ FreeStack l p.begin used) :
    ∃ rc c p', p.shrinkTo b m env = some (rc, c, p') ∧ p.Shrinks p' used := by
  have hpos := h.delta_pos
  unfold SegmentPool.shrinkTo
  by_cases hm : p.segList.length > m
  · have hlt : m * p.delta < p.numOfObjs := h.num_eq ▸ Nat.mul_lt_mul_of_pos_right hm hpos
    have hnum := h.num_le
    have hsize : u32 (m <<< p.exponent) = m * p.delta := by
      rw [Nat.shiftLeft_eq, ← h.delta_eq, u32_of_lt (by omega)]
    rw [if_pos hm, hsize]
    dsimp only
    by_cases h0 : 0 < m * p.delta
    · rw [if_pos h0]
      by_cases hl : env.list = true
      · rw [if_pos hl]
        obtain ⟨l, hnew, hlen, hstack⟩ := hlist hm
        have hok := h.cut hm (l := some l)
          (iff_of_false (Option.some_ne_none _) fun hm0 => by simp [hm0] at h0) hlen hstack
        refine ⟨.ok, p.segList.length - m, p.cut m (some l), ?_, h.shrinks_cut hm hok⟩
        cases b with
        | none =>
          cases hnew
          rfl
        | some b =>
          dsimp only [Option.elim_some] at hnew ⊢
          rw [hnew]
          rfl
      · rw [if_neg hl]
        exact ⟨_, _, _, rfl, h.shrinks_self⟩
    · have hm0 : m = 0 := (Nat.mul_eq_zero.mp (Nat.eq_zero_of_not_pos h0)).resolve_right
        (ne_of_gt hpos)
      have hbegin := hzero hm0
      obtain rfl : used = [] := length_eq_zero_iff.mp (h.stack.length_used.trans hbegin)
      rw [if_neg h0]
      have hok := h.cut hm (l := none) (iff_of_true rfl hm0) (by rw [hm0, zero_mul]; rfl)
        (by rw [hbegin]; exact .nil)
      exact ⟨_, _, _, rfl, h.shrinks_cut hm hok⟩
  · rw [if_neg hm]
    exact ⟨_, _, _, rfl, h.shrinks_self⟩

theorem Ok.compactList {b : UtilBitmap} {newSize : ℕ}
    (hle : newSize ≤ p.numOfObjs) (hused : ∀ i ∈ used, i < newSize)
    (hb : ∀ x < newSize, b.testBit x = true ↔ x ∈ p.entries.drop p.begin) (junk : ℕ → ℕ) :
    ∃ l, p.compactList b newSize junk = some l ∧ l.length = newSize ∧
      FreeStack l p.begin used := by
  have hjunk : ((List.range p.begin).map junk).length = p.begin := by
    rw [length_map, length_range]
  obtain ⟨hstack, hlen⟩ := h.stack.compact (h.length_entries ▸ hle) hused hjunk hb
  have hsum : p.begin + ((List.range newSize).filter b.testBit).length = newSize := by
    rwa [List.length_append, hjunk] at hlen
  refine ⟨_, ?_, hlen, hstack⟩
  rw [SegmentPool.compactList, if_pos hsum.le, hsum, Nat.sub_self, range'_zero, map_nil, append_nil]

theorem Ok.alloc_eq_ok (hbegin : 0 < p.begin) {alloc : BitmapAlloc}
    (hlt : p.maxObj (p.freeBitmap p.entries alloc) / p.delta + 1 + k < p.segList.length) :
    alloc = .ok := by
  have hpos := h.delta_pos
  have hone : 1 ≤ p.segList.length := Nat.one_le_iff_ne_zero.mpr (Nat.ne_zero_of_lt hlt)
  by_contra hne
  have hsegs : p.segList.length * p.delta = (p.segList.length - 1) * p.delta + p.delta := by
    rw [← Nat.succ_mul, Nat.succ_eq_add_one, Nat.sub_add_cancel hone]
  have hnum := h.num_eq
  have hdiv : (p.numOfObjs - 1) / p.delta = p.segList.length - 1 :=
    Nat.div_eq_of_lt_le (by omega) (by rw [Nat.sub_add_cancel hone]; omega)
  rw [h.maxObj_noBuffer hbegin hne, hdiv] at hlt
  omega

theorem Ok.shrinkUsed (hbegin : 0 < p.begin)
    (hk : p.segList.length + k < 2 ^ 32) :
    ∃ rc c p', p.shrinkUsed p.entries k env = some (rc, c, p') ∧ p.Shrinks p' used := by
  obtain ⟨htop, hmax⟩ := h.maxObj hbegin env.bitmap
  have hdiv : p.maxObj (p.freeBitmap p.entries env.bitmap) / p.delta < p.segList.length :=
    (Nat.div_lt_iff_lt_mul h.delta_pos).mpr (h.num_eq ▸ htop)
  have hsum : u32 ((p.maxObj (p.freeBitmap p.entries env.bitmap) >>> p.exponent) + 1 + k) =
      p.maxObj (p.freeBitmap p.entries env.bitmap) / p.delta + 1 + k := by
    rw [Nat.shiftRight_eq_div_pow, ← h.delta_eq, u32_of_lt (by omega)]
  unfold SegmentPool.shrinkUsed
  by_cases hobj : env.bitmap = .noObject
  · rw [if_pos hobj]
    exact ⟨_, _, _, rfl, h.shrinks_self⟩
  rw [if_neg hobj]
  dsimp only
  rw [hsum]
  obtain ⟨w, hw⟩ := p.setHighWatermark_eq (p.maxObj (p.freeBitmap p.entries env.bitmap))
  rw [hw]
  obtain ⟨rc, c, p', heq, hs⟩ := (h.withHighWatermark w).shrinkTo
    (b := some (p.freeBitmap p.entries env.bitmap))
    (m := p.maxObj (p.freeBitmap p.entries env.bitmap) / p.delta + 1 + k) (by simp) fun hlt => by
      refine h.compactList (h.num_eq ▸ Nat.mul_le_mul_right _ hlt.le) (fun i hi => ?_)
        (fun x hx => ?_) _
      · refine (Nat.div_lt_iff_lt_mul h.delta_pos).mp ?_
        have := Nat.div_le_div_right (c := p.delta) (hmax i hi)
        omega
      · rw [testBit_freeBitmap]
        have hnum : x < p.numOfObjs := h.num_eq ▸ hx.trans_le (Nat.mul_le_mul_right _ hlt.le)
        exact ⟨fun hb => hb.2.2, fun hb => ⟨h.alloc_eq_ok hbegin hlt, hnum, hb⟩⟩
  exact ⟨rc, c, p', heq, hs.withHighWatermark⟩

/-- **`shrink`** keeps the acquired objects where they are, if the number of segments to keep
does not wrap around. -/
theorem Ok.shrink (hk : p.begin = 0 ∨ p.segList.length + k < 2 ^ 32) :
    ∃ rc c p', p.shrink k env = some (rc, c, p') ∧ p.Shrinks p' used := by
  have hself : ∃ rc c p', some (Rc.ok, 0, p) = some (rc, c, p') ∧ p.Shrinks p' used :=
    ⟨_, _, _, rfl, h.shrinks_self⟩
  unfold SegmentPool.shrink
  rw [h.initialized]
  cases hl : p.list with
  | none => exact hself
  | some l =>
    obtain rfl : p.entries = l := by rw [entries, hl, Option.getD_some]
    dsimp only
    by_cases hnum : 0 < p.numOfObjs
    · rw [if_pos hnum]
      by_cases hone : 0 < p.begin ∧ p.segList.length = 1
      · rw [if_pos hone]
        exact hself
      rw [if_neg hone]
      by_cases hstay : (if p.hasHandler then !env.canShrink else p.isBusy) = true
      · rw [if_pos hstay]
        exact hself
      rw [if_neg hstay]
      by_cases hbegin : 0 < p.begin
      · rw [if_pos hbegin]
        exact h.shrinkUsed hbegin (hk.resolve_left (ne_of_gt hbegin))
      have h0 : p.begin = 0 := Nat.eq_zero_of_not_pos hbegin
      rw [if_neg hbegin]
      obtain rfl : used = [] := length_eq_zero_iff.mp (h.stack.length_used.trans h0)
      obtain ⟨w, hw⟩ := p.setHighWatermark_eq 0
      rw [hw]
      obtain ⟨rc, c, p', heq, hs⟩ := (h.withHighWatermark w).shrinkTo (b := none) (m := k)
        (fun _ => h0) fun _ => ⟨_, rfl, length_range, h0.symm, by
          dsimp only
          rw [h0, drop_zero, append_nil, length_range]⟩
      exact ⟨rc, c, p', heq, hs.withHighWatermark⟩
    · rw [if_neg hnum]
      exact hself

end

end SegmentPool

end Novachains.Util
