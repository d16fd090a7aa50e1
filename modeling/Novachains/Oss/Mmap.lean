import Novachains.Basic
import Mathlib.Data.List.Nodup

/-!
# Memory-mapped files

`_ossMmapFile` keeps the segments of a file that are mapped into memory and writes
them back with `msync`.  What the operating system does is a parameter: the codes
its calls return, and for `msync` the outcome of each call in order.
-/

namespace Novachains.Oss

open List

/-- `_ossMmapSegment`, without its address. -/
structure MmapSegment where
  length : ℕ
  offset : ℕ
  deriving DecidableEq, Repr

/-- `_ossMmapFile`: the size of the file and its mapped segments. -/
structure MmapFile where
  fileSize : ℕ
  segs : List MmapSegment
  deriving DecidableEq, Repr

/-- The codes returned inside `map`, by `ossGetFileSize`, `_ensureSpace` and `mmap`. -/
structure MapOs where
  getFileSize : Rc
  ensureSpace : Rc
  mmap : Rc
  deriving DecidableEq, Repr

def MapOs.allOk : MapOs := ⟨.ok, .ok, .ok⟩

variable (f : MmapFile)

namespace MmapFile

/-- `segmentSize()`: the number of mapped segments. -/
def segmentSize : ℕ := f.segs.length

/-- `_ossMmapFile::map`. -/
def map (offset length : ℕ) (os : MapOs) : Rc × MmapFile :=
  if length = 0 then (.ok, f)
  else if os.getFileSize ≠ .ok then (os.getFileSize, f)
  else if f.fileSize ≤ offset then (.invalidArg, f)
  else
    let length :=
      if f.fileSize < offset + length then length - (f.fileSize - offset - 1) else length
    if os.ensureSpace ≠ .ok then (os.ensureSpace, f)
    else if os.mmap ≠ .ok then (os.mmap, f)
    else (.ok, { f with segs := f.segs ++ [⟨length, offset⟩] })

theorem map_eq {offset length : ℕ} (os : MapOs) (h0 : length ≠ 0)
    (hle : offset + length ≤ f.fileSize) :
    f.map offset length os =
      if os.getFileSize ≠ .ok then (os.getFileSize, f)
      else if os.ensureSpace ≠ .ok then (os.ensureSpace, f)
      else if os.mmap ≠ .ok then (os.mmap, f)
      else (.ok, { f with segs := f.segs ++ [⟨length, offset⟩] }) := by
  have hin : ¬ f.fileSize ≤ offset := by omega
  have hfit : ¬ f.fileSize < offset + length := by omega
  simp only [map, h0, hin, hfit, if_false]

theorem map_spec {offset length : ℕ} (os : MapOs) (h0 : length ≠ 0)
    (hle : offset + length ≤ f.fileSize) :
    f.map offset length os = (.ok, { f with segs := f.segs ++ [⟨length, offset⟩] }) ∨
    ∃ rc, rc ≠ .ok ∧ f.map offset length os = (rc, f) := by
  rw [map_eq f os h0 hle]
  by_cases h1 : os.getFileSize = .ok
  · by_cases h2 : os.ensureSpace = .ok
    · by_cases h3 : os.mmap = .ok
      · exact Or.inl (by simp [h1, h2, h3])
      · exact Or.inr ⟨os.mmap, h3, by simp [h1, h2, h3]⟩
    · exact Or.inr ⟨os.ensureSpace, h2, by simp [h1, h2]⟩
  · exact Or.inr ⟨os.getFileSize, h1, by rw [if_pos h1]⟩

theorem map_allOk {offset length : ℕ} (h0 : length ≠ 0)
    (hle : offset + length ≤ f.fileSize) :
    f.map offset length .allOk = (.ok, { f with segs := f.segs ++ [⟨length, offset⟩] }) := by
  rw [map_eq f _ h0 hle]
  rfl

end MmapFile

structure Block where
  segment : ℕ
  offset : ℕ
  length : ℕ
  deriving DecidableEq, Repr

structure MsyncCall where
  block : Block
  sync : Bool
  ok : Bool
  deriving DecidableEq, Repr

/-- The outcome of the `n`-th `msync` call for each `n`, and the calls made so far. -/
structure Msync where
  outcome : ℕ → Bool
  calls : List MsyncCall

def Msync.call (m : Msync) (b : Block) (sync : Bool) : Bool × Msync :=
  let ok := m.outcome m.calls.length
  (ok, { m with calls := m.calls ++ [⟨b, sync, ok⟩] })

/-- Since the state `m`, a call has written the block. -/
def Msync.Wrote (m m' : Msync) (b : Block) : Prop :=
  ∃ c ∈ m'.calls.drop m.calls.length, c.block = b ∧ c.ok = true

/-- If the code reports success then every block that was asked for has been written. -/
def Reached (rc : Rc) (m m' : Msync) (asked : List Block) : Prop :=
  rc = .ok → ∀ b ∈ asked, m.Wrote m' b

namespace MmapFile

/-- `_ossMmapFile::flush`.  When `msync` fails the error exit is taken with `rc` as it
was set at the beginning. -/
def flush (m : Msync) (segmentID : ℕ) (sync : Bool) : Rc × Msync :=
  let rc := Rc.ok
  match f.segs[segmentID]? with
  | none => (.invalidArg, m)
  | some seg =>
    let (ok, m) := m.call ⟨segmentID, 0, seg.length⟩ sync
    if !ok then (rc, m) else (rc, m)

/-- The loop of `flushAll`, over the segments still to be written. -/
def flushAllLoop (f : MmapFile) (sync : Bool) : List ℕ → Msync → Rc × Msync
  | [], m => (.ok, m)
  | i :: rest, m =>
    match f.flush m i sync with
    | (.ok, m) => flushAllLoop f sync rest m
    | (rc, m) => (rc, m)

def flushAll (m : Msync) (sync : Bool) : Rc × Msync :=
  flushAllLoop f sync (List.range f.segmentSize) m

/-- The part of the segment `flushBlock` writes; `none` when there is nothing to write. -/
def flushLength (seg : MmapSegment) (offset : ℕ) (length : ℤ) : Option ℕ :=
  if length = 0 ∨ offset = seg.length then none
  else if length < 0 ∨ u32 (length.toNat + offset) > seg.length then some (seg.length - offset)
  else some length.toNat

def flushBlock (m : Msync) (segmentID offset : ℕ) (length : ℤ) (sync : Bool) :
    Rc × Msync :=
  let rc := Rc.ok
  match f.segs[segmentID]? with
  | none => (.invalidArg, m)
  | some seg =>
    if offset > seg.length then (.invalidArg, m)
    else
      match flushLength seg offset length with
      | none => (rc, m)
      | some length =>
        let (ok, m) := m.call ⟨segmentID, offset, length⟩ sync
        if !ok then (rc, m) else (rc, m)

def whole (i : ℕ) : List Block :=
  (f.segs[i]?).toList.map fun seg => ⟨i, 0, seg.length⟩

def blockAsked (segmentID offset : ℕ) (length : ℤ) : List Block :=
  (f.segs[segmentID]?).toList.flatMap fun seg =>
    if offset > seg.length then []
    else (flushLength seg offset length).toList.map fun len => ⟨segmentID, offset, len⟩

end MmapFile

/-! ## When a reported success means that the disk was reached -/

section Reached
variable {f : MmapFile} {m : Msync} {sync : Bool}

theorem Msync.wrote_call (m : Msync) (b b' : Block) (sync : Bool) :
    m.Wrote (m.call b sync).2 b' ↔ b = b' ∧ m.outcome m.calls.length = true := by
  simp [Msync.Wrote, Msync.call]

namespace MmapFile

theorem flush_none {i : ℕ} (h : f.segs[i]? = none) : f.flush m i sync = (.invalidArg, m) := by
  rw [flush, h]

theorem flush_some {i : ℕ} {seg : MmapSegment} (h : f.segs[i]? = some seg) :
    f.flush m i sync = (.ok, (m.call ⟨i, 0, seg.length⟩ sync).2) := by
  rw [flush, h]
  simp

theorem reached_flush_iff (f : MmapFile) (m : Msync) (i : ℕ) (sync : Bool) :
    Reached (f.flush m i sync).1 m (f.flush m i sync).2 (f.whole i) ↔
      f.segmentSize ≤ i ∨ m.outcome m.calls.length = true := by
  cases h : f.segs[i]? with
  | none =>
    rw [flush_none h]
    simp [Reached, segmentSize, List.getElem?_eq_none_iff.mp h]
  | some seg =>
    have hlt := (List.getElem?_eq_some_iff.mp h).1
    rw [flush_some h]
    simp only [Reached, whole, h, Option.toList_some, map_singleton, mem_singleton,
      forall_eq, Msync.wrote_call, true_and, forall_const, segmentSize]
    rw [or_iff_right (by omega)]

theorem reached_flushBlock_iff (f : MmapFile) (m : Msync) (i offset : ℕ) (length : ℤ)
    (sync : Bool) :
    Reached (f.flushBlock m i offset length sync).1 m (f.flushBlock m i offset length sync).2
        (f.blockAsked i offset length) ↔
      f.blockAsked i offset length = [] ∨ m.outcome m.calls.length = true := by
  cases h : f.segs[i]? with
  | none => simp [Reached, blockAsked, h]
  | some seg =>
    by_cases ho : offset > seg.length
    · simp [Reached, blockAsked, h, ho]
    cases hl : flushLength seg offset length with
    | none => simp [Reached, blockAsked, h, ho, hl]
    | some len =>
      have heq : f.flushBlock m i offset length sync =
          (.ok, (m.call ⟨i, offset, len⟩ sync).2) := by
        simp [flushBlock, h, ho, hl]
      rw [heq]
      simp [Reached, blockAsked, h, ho, hl, Msync.wrote_call]

/-- The `msync` calls for the segments `ids`, from the `n`-th call on. -/
def callsFor (f : MmapFile) (outcome : ℕ → Bool) (sync : Bool) : ℕ → List ℕ → List MsyncCall
  | _, [] => []
  | n, i :: ids =>
    (f.whole i).map (fun b => ⟨b, sync, outcome n⟩) ++ callsFor f outcome sync (n + 1) ids

theorem segment_of_mem_whole {i : ℕ} {b : Block} (h : b ∈ f.whole i) : b.segment = i := by
  obtain ⟨seg, -, rfl⟩ := List.mem_map.mp h
  rfl

theorem segment_of_mem_callsFor {outcome : ℕ → Bool} {n : ℕ} {ids : List ℕ} {c : MsyncCall}
    (h : c ∈ f.callsFor outcome sync n ids) : c.block.segment ∈ ids := by
  induction ids generalizing n with
  | nil => simp [callsFor] at h
  | cons i ids ih =>
    rcases mem_append.mp h with h | h
    · obtain ⟨b, hb, rfl⟩ := List.mem_map.mp h
      simp [segment_of_mem_whole hb]
    · exact mem_cons_of_mem _ (ih h)

theorem forall_callsFor_iff (f : MmapFile) (outcome : ℕ → Bool) (sync : Bool) (n : ℕ)
    (ids : List ℕ) (hnd : ids.Nodup) (hids : ∀ i ∈ ids, i < f.segmentSize) :
    (∀ b ∈ ids.flatMap f.whole, ∃ c ∈ f.callsFor outcome sync n ids, c.block = b ∧ c.ok = true) ↔
      ∀ j < ids.length, outcome (n + j) = true := by
  induction ids generalizing n with
  | nil => simp
  | cons i ids ih =>
    obtain ⟨hi, hnd'⟩ := nodup_cons.mp hnd
    obtain ⟨seg, hseg⟩ : ∃ seg, f.segs[i]? = some seg :=
      ⟨_, getElem?_eq_getElem (hids i (by simp))⟩
    have hw : f.whole i = [⟨i, 0, seg.length⟩] := by simp [whole, hseg]
    rw [length_cons, Nat.forall_lt_succ_left, flatMap_cons, hw, singleton_append,
      forall_mem_cons, callsFor, hw, map_singleton, singleton_append]
    -- The first call is the only one for segment `i`, and it is for no other.
    apply and_congr
    · constructor
      · rintro ⟨c, hc, hcb, hok⟩
        rcases mem_cons.mp hc with rfl | hc
        · exact hok
        · have := segment_of_mem_callsFor hc
          rw [hcb] at this
          exact absurd this hi
      · intro h
        exact ⟨_, mem_cons_self, rfl, h⟩
    · rw [show (∀ j < ids.length, outcome (n + (j + 1)) = true) ↔
          ∀ j < ids.length, outcome (n + 1 + j) = true by simp only [add_right_comm n 1,
            add_assoc], ← ih (n + 1) hnd' fun j hj => hids j (by simp [hj])]
      constructor
      · intro h b hb
        obtain ⟨c, hc, hcb, hok⟩ := h b hb
        rcases mem_cons.mp hc with rfl | hc
        · obtain ⟨j, hj, hbj⟩ := mem_flatMap.mp hb
          obtain rfl : i = j := by rw [← segment_of_mem_whole hbj, ← hcb]
          exact absurd hj hi
        · exact ⟨c, hc, hcb, hok⟩
      · intro h b hb
        obtain ⟨c, hc, hcb, hok⟩ := h b hb
        exact ⟨c, mem_cons_of_mem _ hc, hcb, hok⟩

/-- The state after writing the segments `ids` one by one. -/
def flushEach (f : MmapFile) (sync : Bool) (m : Msync) (ids : List ℕ) : Msync :=
  ids.foldl (fun m i => (f.flush m i sync).2) m

theorem flushEach_eq (f : MmapFile) (sync : Bool) (m : Msync) (ids : List ℕ)
    (hids : ∀ i ∈ ids, i < f.segmentSize) :
    f.flushEach sync m ids =
      { m with calls := m.calls ++ f.callsFor m.outcome sync m.calls.length ids } := by
  induction ids generalizing m with
  | nil => simp [flushEach, callsFor]
  | cons i ids ih =>
    obtain ⟨seg, hseg⟩ : ∃ seg, f.segs[i]? = some seg :=
      ⟨_, getElem?_eq_getElem (hids i (by simp))⟩
    rw [flushEach, foldl_cons, ← flushEach, ih _ fun j hj => hids j (by simp [hj]), flush_some hseg]
    simp [Msync.call, callsFor, whole, hseg]

theorem wrote_flushEach_iff (f : MmapFile) (sync : Bool) (m : Msync) (ids : List ℕ)
    (hnd : ids.Nodup) (hids : ∀ i ∈ ids, i < f.segmentSize) :
    (∀ b ∈ ids.flatMap f.whole, m.Wrote (f.flushEach sync m ids) b) ↔
      ∀ j < ids.length, m.outcome (m.calls.length + j) = true := by
  rw [← forall_callsFor_iff f m.outcome sync m.calls.length ids hnd hids]
  simp [Msync.Wrote, flushEach_eq f sync m ids hids]

theorem flushAllLoop_eq (f : MmapFile) (sync : Bool) (m : Msync) (ids : List ℕ)
    (hids : ∀ i ∈ ids, i < f.segmentSize) :
    f.flushAllLoop sync ids m = (.ok, f.flushEach sync m ids) := by
  induction ids generalizing m with
  | nil => rfl
  | cons i ids ih =>
    obtain ⟨seg, hseg⟩ : ∃ seg, f.segs[i]? = some seg :=
      ⟨_, getElem?_eq_getElem (hids i (by simp))⟩
    rw [flushAllLoop, flush_some hseg, flushEach, foldl_cons, flush_some hseg]
    exact ih _ fun j hj => hids j (by simp [hj])

theorem reached_flushAll_iff (f : MmapFile) (m : Msync) (sync : Bool) :
    Reached (f.flushAll m sync).1 m (f.flushAll m sync).2
        ((List.range f.segmentSize).flatMap f.whole) ↔
      ∀ j < f.segmentSize, m.outcome (m.calls.length + j) = true := by
  have hids : ∀ i ∈ List.range f.segmentSize, i < f.segmentSize := fun i => mem_range.mp
  rw [flushAll, flushAllLoop_eq f sync m _ hids, Reached, imp_iff_right rfl,
    wrote_flushEach_iff f sync m _ nodup_range hids, length_range]

end MmapFile

end Reached

end Novachains.Oss
