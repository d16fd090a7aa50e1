import Mathlib.Algebra.Order.BigOperators.Group.List
import Novachains.Lib.Transition
import Novachains.Oss.Mmap

/-!
# The array of mapped segments

`map` makes room for one more segment before it calls `mmap`.  Beside the array the requests that
were mapped are kept, each with the size the file had at the time.
-/

namespace Novachains.Oss

open Lib List

/-- `_pSegArray` with its `_capacity` entries, `_size` and `_totalLength`. -/
structure SegArray where
  arr : List MmapSegment := []
  size : ℕ := 0
  totalLength : ℕ := 0

/-- A call of `map` and what it is told by the system; the size of a file is an `INT64`. -/
structure MapCall where
  offset : UInt64
  length : UInt32
  fileSize : ℕ
  fileSize_lt : fileSize < 2 ^ 63
  getFileSize : Rc := .ok
  alloc : Bool := true
  mmap : Rc := .ok

abbrev mmapInitCapacity : ℕ := 128

namespace SegArray

def segs (s : SegArray) : List MmapSegment := s.arr.take s.size

/-- The size of the array that `_ensureSpace` allocates. -/
def newSize (capacity size : ℕ) : ℕ :=
  let newSize := u32 (capacity <<< 1)
  let newSize := if newSize = 0 then mmapInitCapacity else newSize
  if newSize < size then size else newSize

def ensureSpace (s : SegArray) (size : ℕ) (alloc : Bool) : Rc × SegArray :=
  if size ≤ s.arr.length then (.ok, s)
  else if !alloc then (.oom, s)
  else (.ok, { s with
    arr := s.arr.take s.size ++ List.replicate (newSize s.arr.length size - s.size) ⟨0, 0⟩ })

/-- The length that is mapped, with the 64-bit and 32-bit arithmetic of the source. -/
def mapLength (c : MapCall) : ℕ :=
  if c.fileSize < (c.offset.toNat + c.length.toNat) % 2 ^ 64 then
    u32 (2 ^ 64 + c.length.toNat - (c.fileSize - c.offset.toNat - 1))
  else c.length.toNat

/-- `map`; there is no result when the entry lies outside the array. -/
def map (s : SegArray) (c : MapCall) : Option (Rc × SegArray) :=
  if c.length = 0 then some (.ok, s)
  else if c.getFileSize ≠ .ok then some (c.getFileSize, s)
  else if c.fileSize ≤ c.offset.toNat then some (.invalidArg, s)
  else
    let r := s.ensureSpace (u32 (s.size + 1)) c.alloc
    if r.1 ≠ .ok then some r
    else if c.mmap ≠ .ok then some (c.mmap, r.2)
    else if s.size < r.2.arr.length then some (.ok, {
      arr := r.2.arr.set s.size ⟨mapLength c, c.offset.toNat⟩
      size := u32 (s.size + 1)
      totalLength := (s.totalLength + mapLength c) % 2 ^ 64 })
    else none

end SegArray

def MapCall.segment (c : MapCall) : MmapSegment :=
  ⟨min c.length.toNat (c.fileSize - c.offset.toNat), c.offset.toNat⟩

structure Describes (s : SegArray) (log : List MapCall) : Prop where
  segs_eq : s.segs = log.map MapCall.segment
  size_eq : s.size = log.length
  size_lt : s.size < 2 ^ 32
  size_le : s.size ≤ s.arr.length
  capacity_lt : s.arr.length < 2 ^ 32
  offset_lt : ∀ c ∈ log, c.offset.toNat < c.fileSize
  total_eq : s.totalLength = (log.map (·.segment.length)).sum

/-- The call has a result, which describes the requests with this one if it was mapped. -/
def RightMap (s : SegArray) (log : List MapCall) (c : MapCall) : Prop :=
  ∃ rc t, s.map c = some (rc, t) ∧ Describes t (if rc = .ok ∧ c.length ≠ 0 then log ++ [c] else log)

/-- The call maps nothing, or it has an index and lies in the file, or twice what is left of the
file is one more than its length. -/
def SafeMap (s : SegArray) (c : MapCall) : Prop :=
  c.length = 0 ∨ c.getFileSize ≠ .ok ∨ c.fileSize ≤ c.offset.toNat ∨
    (s.arr.length < u32 (s.size + 1) ∧ c.alloc = false) ∨ c.mmap ≠ .ok ∨
    s.size + 1 < 2 ^ 32 ∧ (c.offset.toNat + c.length.toNat ≤ c.fileSize ∨
      c.length.toNat + 1 = 2 * (c.fileSize - c.offset.toNat))

variable {s : SegArray} {log : List MapCall} {c : MapCall}

theorem mapLength_eq_iff (hin : c.offset.toNat < c.fileSize) :
    SegArray.mapLength c = c.segment.length ↔ c.offset.toNat + c.length.toNat ≤ c.fileSize ∨
      c.length.toNat + 1 = 2 * (c.fileSize - c.offset.toNat) := by
  have hfile := c.fileSize_lt
  have hlen := c.length.toNat_lt
  unfold SegArray.mapLength MapCall.segment u32
  split <;> simp only <;> omega

theorem newSize_bounds (capacity : ℕ) {size : ℕ} (hsize : size < 2 ^ 32) :
    size ≤ SegArray.newSize capacity size ∧ SegArray.newSize capacity size < 2 ^ 32 := by
  have hlt : u32 (capacity <<< 1) < 2 ^ 32 := Nat.mod_lt _ (by decide)
  unfold SegArray.newSize mmapInitCapacity
  dsimp only
  split_ifs <;> omega

theorem Describes.ensureSpace (h : Describes s log) (alloc : Bool) :
    (s.arr.length < u32 (s.size + 1) ∧ alloc = false) ∧
      s.ensureSpace (u32 (s.size + 1)) alloc = (.oom, s) ∨
    ¬ (s.arr.length < u32 (s.size + 1) ∧ alloc = false) ∧
      ∃ arr, s.ensureSpace (u32 (s.size + 1)) alloc = (.ok, { s with arr := arr }) ∧
        Describes { s with arr := arr } log ∧ (s.size + 1 < 2 ^ 32 → s.size < arr.length) := by
  have hle := h.size_le
  have hlt := h.size_lt
  unfold SegArray.ensureSpace
  by_cases hroom : u32 (s.size + 1) ≤ s.arr.length
  · refine .inr ⟨fun hno => Nat.not_lt.mpr hroom hno.1, s.arr, if_pos hroom, h, fun hsize => ?_⟩
    rwa [u32_of_lt hsize] at hroom
  rw [if_neg hroom]
  cases alloc with
  | false => exact .inl ⟨⟨Nat.not_le.mp hroom, rfl⟩, rfl⟩
  | true =>
    have hsize : u32 (s.size + 1) = s.size + 1 ∧ s.size + 1 < 2 ^ 32 := by
      unfold u32 at hroom ⊢
      omega
    rw [hsize.1]
    obtain ⟨hnew, hnewlt⟩ := newSize_bounds s.arr.length hsize.2
    generalize SegArray.newSize s.arr.length (s.size + 1) = m at hnew hnewlt
    have hlen : (s.arr.take s.size ++ List.replicate (m - s.size) (⟨0, 0⟩ : MmapSegment)).length =
        m := by
      rw [List.length_append, length_take_of_le hle, length_replicate]
      omega
    exact .inr ⟨by simp, _, rfl, { h with
      segs_eq := (take_left' (length_take_of_le hle)).trans h.segs_eq
      size_le := hlen.symm ▸ Nat.le_of_succ_le hnew
      capacity_lt := hlen.symm ▸ hnewlt }, fun _ => hlen.symm ▸ hnew⟩

theorem Describes.total_le (h : Describes s log) : s.totalLength ≤ s.size * (2 ^ 32 - 1) := by
  have hsum : (log.map (·.segment.length)).sum ≤
      (log.map (·.segment.length)).length • (2 ^ 32 - 1) := by
    refine sum_le_card_nsmul _ _ fun n hn => ?_
    obtain ⟨c, -, rfl⟩ := List.mem_map.mp hn
    have := c.length.toNat_lt
    simp only [MapCall.segment]
    omega
  rwa [← h.total_eq, length_map, ← h.size_eq] at hsum

theorem Describes.set_iff (h : Describes s log) (hin : c.offset.toNat < c.fileSize)
    (hidx : s.size < s.arr.length) {n : ℕ} (hn : n < 2 ^ 32) :
    Describes ⟨s.arr.set s.size ⟨n, c.offset.toNat⟩, u32 (s.size + 1),
      (s.totalLength + n) % 2 ^ 64⟩ (log ++ [c]) ↔ n = c.segment.length := by
  have hcap := h.capacity_lt
  have htotal : (s.totalLength + n) % 2 ^ 64 = s.totalLength + n := by
    have hle := h.total_le
    have hmul : s.size * (2 ^ 32 - 1) ≤ (2 ^ 32 - 1) * (2 ^ 32 - 1) :=
      Nat.mul_le_mul_right _ (by omega)
    exact Nat.mod_eq_of_lt (by omega)
  have hsegs : (s.arr.set s.size ⟨n, c.offset.toNat⟩).take (s.size + 1) =
      log.map MapCall.segment ++ [⟨n, c.offset.toNat⟩] := by
    rw [take_add_one, take_set_of_le le_rfl, getElem?_set_self hidx, ← h.segs_eq]
    rfl
  rw [u32_of_lt (by omega), htotal]
  constructor
  · intro ht
    have heq := hsegs.symm.trans ht.segs_eq
    rw [map_append, append_cancel_left_eq] at heq
    simpa using congrArg (List.map MmapSegment.length) heq
  · intro heq
    refine ⟨?_, ?_, ?_, ?_, ?_, ?_, ?_⟩
    · rw [map_append]
      exact hsegs.trans (by rw [heq]; rfl)
    · rw [List.length_append, length_singleton, h.size_eq]
    · exact lt_of_le_of_lt hidx hcap
    · rwa [length_set]
    · rwa [length_set]
    · simpa [or_imp, forall_and, hin] using h.offset_lt
    · rw [h.total_eq, heq, map_append, sum_append]
      rfl

theorem Describes.rightMap_iff (h : Describes s log) : RightMap s log c ↔ SafeMap s c := by
  have hfail : ∀ {rc t}, s.map c = some (rc, t) → rc ≠ .ok → Describes t log → RightMap s log c :=
    fun hmap hrc ht => ⟨_, _, hmap, by rwa [if_neg fun hok => hrc hok.1]⟩
  have hmap := SegArray.map.eq_1 s c
  by_cases h0 : c.length = 0
  · rw [if_pos h0] at hmap
    exact iff_of_true ⟨.ok, s, hmap, by rwa [if_neg fun hok => hok.2 h0]⟩ (.inl h0)
  rw [if_neg h0] at hmap
  by_cases hget : c.getFileSize ≠ .ok
  · rw [if_pos hget] at hmap
    exact iff_of_true (hfail hmap hget h) (.inr (.inl hget))
  rw [if_neg hget] at hmap
  by_cases hin : c.fileSize ≤ c.offset.toNat
  · rw [if_pos hin] at hmap
    exact iff_of_true (hfail hmap nofun h) (.inr (.inr (.inl hin)))
  rw [if_neg hin] at hmap
  rcases h.ensureSpace c.alloc with ⟨hfull, hens⟩ | ⟨hroom, arr, hens, harr, hidx⟩
  · rw [hens] at hmap
    exact iff_of_true (hfail hmap nofun h) (.inr (.inr (.inr (.inl hfull))))
  rw [hens] at hmap
  rw [if_neg (not_not.mpr rfl)] at hmap
  by_cases hmm : c.mmap ≠ .ok
  · rw [if_pos hmm] at hmap
    exact iff_of_true (hfail hmap hmm harr) (.inr (.inr (.inr (.inr (.inl hmm)))))
  rw [if_neg hmm] at hmap
  have hsafe : SafeMap s c ↔ s.size + 1 < 2 ^ 32 ∧ SegArray.mapLength c = c.segment.length := by
    rw [mapLength_eq_iff (Nat.not_le.mp hin)]
    simp only [SafeMap, h0, hget, hin, hroom, hmm, false_or]
  rw [hsafe]
  by_cases hlt : s.size < arr.length
  · rw [if_pos hlt] at hmap
    have hlen : SegArray.mapLength c < 2 ^ 32 := by
      have := c.length.toNat_lt
      unfold SegArray.mapLength u32
      split <;> omega
    have hset := harr.set_iff (Nat.not_le.mp hin) hlt hlen
    have hcap := harr.capacity_lt
    constructor
    · rintro ⟨rc, t, hmap', ht⟩
      obtain ⟨rfl, rfl⟩ := Prod.mk.inj (Option.some.inj (hmap.symm.trans hmap'))
      rw [if_pos ⟨rfl, h0⟩] at ht
      exact ⟨lt_of_le_of_lt hlt hcap, hset.mp ht⟩
    · rintro ⟨-, heq⟩
      exact ⟨_, _, hmap, by rw [if_pos ⟨rfl, h0⟩]; exact hset.mpr heq⟩
  · rw [if_neg hlt] at hmap
    refine iff_of_false ?_ fun hsize => hlt (hidx hsize.1)
    rintro ⟨rc, t, hmap', -⟩
    cases hmap.symm.trans hmap'

/-- The calls on an open file, with the requests that were mapped; they all satisfy `P`. -/
def mapSystem (P : SegArray → MapCall → Prop) : System (SegArray × List MapCall) where
  init s := s = ({}, [])
  step s t := ∃ c rc, P s.1 c ∧ s.1.map c = some (rc, t.1) ∧
    t.2 = if rc = .ok ∧ c.length ≠ 0 then s.2 ++ [c] else s.2

theorem describes_invariant :
    (mapSystem SafeMap).Invariant fun s => Describes s.1 s.2 where
  init := by
    rintro s rfl
    exact ⟨rfl, rfl, by decide, le_rfl, by decide, by simp, rfl⟩
  step := by
    rintro s t h ⟨c, rc, hsafe, hmap, hlog⟩
    obtain ⟨rc', t', hmap', ht⟩ := h.rightMap_iff.mpr hsafe
    obtain ⟨rfl, rfl⟩ := Prod.mk.inj (Option.some.inj (hmap'.symm.trans hmap))
    rwa [hlog]

/-- **The segments describe the file** in every run of safe calls, and after the next call exactly
when it is safe. -/
theorem mapped_segments_iff {s : SegArray × List MapCall} (hs : (mapSystem SafeMap).Reachable s)
    (c : MapCall) : Describes s.1 s.2 ∧ (RightMap s.1 s.2 c ↔ SafeMap s.1 c) :=
  ⟨describes_invariant.reachable hs, (describes_invariant.reachable hs).rightMap_iff⟩

def firstHalf : MapCall := { offset := 0, length := 4, fileSize := 8, fileSize_lt := by decide }

/-- The second half of a file is mapped after the first. -/
theorem mapped_segments_halves : ∃ t, (mapSystem SafeMap).Reachable (t, [firstHalf]) ∧
    RightMap t [firstHalf] { firstHalf with offset := 4 } := by
  obtain ⟨t, ht⟩ : ∃ t, SegArray.map {} firstHalf = some (.ok, t) := by
    simp [SegArray.map, SegArray.ensureSpace, SegArray.newSize, firstHalf, u32]
  have hs : (mapSystem SafeMap).Reachable (t, [firstHalf]) :=
    .step (.init rfl) ⟨firstHalf, .ok, by simp [SafeMap, firstHalf], ht, rfl⟩
  have hsize : t.size = 1 := (mapped_segments_iff hs firstHalf).1.size_eq
  refine ⟨t, hs, (mapped_segments_iff hs _).2.mpr ?_⟩
  simp [SafeMap, firstHalf, hsize]

def shortFile : MapCall := { offset := 0, length := 4, fileSize := 2, fileSize_lt := by decide }

/-- Four bytes are asked for and two are there; three are mapped. -/
theorem mapped_segments_long : SegArray.mapLength shortFile = 3 ∧ shortFile.segment.length = 2 ∧
    ¬ RightMap {} [] shortFile := by
  refine ⟨by decide, by decide, fun hright => ?_⟩
  have hopen : Describes {} [] := describes_invariant.init _ rfl
  have hsafe := hopen.rightMap_iff.mp hright
  simp [SafeMap, shortFile, u32] at hsafe

end Novachains.Oss
