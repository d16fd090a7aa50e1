import Novachains.Dms.MB
import Novachains.Lib.Bytes
import Novachains.Oss.Mmap

/-!
# The storage unit

`_dmsBlockData` is a memory-mapped file with the header, the space manager, the
metadata blocks, the data segments and a list of the data segments that were
changed since they were last written back.
-/

namespace Novachains.Dms

open Lib Oss

structure DirtyList where
  data : Bitmap
  capacity : ℕ
  size : ℕ
  fullDirty : Bool

namespace DirtyList

def empty : DirtyList := ⟨Bitmap.zero, 0, 0, false⟩

variable (d : DirtyList)

def cleanDirty (pos : ℕ) : DirtyList := { d with data := d.data.clear pos }

def isDirty (pos : ℕ) : Bool := d.fullDirty || d.data.get pos

def setSize (size : ℕ) : DirtyList :=
  { d with size := if size ≤ d.capacity then size else d.capacity }

/-- `init` on a list that was not used before. -/
def init (capacity : ℕ) (alloc : Bool) : Except Rc DirtyList :=
  if !alloc then .error .oom else .ok { empty with capacity := ((capacity + 7) >>> 3) <<< 3 }

theorem isDirty_cleanDirty (pos : ℕ) :
    (d.cleanDirty pos).isDirty pos = d.fullDirty := by
  simp [isDirty, cleanDirty, Bitmap.get_clear]

end DirtyList

/-! ## The unit -/

/-- `_dmsBlockData`; the mapped data segments are one memory, with segment `k` at `k * segmentSz`.
-/
structure BlockData where
  info : StorageInfo
  file : MmapFile
  msync : Msync
  header : StorageUnitHeader
  smeMgr : SMEMgr
  mme : ℕ → MB
  mbStatInfo : ℕ → MBStatInfo
  collectionNameMap : CStr → Option ℕ
  collectionIDMap : ℕ → Option ℕ
  data : Mem
  pageSize : PageSize
  pageNum : ℕ
  mmeSegID : ℕ
  dataSegID : ℕ
  maxSegID : ℕ
  dirtyList : DirtyList

namespace BlockData

variable (bd : BlockData)

/-- `extent2Segment`: the segment and the page in it. -/
def extent2Segment (extentID : ℕ) : ℕ × ℕ :=
  ((extentID >>> bd.pageSize.layout.segmentPagesSquare) + bd.dataSegID,
    extentID &&& ((1 <<< bd.pageSize.layout.segmentPagesSquare) - 1))

/-- `extentAddr`; `none` is the null address. -/
def extentAddr : Option ℕ → Option ℕ
  | none => none
  | some extentID =>
    let (segID, segOffset) := bd.extent2Segment extentID
    if segID > bd.maxSegID then none
    else some ((segID - bd.dataSegID) * segmentSz + segOffset <<< bd.pageSize.square)

theorem extentAddr_some (extentID : ℕ) :
    bd.extentAddr (some extentID) =
      if bd.dataSegID + extentID / bd.pageSize.segmentPages > bd.maxSegID then none
      else some (extentID * bd.pageSize.bytes) := by
  have hsp : 2 ^ bd.pageSize.layout.segmentPagesSquare = bd.pageSize.segmentPages :=
    bd.pageSize.layout_segmentPages
  have haddr : extentID / bd.pageSize.segmentPages * segmentSz +
      extentID % bd.pageSize.segmentPages * bd.pageSize.bytes = extentID * bd.pageSize.bytes := by
    rw [← bd.pageSize.segmentPages_mul_bytes, ← mul_assoc, ← add_mul, mul_comm
      (extentID / _), Nat.div_add_mod]
  simp only [extentAddr, extent2Segment, Nat.shiftRight_eq_div_pow, Nat.one_shiftLeft,
    Nat.and_two_pow_sub_one_eq_mod]
  rw [hsp, Nat.shiftLeft_eq, ← PageSize.bytes_eq, Nat.add_sub_cancel, haddr,
    add_comm bd.dataSegID]

/-- `syncMemToMmap` for one collection. -/
def syncTotals (mb : MB) (stat : MBStatInfo) : MB :=
  if mb.inUse then { mb with totals := stat.totals } else mb

/-- All counters are written back. -/
def syncMemToMmap : BlockData :=
  { bd with mme := fun i =>
      if i < mmeSlots then syncTotals (bd.mme i) (bd.mbStatInfo i) else bd.mme i }

/-- The loop of `flushMeta`, over the segments still to be written. -/
def flushMetaLoop (file : MmapFile) (sync : Bool) (except : List ℕ) :
    List ℕ → Rc → Msync → Rc × Msync
  | [], rc, m => (rc, m)
  | i :: rest, rc, m =>
    if i ∈ except then flushMetaLoop file sync except rest rc m
    else
      let (rcTmp, m) := file.flush m i sync
      flushMetaLoop file sync except rest (if rcTmp ≠ .ok ∧ rc = .ok then rcTmp else rc) m

/-- `flushMeta`; `except` is `pExceptID`. -/
def flushMeta (sync : Bool) (except : List ℕ) : Rc × BlockData :=
  let bd := bd.syncMemToMmap
  let (rc, m) := flushMetaLoop bd.file sync except (List.range bd.dataSegID) .ok bd.msync
  (rc, { bd with msync := m })

/-- `flushSegment`: the segment is marked clean before it is written. -/
def flushSegment (segmentID : ℕ) (sync : Bool) : Rc × BlockData :=
  let bd :=
    if bd.dataSegID > 0 ∧ segmentID ≥ bd.dataSegID then
      { bd with dirtyList := bd.dirtyList.cleanDirty (segmentID - bd.dataSegID) }
    else bd
  let (rc, m) := bd.file.flush bd.msync segmentID sync
  (rc, { bd with msync := m })

def flushMME (sync : Bool) : Rc × BlockData :=
  bd.syncMemToMmap.flushSegment bd.mmeSegID sync

/-- `_markHeaderInvalid` for one collection. -/
def markHeaderInvalid (collectionID : ℕ) : BlockData :=
  if collectionID < mmeSlots ∧ !(bd.mbStatInfo collectionID).isCrash then (bd.flushMME false).2
  else bd

end BlockData

end Novachains.Dms
