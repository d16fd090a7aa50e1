import Novachains.Dms.Header

/-!
# Metadata blocks

Each collection of a storage unit has a metadata block in the mapped metadata
extent and a statistics record in memory.  The counters are kept in memory and
copied to the block when metadata is written back.
-/

namespace Novachains.Dms

/-- `_dmsRecordID`; the null ID is `none` where one may occur. -/
structure RecordID where
  extent : ℕ
  offset : ℕ
  deriving DecidableEq, Repr

structure Totals where
  totalRecords : ℕ := 0
  totalDataPages : ℕ := 0
  totalDataFreeSpace : ℕ := 0
  totalOrgDataLen : ℕ := 0
  totalDataLen : ℕ := 0
  deriving DecidableEq, Repr

def invalidMBID : ℕ := 65535

def invalidCLID : ℕ := 2 ^ 32 - 1

def collectionNameSz : ℕ := 127

/-- `_dmsMetadataBlock`.  `DMS_INVALID_EXTENT` is `none`. -/
structure MB where
  collectionName : CStr
  flag : ℕ
  blockID : ℕ
  firstExtentID : Option ℕ
  lastExtentID : Option ℕ
  deleteList : ℕ → Option RecordID
  logicalID : ℕ
  attributes : ℕ
  loadFirstExtentID : Option ℕ
  loadLastExtentID : Option ℕ
  mbExExtentID : Option ℕ
  totals : Totals
  mbOptExtentID : Option ℕ
  clUniqueID : ℕ

namespace MB

def isFree (mb : MB) : Bool := mb.flag = 0

def inUse (mb : MB) : Bool := mb.flag &&& 1 ≠ 0

/-- `_dmsMetadataBlock::reset`. -/
def reset (mb : MB) (clName : CStr) (clUniqueID mbID clLID attr : ℕ) : MB where
  collectionName := clName.take collectionNameSz
  flag := if mbID ≠ invalidMBID then mb.flag ||| 1 else 0
  blockID := mbID
  firstExtentID := none
  lastExtentID := none
  deleteList := fun _ => none
  logicalID := clLID
  attributes := attr
  loadFirstExtentID := none
  loadLastExtentID := none
  mbExExtentID := none
  totals := {}
  mbOptExtentID := none
  clUniqueID := clUniqueID

/-- The block `reset` leaves with its default arguments. -/
def free : MB := reset
  { collectionName := [], flag := 0, blockID := 0, firstExtentID := none, lastExtentID := none,
    deleteList := fun _ => none, logicalID := 0, attributes := 0, loadFirstExtentID := none,
    loadLastExtentID := none, mbExExtentID := none, totals := {}, mbOptExtentID := none,
    clUniqueID := 0 }
  [] 0 invalidMBID invalidCLID 0

end MB

structure MBStatInfo where
  totals : Totals := {}
  startLID : ℕ := invalidCLID
  isCrash : Bool := false
  deriving DecidableEq, Repr

end Novachains.Dms
