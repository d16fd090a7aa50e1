import Novachains.Dms.MB
import Novachains.Lib.Bytes

/-!
# Extents and records in memory

A data extent begins with a header and is filled with records and deleted records; the meta extent
of a collection holds its first and last extent in each data segment.  The fields are words at fixed
distances from the address; `DMS_INVALID_EXTENT` and `DMS_INVALID_OFFSET` are all ones.
-/

namespace Novachains.Dms

open Lib Mem

def extentMetadataSz : ℕ := 36

def recordMetadataSz : ℕ := 16

/-- `DMS_MIN_RECORD_SZ`, and `DMS_MIN_DELETEDRECORD_SZ`. -/
def minRecordSz : ℕ := 36

def recordMaxSz : ℕ := 16 * 1024 * 1024

/-! ## Data extents -/

variable (m : Mem) (a : ℕ)

namespace Extent

/-- The eye catcher `DE`. -/
def eyeCatcher : List UInt8 := [68, 69]

def blockSize : ℕ := m.read (a + 2) 2
def mbID : ℕ := m.read (a + 4) 2
def flag : ℕ := m.read (a + 6) 1
def logicID : ℕ := m.read (a + 8) 4
def prevExtent : Option ℕ := m.readOpt (a + 12) 4
def nextExtent : Option ℕ := m.readOpt (a + 16) 4
def recCount : ℕ := m.read (a + 20) 4
def firstRecordOffset : Option ℕ := m.readOpt (a + 24) 4
def lastRecordOffset : Option ℕ := m.readOpt (a + 28) 4
def freeSpace : ℕ := m.read (a + 32) 4

def setLogicID (a v : ℕ) : Mem := m.write (a + 8) 4 v
def setPrevExtent (v : Option ℕ) : Mem := m.writeOpt (a + 12) 4 v
def setNextExtent (v : Option ℕ) : Mem := m.writeOpt (a + 16) 4 v
def setRecCount (a v : ℕ) : Mem := m.write (a + 20) 4 v
def setFirstRecordOffset (v : Option ℕ) : Mem := m.writeOpt (a + 24) 4 v
def setLastRecordOffset (v : Option ℕ) : Mem := m.writeOpt (a + 28) 4 v
def setFreeSpace (a v : ℕ) : Mem := m.write (a + 32) 4 v

/-- The header of a new extent. -/
def init (a numPages mbID totalSize : ℕ) : Mem :=
  let m := m.store a eyeCatcher
  let m := m.write (a + 2) 2 numPages
  let m := m.write (a + 4) 2 mbID
  let m := m.write (a + 6) 1 1
  let m := m.write (a + 7) 1 1
  let m := m.writeOpt (a + 8) 4 none
  let m := setPrevExtent m a none
  let m := setNextExtent m a none
  let m := setRecCount m a 0
  let m := setFirstRecordOffset m a none
  let m := setLastRecordOffset m a none
  setFreeSpace m a (totalSize - extentMetadataSz)

/-- The extent is in use, by the collection if one is given. -/
def validate (a id : ℕ) : Bool :=
  if m.load a 2 ≠ eyeCatcher ∨ flag m a ≠ 1 then false
  else !(id ≠ invalidMBID ∧ mbID m a ≠ id)

theorem sameOn_init {a numPages id total y n : ℕ}
    (h : y + n ≤ a ∨ a + extentMetadataSz ≤ y) :
    m.SameOn (init m a numPages id total) y n := by
  have hsz : extentMetadataSz = 36 := rfl
  intro z h1 h2
  simp (disch := simp; omega) only [init, setPrevExtent, setNextExtent, setRecCount,
    setFirstRecordOffset, setLastRecordOffset, setFreeSpace, Mem.writeOpt, Mem.write,
    store_of_not_mem]
  exact store_of_not_mem _ _ _ (by change z < a ∨ a + 2 ≤ z; omega)

section Init
variable (m : Mem) (a : ℕ) {numPages id total : ℕ}

attribute [local simp] init setPrevExtent setNextExtent setRecCount setFirstRecordOffset
  setLastRecordOffset setFreeSpace writeOpt readOpt read_write_of_disjoint read_write_same

@[simp] theorem prevExtent_init : prevExtent (init m a numPages id total) a = none := by
  simp (disch := omega) [prevExtent]

@[simp] theorem nextExtent_init : nextExtent (init m a numPages id total) a = none := by
  simp (disch := omega) [nextExtent]

@[simp] theorem recCount_init : recCount (init m a numPages id total) a = 0 := by
  simp (disch := omega) [recCount]

@[simp] theorem firstRecordOffset_init :
    firstRecordOffset (init m a numPages id total) a = none := by
  simp (disch := omega) [firstRecordOffset]

@[simp] theorem lastRecordOffset_init :
    lastRecordOffset (init m a numPages id total) a = none := by
  simp (disch := omega) [lastRecordOffset]

theorem freeSpace_init (h : total < 2 ^ 32) :
    freeSpace (init m a numPages id total) a = total - extentMetadataSz := by
  have hlt : total - extentMetadataSz < 256 ^ 4 := by omega
  exact (read_write_same _ _ _ _).trans (Nat.mod_eq_of_lt hlt)

theorem blockSize_init (h : numPages < 2 ^ 16) :
    blockSize (init m a numPages id total) a = numPages := by
  simp (disch := omega) [blockSize]
  exact h

theorem validate_init (h : id < 2 ^ 16) : validate (init m a numPages id total) a id := by
  have heye : (init m a numPages id total).load a 2 = eyeCatcher := by
    simp (disch := omega) only [init, setPrevExtent, setNextExtent, setRecCount,
      setFirstRecordOffset, setLastRecordOffset, setFreeSpace, Mem.writeOpt,
      load_write_of_disjoint]
    exact load_store_same m a eyeCatcher
  have hflag : flag (init m a numPages id total) a = 1 := by
    simp (disch := omega) [flag]
  have hid : mbID (init m a numPages id total) a = id := by
    simp (disch := omega) [mbID]
    exact h
  simp [validate, heye, hflag, hid, -init]

end Init

end Extent

namespace MetaExtent

/-- The eye catcher `ME`. -/
def eyeCatcher : List UInt8 := [77, 69]

def segNum : ℕ := m.read (a + 8) 4
def usedSegNum : ℕ := m.read (a + 12) 4
def firstExtentID (a segID : ℕ) : Option ℕ := m.readOpt (a + 16 + 8 * segID) 4
def lastExtentID (a segID : ℕ) : Option ℕ := m.readOpt (a + 20 + 8 * segID) 4

def setUsedSegNum (a v : ℕ) : Mem := m.write (a + 12) 4 v
def setFirstExtentID (m : Mem) (a segID : ℕ) (v : Option ℕ) : Mem :=
  m.writeOpt (a + 16 + 8 * segID) 4 v
def setLastExtentID (a segID : ℕ) (v : Option ℕ) : Mem :=
  m.writeOpt (a + 20 + 8 * segID) 4 v

/-- The header of a new meta extent. -/
def init (a numPages mbID segNum : ℕ) : Mem :=
  let m := m.store a eyeCatcher
  let m := m.write (a + 2) 2 numPages
  let m := m.write (a + 4) 2 mbID
  let m := m.write (a + 6) 1 1
  let m := m.write (a + 7) 1 1
  let m := m.write (a + 8) 4 segNum
  let m := setUsedSegNum m a 0
  -- Every entry of the array becomes `DMS_INVALID_EXTENT`.
  m.fill (a + 16) (8 * segNum) 255

section Init
variable (m : Mem) (a : ℕ) {numPages id n : ℕ}

theorem sameOn_init {y k : ℕ} (h : y + k ≤ a ∨ a + 16 + 8 * n ≤ y) :
    m.SameOn (init m a numPages id n) y k := by
  refine Mem.SameOn.trans ?_ (sameOn_fill _ (by omega))
  intro z h1 h2
  simp (disch := simp; omega) only [setUsedSegNum, Mem.write, store_of_not_mem]
  exact store_of_not_mem _ _ _ (by change z < a ∨ a + 2 ≤ z; omega)

theorem segNum_init (h : n < 2 ^ 32) : segNum (init m a numPages id n) a = n := by
  refine (read_congr ((sameOn_write _).trans
    (sameOn_fill _ (by omega)))).trans ((read_write_same _ _ _ _).trans ?_)
  exact Nat.mod_eq_of_lt h

theorem usedSegNum_init : usedSegNum (init m a numPages id n) a = 0 :=
  (read_congr (sameOn_fill _ (by omega))).trans (read_write_same _ _ _ _)

theorem firstExtentID_init {s : ℕ} (h : s < n) :
    firstExtentID (init m a numPages id n) a s = none := readOpt_fill _ (by omega) (by omega)

theorem lastExtentID_init {s : ℕ} (h : s < n) :
    lastExtentID (init m a numPages id n) a s = none := readOpt_fill _ (by omega) (by omega)

end Init

end MetaExtent

namespace Record

variable (r : ℕ)

def flag : ℕ := m.read r 1

/-- `getSize`: the three bytes after the flag hold the size less one. -/
def size : ℕ := m.read (r + 1) 3 + 1

def myOffset : ℕ := m.read (r + 4) 4
def prevOffset : Option ℕ := m.readOpt (r + 8) 4
def nextOffset : Option ℕ := m.readOpt (r + 12) 4

/-- `getDataLength`: the low 24 bits of the first word of the data. -/
def dataLength : ℕ := m.read (r + recordMetadataSz) 4 &&& 0x00FFFFFF

def isDeleted : Bool := flag m r = 4

/-- `isOvf`: the state of a record whose data is elsewhere. -/
def isOvf : Bool := flag m r &&& 0x0F = 1

/-- `_dmsDeletedRecord::getNextRID`. -/
def nextRID : Option RecordID :=
  (m.readOpt (r + 8) 4).map fun extent => ⟨extent, m.read (r + 12) 4⟩

theorem nextRID_congr {m m' : Mem} {r : ℕ} (h : m.SameOn m' (r + 8) 8) :
    nextRID m' r = nextRID m r := by
  rw [nextRID, nextRID, readOpt_congr h.mono,
    read_congr h.mono]

def setState (r state : ℕ) : Mem := m.write r 1 (state &&& 0x0F ||| flag m r &&& 0xF0)
def unsetAttr (r attr : ℕ) : Mem := m.write r 1 (flag m r &&& (0xFF - (attr &&& 0xF0)))

def setDeleted : Mem := m.write r 1 4

def setSize (r v : ℕ) : Mem := m.write (r + 1) 3 (v - 1)
def setMyOffset (r v : ℕ) : Mem := m.write (r + 4) 4 v
def setPrevOffset (v : Option ℕ) : Mem := m.writeOpt (r + 8) 4 v
def setNextOffset (v : Option ℕ) : Mem := m.writeOpt (r + 12) 4 v

/-- `_dmsDeletedRecord::setNextRID`; the null ID has both words invalid. -/
def setNextRID (rid : Option RecordID) : Mem :=
  (m.writeOpt (r + 8) 4 (rid.map RecordID.extent)).writeOpt (r + 12) 4 (rid.map RecordID.offset)

/-- `setData` of uncompressed data. -/
def setData (data : List UInt8) : Mem :=
  if data = [] then m else (unsetAttr m r 0x10).store (r + recordMetadataSz) data

end Record

end Novachains.Dms
