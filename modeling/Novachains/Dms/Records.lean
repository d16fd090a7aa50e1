import Novachains.Dms.Col

/-!
# Record space

A collection keeps the free parts of its extents as deleted records, in twenty lists by
size.  A new extent is cut into deleted records; an insert takes a deleted record that is
large enough off its list, gives the rest of it back and puts the record at the end of
the record list of the extent.
-/

namespace Novachains.Dms

open Lib

def slotLoop : ℕ → ℕ → ℕ
  | 0, _ => 0
  | fuel + 1, n => if n ≠ 0 then slotLoop fuel (n >>> 1) + 1 else 0

def deleteSlot (size : ℕ) : ℕ := slotLoop 32 ((size - 1) >>> 5)

/-- `dmsMB::_max`: the number of slots. -/
def maxSlot : ℕ := 20

def minRecordDataSz : ℕ := 5

theorem slotLoop_le_iff {fuel n : ℕ} (h : n < 2 ^ fuel) (k : ℕ) :
    slotLoop fuel n ≤ k ↔ n < 2 ^ k := by
  induction fuel generalizing n k with
  | zero =>
    obtain rfl : n = 0 := by simpa using h
    simp [slotLoop]
  | succ fuel ih =>
    rw [slotLoop]
    split
    next hn =>
      rw [pow_succ'] at h
      cases k with
      | zero => simp [hn]
      | succ k =>
        rw [Nat.add_le_add_iff_right, ih (by rw [Nat.shiftRight_one]; omega),
          Nat.shiftRight_one, pow_succ']
        omega
    next hn => simp [not_not.mp hn]

theorem deleteSlot_le_iff {size : ℕ} (hpos : 0 < size) (h : size ≤ 2 ^ 32) (k : ℕ) :
    deleteSlot size ≤ k ↔ size ≤ 2 ^ (k + 5) := by
  have hlt : (size - 1) >>> 5 < 2 ^ 32 := by
    rw [Nat.shiftRight_eq_div_pow]
    omega
  rw [deleteSlot, slotLoop_le_iff hlt, Nat.shiftRight_eq_div_pow,
    Nat.div_lt_iff_lt_mul (by decide), ← Nat.pow_add]
  omega

theorem deleteSlot_lt {size : ℕ} (hpos : 0 < size) (h : size ≤ recordMaxSz) :
    deleteSlot size < maxSlot := by
  have hsz : recordMaxSz = 2 ^ (19 + 5) := rfl
  exact Nat.lt_succ_of_le ((deleteSlot_le_iff hpos (h.trans (by decide)) 19).mpr (hsz ▸ h))

namespace Col

/-! ## Deleted records -/

def setDeleteList (mb : MB) (slot : ℕ) (rid : Option RecordID) : MB :=
  { mb with deleteList := fun j => if j = slot then rid else mb.deleteList j }

variable (c : Col)

/-- `_saveDeletedRecord` on an extent and a record whose addresses are known. -/
def saveDeleted (rid : RecordID) (recordSize : ℕ) : Col :=
  let extAddr := c.addr rid.extent
  let pRecord := c.recordAddr rid
  let data := Record.setDeleted c.data pRecord
  let (data, recordSize) :=
    if recordSize > 0 then (Record.setSize data pRecord recordSize, recordSize)
    else (data, Record.size data pRecord)
  let data := Record.setMyOffset data pRecord rid.offset
  let data := Extent.setFreeSpace data extAddr (Extent.freeSpace data extAddr + recordSize)
  let slot := deleteSlot recordSize
  let totals := c.stat.totals
  { c with
    data := Record.setNextRID data pRecord (c.mb.deleteList slot)
    mb := setDeleteList c.mb slot (some rid)
    stat := { c.stat with totals := { totals with
      totalDataFreeSpace := totals.totalDataFreeSpace + recordSize } } }

/-- `_saveDeletedRecord` by record ID. -/
def saveDeletedRecord (recordID : Option RecordID) (recordSize : ℕ) : Rc × Col :=
  match recordID with
  | none => (.invalidArg, c)
  | some rid =>
    match c.extentAddr (some rid.extent) with
    | none => (.sys, c)
    | some _ => (.ok, c.saveDeleted rid recordSize)

/-- The loop of `_mapExtent2DelList`: records of one size as long as enough is left. -/
def mapLoop (extentID deleteRecordSize : ℕ) : ℕ → Col → ℕ → ℕ → Col × ℕ × ℕ
  | 0, c, cur, offset => (c, cur, offset)
  | fuel + 1, c, cur, offset =>
    if cur ≥ deleteRecordSize + minRecordSz then
      mapLoop extentID deleteRecordSize fuel (c.saveDeleted ⟨extentID, offset⟩ deleteRecordSize)
        (cur - deleteRecordSize) (offset + deleteRecordSize)
    else (c, cur, offset)

/-- `_mapExtent2DelList`.  Each round of the loop uses up some space, which bounds it. -/
def mapExtent2DelList (extentID : ℕ) : Col :=
  let extAddr := c.addr extentID
  let useable := Extent.freeSpace c.data extAddr
  if useable < minRecordSz then c
  else
    let extentSize := Extent.blockSize c.data extAddr <<< c.pageSize.square
    let c := { c with data := Extent.setFreeSpace c.data extAddr 0 }
    let deleteRecordSize := min useable recordMaxSz
    let (c, cur, offset) :=
      mapLoop extentID deleteRecordSize useable c useable (extentSize - useable)
    let (c, cur, offset) :=
      if cur > deleteRecordSize then
        (c.saveDeleted ⟨extentID, offset⟩ 4096, cur - 4096, offset + 4096)
      else (c, cur, offset)
    if cur > 0 then c.saveDeleted ⟨extentID, offset⟩ cur else c

/-- The search of one delete list, `fuel` records deep: the record and the one before it. -/
def searchSlot (c : Col) (required : ℕ) :
    ℕ → Option RecordID → Option RecordID → Except Rc (Option (Option RecordID × RecordID))
  | 0, _, _ => .ok none
  | _ + 1, _, none => .ok none
  | fuel + 1, pre, some rid =>
    if c.extentAddr (some rid.extent) = none then .error .sys
    else if Record.isDeleted c.data (c.recordAddr rid) ∧
        Record.size c.data (c.recordAddr rid) ≥ required then .ok (some (pre, rid))
    else searchSlot c required fuel (some rid) (Record.nextRID c.data (c.recordAddr rid))

def search (c : Col) (required : ℕ) :
    List ℕ → Except Rc (Option (ℕ × Option RecordID × RecordID))
  | [] => .ok none
  | j :: slots =>
    match c.searchSlot required 3 none (c.mb.deleteList j) with
    | .error rc => .error rc
    | .ok (some found) => .ok (some (j, found))
    | .ok none => search c required slots

def unlinkDeleted (slot : ℕ) (pre : Option RecordID) (rid : RecordID) : Col :=
  let next := Record.nextRID c.data (c.recordAddr rid)
  match pre with
  | none => { c with mb := setDeleteList c.mb slot next }
  | some preRID => { c with data := Record.setNextRID c.data (c.recordAddr preRID) next }

def takeDeleted (slot : ℕ) (pre : Option RecordID) (rid : RecordID) : Col :=
  let c := c.unlinkDeleted slot pre rid
  let extAddr := c.addr rid.extent
  let left := Extent.freeSpace c.data extAddr - Record.size c.data (c.recordAddr rid)
  { c with data := Extent.setFreeSpace c.data extAddr left }

/-! ## Inserting -/

/-- The end of `_extentInsertRecord`: the data is copied and the record appended to the
list of its extent. -/
def appendRecord (rid : RecordID) (myOffset : ℕ) (recordData : List UInt8)
    (isInsert : Bool) : Col :=
  let extent := c.addr rid.extent
  let pRecord := c.recordAddr rid
  let data := Record.setData c.data pRecord recordData
  let data := Record.setNextOffset data pRecord none
  let data := Record.setPrevOffset data pRecord none
  let totals := c.stat.totals
  let (data, totals) :=
    if isInsert then
      let offset := Extent.lastRecordOffset data extent
      let data := Extent.setRecCount data extent (Extent.recCount data extent + 1)
      let data :=
        match offset with
        | some last =>
          let data := Record.setNextOffset data (extent + last) (some myOffset)
          Record.setPrevOffset data pRecord (some last)
        | none => data
      let data := Extent.setLastRecordOffset data extent (some myOffset)
      let data :=
        if Extent.firstRecordOffset data extent = none then
          Extent.setFirstRecordOffset data extent (some myOffset)
        else data
      (data, { totals with totalRecords := totals.totalRecords + 1 })
    else (data, totals)
  { c with
    data := data
    stat := { c.stat with totals := { totals with
      totalOrgDataLen := totals.totalOrgDataLen + recordData.length
      totalDataLen := totals.totalDataLen + recordData.length } } }

/-- `_extentInsertRecord`, once the collection is locked. -/
def extentInsertRecord (rid : RecordID) (recordData : List UInt8) (need : ℕ)
    (isInsert : Bool) : Rc × Col :=
  if c.extentAddr (some rid.extent) = none then (.sys, c)
  else
    let pRecord := c.recordAddr rid
    let myOffset := Record.myOffset c.data pRecord
    if Record.size c.data pRecord < need then (.invalidArg, c)
    else if recordData.length < minRecordDataSz then (.invalidArg, c)
    else
      let c := { c with data := Record.setState c.data pRecord 0 }
      let c := { c with data := Record.unsetAttr c.data pRecord 0xF0 }
      if Record.size c.data pRecord - need > minRecordSz then
        match c.saveDeletedRecord (some ⟨rid.extent, myOffset + need⟩)
            (Record.size c.data pRecord - need) with
        | (.ok, c) =>
          let c := { c with data := Record.setSize c.data pRecord need }
          (.ok, c.appendRecord rid myOffset recordData isInsert)
        | (rc, c) => (rc, c)
      else (.ok, c.appendRecord rid myOffset recordData isInsert)

end Col

end Novachains.Dms
