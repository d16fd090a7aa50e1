import Novachains.Dms.SMEMgr

/-!
# The storage unit header

A storage unit file begins with a header, the space management extent and the
metadata management extent; the data segments follow.  The header says how many
pages the file has in all and how many of them are data pages, and
`_validateHeader` refuses a header whose two figures do not fit together.
-/

namespace Novachains.Dms

abbrev CStr := List UInt8

/-- `0 == ossStrncmp( a, b, n )`. -/
def strnEq (a b : CStr) (n : ℕ) : Bool := a.take n = b.take n

def segmentSz : ℕ := 128 * 1024 * 1024

def headerSz : ℕ := 65536

/-- `DMS_SME_SZ`: one bit for each page. -/
def smeSz : ℕ := maxPg / 8

/-- `DMS_MME_SLOTS`: the number of collections a unit may have. -/
def mmeSlots : ℕ := 4096

/-- `DMS_MME_SZ`: `DMS_MB_SIZE` bytes for each collection. -/
def mmeSz : ℕ := mmeSlots * 1024

def smeOffset : ℕ := headerSz

def mmeOffset : ℕ := smeOffset + smeSz

def dataOffset : ℕ := mmeOffset + mmeSz

inductive PageSize
  | k4
  | k8
  | k16
  | k32
  | k64
  deriving DecidableEq, Repr

variable (p : PageSize)

namespace PageSize

def bytes : PageSize → ℕ
  | k4 => 4096
  | k8 => 8192
  | k16 => 16384
  | k32 => 32768
  | k64 => 65536

def square : PageSize → ℕ
  | k4 => 12
  | k8 => 13
  | k16 => 14
  | k32 => 15
  | k64 => 16

def segmentPages : ℕ := segmentSz >>> p.square

/-- The division into segments: `_segmentPagesSquare` and its bound. -/
def layout : Layout where
  segmentPagesSquare := 27 - p.square
  square_le := by cases p <;> decide

def maxSegmentNum : ℕ := maxPg >>> p.layout.segmentPagesSquare

theorem bytes_eq : p.bytes = 2 ^ p.square := by cases p <;> decide

theorem bytes_pos : 0 < p.bytes := by cases p <;> decide

@[simp] theorem layout_segmentPages : p.layout.segmentPages = p.segmentPages := by
  cases p <;> decide

theorem segmentPages_mul_bytes : p.segmentPages * p.bytes = segmentSz := by
  cases p <;> decide

theorem segmentPages_pos : 0 < p.segmentPages := by cases p <;> decide

theorem dataOffset_div_mul : dataOffset / p.bytes * p.bytes = dataOffset := by
  cases p <;> decide

end PageSize

/-! ## The header -/

/-- The parts of `_dmsStorageInfo` that opening and extending a unit use. -/
structure StorageInfo where
  pageSize : ℕ
  suName : CStr
  sequence : ℕ
  enableSparse : Bool
  csUniqueID : ℕ
  deriving DecidableEq, Repr

/-- `_dmsStorageUnitHeader`; `_storageUnitSize` is a `UINT32`. -/
structure StorageUnitHeader where
  eyeCatcher : CStr
  version : ℕ
  pageSize : ℕ
  storageUnitSize : ℕ
  name : CStr
  sequence : ℕ
  numMB : ℕ
  mbhwm : ℕ
  pageNum : ℕ
  csUniqueID : ℕ
  storageUnitSize_lt : storageUnitSize < 2 ^ 32
  deriving DecidableEq, Repr

/-- `DMS_DATASU_EYECATCHER`: `NOVADATA`. -/
def datasuEyecatcher : CStr := [78, 79, 86, 65, 68, 65, 84, 65]

def curVersion : ℕ := 1

/-- The loop of `ossIsPowerOf2` that counts the shifts. -/
def squareLoop : ℕ → ℕ → ℕ
  | 0, _ => 0
  | fuel + 1, num => if num = 1 then 0 else squareLoop fuel (num >>> 1) + 1

/-- `ossIsPowerOf2`, with the exponent when the number is a power of two. -/
def ossIsPowerOf2 (num : ℕ) : Option ℕ :=
  if num ≠ 0 ∧ num &&& (num - 1) = 0 then some (squareLoop 32 num) else none

def checkPageSize (pageSize : ℕ) : Except Rc PageSize :=
  match [PageSize.k4, .k8, .k16, .k32, .k64].find? (fun p => p.bytes = pageSize) with
  | some p => .ok p
  | none => .error .invalidArg

/-- `_validateHeader`: the page size and the updated storage information. -/
def validateHeader (info : StorageInfo) (h : StorageUnitHeader) :
    Except Rc (PageSize × StorageInfo) :=
  if !strnEq h.eyeCatcher datasuEyecatcher 8 then .error .invalidFileType
  else if h.version > curVersion then .error .dmsIncompatibleVersion
  else
    match checkPageSize h.pageSize with
    | .error rc => .error rc
    | .ok p =>
      let info := { info with pageSize := h.pageSize }
      if dataOffset % h.pageSize ≠ 0 then .error .sys
      else if maxPg < h.pageNum then .error .sys
      else if u32 (h.storageUnitSize + 2 ^ 32 - h.pageNum) ≠ dataOffset / h.pageSize then
        .error .sys
      else if !strnEq info.suName h.name 127 then .error .sys
      else
        match ossIsPowerOf2 h.pageSize with
        | none => .error .invalidArg
        | some square =>
          match ossIsPowerOf2 (segmentSz >>> square) with
          | none => .error .sys
          | some _ =>
            .ok (p, { info with sequence := h.sequence, csUniqueID := h.csUniqueID })

theorem checkPageSize_bytes : checkPageSize p.bytes = .ok p := by
  cases p <;> decide

theorem checkPageSize_ok {n : ℕ} {p : PageSize} (h : checkPageSize n = .ok p) : n = p.bytes := by
  rw [checkPageSize] at h
  split at h
  · rename_i q hq
    cases h
    have := List.find?_some hq
    exact (of_decide_eq_true this).symm
  · simp at h

theorem ossIsPowerOf2_bytes :
    ossIsPowerOf2 p.bytes = some p.square ∧
      ossIsPowerOf2 (segmentSz >>> p.square) = some p.layout.segmentPagesSquare := by
  cases p <;> decide

structure HeaderOk (info : StorageInfo) (h : StorageUnitHeader) (p : PageSize) : Prop where
  eyeCatcher : strnEq h.eyeCatcher datasuEyecatcher 8 = true
  version : h.version ≤ curVersion
  pageSize_eq : h.pageSize = p.bytes
  pageNum_le : h.pageNum ≤ maxPg
  size_sub : u32 (h.storageUnitSize + 2 ^ 32 - h.pageNum) = dataOffset / p.bytes
  name : strnEq info.suName h.name 127 = true

theorem HeaderOk.storageUnitSize_eq {info : StorageInfo} {h : StorageUnitHeader} {p : PageSize}
    (hok : HeaderOk info h p) : h.storageUnitSize = h.pageNum + dataOffset / p.bytes := by
  have hsub := hok.size_sub
  have hlt := h.storageUnitSize_lt
  have hle : h.pageNum ≤ 134217728 := hok.pageNum_le
  have hoff : dataOffset / p.bytes < 65536 := by cases p <;> decide
  rw [u32] at hsub
  omega

theorem HeaderOk.size_mul_bytes {info : StorageInfo} {h : StorageUnitHeader} {p : PageSize}
    (hok : HeaderOk info h p) :
    h.storageUnitSize * p.bytes = h.pageNum * p.bytes + dataOffset := by
  rw [hok.storageUnitSize_eq, add_mul, p.dataOffset_div_mul]

theorem validateHeader_ok_iff (info : StorageInfo) (h : StorageUnitHeader) (p : PageSize)
    (info' : StorageInfo) :
    validateHeader info h = .ok (p, info') ↔
      HeaderOk info h p ∧ info' =
        { info with
          pageSize := h.pageSize, sequence := h.sequence, csUniqueID := h.csUniqueID } := by
  rw [validateHeader, ite_error_eq_ok, ite_error_eq_ok]
  cases hp : checkPageSize h.pageSize with
  | error rc =>
    simp only [reduceCtorEq, and_false, false_iff, not_and]
    intro hok
    rw [hok.pageSize_eq, checkPageSize_bytes] at hp
    simp at hp
  | ok q =>
    have hq := checkPageSize_ok hp
    obtain ⟨hsq, hseg⟩ := ossIsPowerOf2_bytes q
    have hmod : dataOffset % q.bytes = 0 := by cases q <;> decide
    simp only [hq, hsq, hseg, hmod, ite_error_eq_ok, Except.ok.injEq, Prod.mk.injEq]
    constructor
    · rintro ⟨he, hv, -, hn, hs, hname, rfl, rfl⟩
      exact ⟨⟨by simpa using he, by omega, hq, by omega, not_not.mp hs, by simpa using hname⟩, rfl⟩
    rintro ⟨hok, rfl⟩
    have hpq : q.bytes = p.bytes := by rw [← hq, hok.pageSize_eq]
    obtain rfl : q = p := by
      have := checkPageSize_bytes q
      rw [hpq, checkPageSize_bytes] at this
      simpa using this.symm
    exact ⟨by simpa using hok.eyeCatcher, not_lt.mpr hok.version, by simp,
      not_lt.mpr hok.pageNum_le, not_not.mpr hok.size_sub, by simpa using hok.name, rfl, rfl⟩

end Novachains.Dms
