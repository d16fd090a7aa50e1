import Novachains.Dms.BlockData
import Novachains.Dms.SMEMgr.Init
import Novachains.Oss.File

/-!
# Opening a storage unit

`openStorage` maps the metadata, checks the header, loads the space manager and the
collections, brings the file to the size the header gives and maps the data segments.
-/

namespace Novachains.Dms

open Lib Oss List

structure Image where
  fileSize : ℕ
  header : StorageUnitHeader
  sme : SME
  mme : ℕ → MB
  data : Mem

/-- The codes the system calls of `openStorage` return, in the order of the calls. -/
structure OpenOs where
  buildPath : Rc
  openFile : Rc
  size : Rc
  initUnit : Rc
  sizeNew : Rc
  mapHeader : MapOs
  mapSME : MapOs
  smeAlloc : ℕ → Bool
  mapMME : MapOs
  cut : Rc
  sizeCut : Rc
  fit : Rc
  extend : ExtendOs
  sizeFit : Rc
  mapData : ℕ → MapOs
  dirtyAlloc : Bool
  msync : Msync

def OpenOs.allOk (msync : Msync) : OpenOs where
  buildPath := .ok
  openFile := .ok
  size := .ok
  initUnit := .ok
  sizeNew := .ok
  mapHeader := .allOk
  mapSME := .allOk
  smeAlloc := fun _ => true
  mapMME := .allOk
  cut := .ok
  sizeCut := .ok
  fit := .ok
  extend := .allOk
  sizeFit := .ok
  mapData := fun _ => .allOk
  dirtyAlloc := true
  msync := msync

def initHeader (info : StorageInfo) : StorageUnitHeader where
  eyeCatcher := datasuEyecatcher
  version := curVersion
  pageSize := info.pageSize
  storageUnitSize := dataOffset / info.pageSize
  name := info.suName.take 127
  sequence := info.sequence
  numMB := 0
  mbhwm := 0
  pageNum := 0
  csUniqueID := info.csUniqueID
  storageUnitSize_lt := lt_of_le_of_lt (Nat.div_le_self _ _) (by decide)

/-- `_initializeStorageUnit`: what it writes. -/
def initializeStorageUnit (info : StorageInfo) (img : Image) : Image where
  fileSize := dataOffset
  header := initHeader info
  sme := SME.empty
  mme := fun _ => MB.free
  data := img.data

def isValidCLUniqueID (id : ℕ) : Bool := id ≠ 0 ∧ id ≠ 2 ^ 64 - 1 ∧ id ≠ 0xFFFFFFFEFFFFFFFE

namespace BlockData

def collectionInsert (bd : BlockData) (name : CStr) (mbID clUniqueID : ℕ) : BlockData :=
  { bd with
    collectionNameMap := fun n => if n = name then some mbID else bd.collectionNameMap n
    collectionIDMap := fun id =>
      if isValidCLUniqueID clUniqueID ∧ id = clUniqueID then some mbID else bd.collectionIDMap id }

/-- The loop body of `_onMapMeta`. -/
def loadCollection (bd : BlockData) (i : ℕ) : BlockData :=
  let mb := bd.mme i
  if mb.inUse then
    { bd.collectionInsert mb.collectionName i mb.clUniqueID with
      mbStatInfo := fun j =>
        if j = i then { bd.mbStatInfo i with totals := mb.totals, startLID := mb.logicalID }
        else bd.mbStatInfo j }
  else bd

/-- The loop of `_onMapMeta`. -/
def loadCollections (bd : BlockData) : BlockData := (List.range mmeSlots).foldl loadCollection bd

end BlockData

/-- `map`, stopping at an error. -/
def mapOrFail (f : MmapFile) (offset length : ℕ) (os : MapOs) : Except Rc MmapFile :=
  match f.map offset length os with
  | (.ok, f) => .ok f
  | (rc, _) => .error rc

def cutToSegments (fileSize : ℕ) (os : OpenOs) : Except Rc ℕ :=
  if (fileSize - dataOffset) % segmentSz ≠ 0 then do
    let rightSize := (fileSize - dataOffset) / segmentSz * segmentSz + dataOffset
    check os.cut
    check os.sizeCut
    return rightSize
  else return fileSize

/-- A file that is longer or shorter than the header says is cut or extended. -/
def fitToHeader (fileSize rightSize : ℕ) (os : OpenOs) : Except Rc ℕ :=
  if fileSize > rightSize then do
    check os.fit
    check os.sizeFit
    return rightSize
  else if fileSize < rightSize then do
    let (rc, sizes) := ossExtendFile fileSize (rightSize - fileSize) os.extend
    check rc
    check os.sizeFit
    return sizes.getLastD fileSize
  else return fileSize

/-- The loop that maps the data segments.  Each turn moves on by a segment, which bounds
the number of turns. -/
def mapDataSegments (os : ℕ → MapOs) : ℕ → ℕ → MmapFile → Except Rc MmapFile
  | 0, _, f => .ok f
  | fuel + 1, currentOffset, f =>
    if currentOffset < f.fileSize then do
      let f ← mapOrFail f currentOffset segmentSz (os f.segmentSize)
      mapDataSegments os fuel (currentOffset + segmentSz) f
    else .ok f

def fillIfEmpty (info : StorageInfo) (img : Image) (createNew : Bool) (os : OpenOs) :
    Except Rc Image :=
  if img.fileSize = 0 then do
    failIf (createNew = false) .dmsInvalidSU
    check os.initUnit
    check os.sizeNew
    return initializeStorageUnit info img
  else return img

/-- `openStorage`.  The collections are loaded when the metadata is mapped; nothing that
follows there reads them. -/
def openStorage (info : StorageInfo) (img : Image) (createNew : Bool) (os : OpenOs) :
    Except Rc BlockData := do
  failIf (os.buildPath ≠ .ok) .invalidArg
  check os.openFile
  check os.size
  let img ← fillIfEmpty info img createNew os
  failIf (img.fileSize < dataOffset) .dmsInvalidSU
  let file ← mapOrFail ⟨img.fileSize, []⟩ 0 headerSz os.mapHeader
  let (pageSize, info) ← validateHeader info img.header
  let file ← mapOrFail file smeOffset smeSz os.mapSME
  let smeMgr ← SMEMgr.init pageSize.layout img.sme img.header.pageNum os.smeAlloc
  let mmeSegID := file.segmentSize
  let file ← mapOrFail file mmeOffset mmeSz os.mapMME
  let fileSize ← cutToSegments img.fileSize os
  let fileSize ← fitToHeader fileSize (img.header.storageUnitSize * pageSize.bytes) os
  let dataSegID := file.segmentSize
  let file ← mapDataSegments os.mapData (fileSize / segmentSz + 1) dataOffset
    { file with fileSize := fileSize }
  let dirtyList ← DirtyList.init pageSize.maxSegmentNum os.dirtyAlloc
  let bd : BlockData :=
    { info := info, file := file, msync := os.msync, header := img.header, smeMgr := smeMgr,
      mme := img.mme, mbStatInfo := fun _ => {}, collectionNameMap := fun _ => none,
      collectionIDMap := fun _ => none, data := img.data, pageSize := pageSize,
      pageNum := img.header.pageNum, mmeSegID := mmeSegID, dataSegID := dataSegID,
      maxSegID := file.segmentSize - 1,
      dirtyList := dirtyList.setSize (file.segmentSize - dataSegID) }
  return bd.loadCollections

/-- The `k`-th data segment as it is mapped. -/
def dataSegment (k : ℕ) : MmapSegment := ⟨segmentSz, dataOffset + k * segmentSz⟩

theorem BlockData.foldl_loadCollection (l : List ℕ) (bd : BlockData) :
    ∃ names ids stats, l.foldl loadCollection bd =
      { bd with collectionNameMap := names, collectionIDMap := ids, mbStatInfo := stats } := by
  induction l generalizing bd with
  | nil => exact ⟨_, _, _, rfl⟩
  | cons i l ih =>
    obtain ⟨names, ids, stats, h⟩ := ih (bd.loadCollection i)
    refine ⟨names, ids, stats, ?_⟩
    rw [foldl_cons, h, loadCollection]
    split <;> rfl

variable {offset : ℕ}

theorem mapOrFail_ok {f f' : MmapFile} {length : ℕ} {os : MapOs}
    (h : mapOrFail f offset length os = .ok f') (h0 : length ≠ 0)
    (hle : offset + length ≤ f.fileSize) :
    f' = { f with segs := f.segs ++ [⟨length, offset⟩] } := by
  rw [mapOrFail] at h
  rcases f.map_spec os h0 hle with heq | ⟨rc, hrc, heq⟩
  · rw [heq] at h
    simpa using h.symm
  · rw [heq] at h
    cases rc <;> simp at h hrc

theorem mapOrFail_allOk (f : MmapFile) {length : ℕ} (h0 : length ≠ 0) (hlt : offset < f.fileSize) :
    ∃ f', mapOrFail f offset length .allOk = .ok f' ∧ f'.fileSize = f.fileSize := by
  have hin : ¬ f.fileSize ≤ offset := by omega
  simp [mapOrFail, MmapFile.map, h0, hin, MapOs.allOk]

theorem cutToSegments_allOk (fileSize : ℕ) (m : Msync) :
    ∃ n, cutToSegments fileSize (.allOk m) = .ok n := by
  rw [cutToSegments]
  split_ifs <;> exact ⟨_, rfl⟩

variable {os : OpenOs}

theorem fitToHeader_ok {fileSize rightSize n : ℕ} (h : fitToHeader fileSize rightSize os = .ok n) :
    n = rightSize := by
  rw [fitToHeader] at h
  split_ifs at h with hgt hlt
  · simp only [bind_eq_ok] at h
    obtain ⟨_, -, _, -, h⟩ := h
    exact (Except.ok.inj h).symm
  · simp only [bind_eq_ok] at h
    obtain ⟨_, hrc, _, -, h⟩ := h
    have hg := ossExtendFile_spec fileSize (rightSize - fileSize) os.extend
    have hlast := hg.last_of_ok (check_eq_ok.mp hrc)
    have hn := Except.ok.inj h
    omega
  · have hn := Except.ok.inj h
    omega

theorem fitToHeader_allOk (fileSize rightSize : ℕ) (m : Msync) :
    fitToHeader fileSize rightSize (.allOk m) = .ok rightSize := by
  have h : ∃ n, fitToHeader fileSize rightSize (.allOk m) = .ok n := by
    rw [fitToHeader]
    split_ifs
    · exact ⟨_, rfl⟩
    · have hrc := ossExtendFile_allOk fileSize (rightSize - fileSize)
      simp only [bind_eq_ok]
      exact ⟨_, (), check_eq_ok.mpr hrc, (), rfl, rfl⟩
    · exact ⟨_, rfl⟩
  obtain ⟨n, hn⟩ := h
  rw [hn, fitToHeader_ok hn]

theorem mapDataSegments_ok {os : ℕ → MapOs} {fuel k : ℕ} {f f' : MmapFile}
    (h : mapDataSegments os fuel offset f = .ok f') (hk : k ≤ fuel)
    (hsize : f.fileSize = offset + k * segmentSz) : f' = { f with
      segs := f.segs ++ (List.range k).map fun j => ⟨segmentSz, offset + j * segmentSz⟩ } := by
  have hpos : 0 < segmentSz := by decide
  induction k generalizing fuel offset f with
  | zero =>
    have hf : f' = f := by
      cases fuel with
      | zero => simpa [mapDataSegments] using h.symm
      | succ fuel =>
        rw [mapDataSegments, if_neg (by omega)] at h
        simpa using h.symm
    simp [hf]
  | succ k ih =>
    obtain ⟨fuel, rfl⟩ : ∃ n, fuel = n + 1 := ⟨fuel - 1, by omega⟩
    rw [Nat.succ_mul] at hsize
    rw [mapDataSegments, if_pos (by omega), bind_eq_ok] at h
    obtain ⟨f₁, hmap, hrest⟩ := h
    obtain rfl := mapOrFail_ok hmap (by decide) (by omega)
    rw [ih hrest (by omega) (by simp only; omega), range_succ_eq_map]
    simp only [append_assoc, singleton_append, map_cons, List.map_map,
      zero_mul, add_zero, MmapFile.mk.injEq, true_and]
    congr 3
    funext j
    simp only [Function.comp_apply, Nat.succ_mul, MmapSegment.mk.injEq, true_and]
    omega

theorem mapDataSegments_allOk (fuel offset : ℕ) (f : MmapFile) :
    ∃ f', mapDataSegments (fun _ => .allOk) fuel offset f = .ok f' := by
  induction fuel generalizing offset f with
  | zero => exact ⟨f, rfl⟩
  | succ fuel ih =>
    rw [mapDataSegments]
    split_ifs with hlt
    · obtain ⟨f₁, hmap, -⟩ := mapOrFail_allOk f (by decide : segmentSz ≠ 0) hlt
      obtain ⟨f', h⟩ := ih (offset + segmentSz) f₁
      exact ⟨f', by rw [bind_eq_ok]; exact ⟨f₁, hmap, h⟩⟩
    · exact ⟨f, rfl⟩

variable {img : Image}

theorem fillIfEmpty_of_le (info : StorageInfo) (createNew : Bool) (os : OpenOs)
    (hsize : dataOffset ≤ img.fileSize) : fillIfEmpty info img createNew os = .ok img := by
  have h0 : ¬ img.fileSize = 0 := by
    have : 0 < dataOffset := by decide
    omega
  rw [fillIfEmpty, if_neg h0]
  rfl

def metaSegments : List MmapSegment :=
  [⟨headerSz, 0⟩, ⟨smeSz, smeOffset⟩, ⟨mmeSz, mmeOffset⟩]

variable {info : StorageInfo}

theorem openStorage_loaded {createNew : Bool} {bd : BlockData}
    (h : openStorage info img createNew os = .ok bd) (hsize : dataOffset ≤ img.fileSize) :
    ∃ p info' mgr file,
      validateHeader info img.header = .ok (p, info') ∧
      SMEMgr.init p.layout img.sme img.header.pageNum os.smeAlloc = .ok mgr ∧
      (let right := img.header.storageUnitSize * p.bytes
       mapDataSegments os.mapData (right / segmentSz + 1) dataOffset ⟨right, metaSegments⟩ =
        .ok file) ∧
      ∃ dirty, bd = BlockData.loadCollections
        { info := info', file := file, msync := os.msync, header := img.header, smeMgr := mgr,
          mme := img.mme, mbStatInfo := fun _ => {}, collectionNameMap := fun _ => none,
          collectionIDMap := fun _ => none, data := img.data, pageSize := p,
          pageNum := img.header.pageNum, mmeSegID := 2, dataSegID := 3,
          maxSegID := file.segmentSize - 1, dirtyList := dirty } := by
  have hoff : mmeOffset + mmeSz = dataOffset := rfl
  have hmme : smeOffset + smeSz = mmeOffset := rfl
  have hsme : headerSz = smeOffset := rfl
  simp only [openStorage, bind_eq_ok, fillIfEmpty_of_le _ _ _ hsize] at h
  obtain ⟨_, -, _, -, _, -, img', himg, _, -, f₁, h₁, ⟨p, info'⟩, hv, f₂, h₂, mgr, hm, f₃, h₃,
    n, hcut, n', hfit, f₄, h₄, dl, -, hbd⟩ := h
  obtain rfl : img = img' := Except.ok.inj himg
  obtain rfl := mapOrFail_ok h₁ (by decide) (by simp only; omega)
  obtain rfl := mapOrFail_ok h₂ (by decide) (by simp only; omega)
  obtain rfl := mapOrFail_ok h₃ (by decide) (by simp only; omega)
  obtain rfl := fitToHeader_ok hfit
  exact ⟨p, info', mgr, f₄, hv, hm, h₄, _, (Except.ok.inj hbd).symm⟩

theorem openStorage_allOk {info' : StorageInfo} (img : Image) {p : PageSize} (m : Msync)
    (hsize : dataOffset ≤ img.fileSize) (hv : validateHeader info img.header = .ok (p, info')) :
    ∃ bd, openStorage info img false (.allOk m) = .ok bd ∧ bd.pageSize = p ∧
      bd.smeMgr.sme = img.sme := by
  have hlt : ¬ img.fileSize < dataOffset := by omega
  have hoff : mmeOffset + mmeSz = dataOffset := rfl
  have hmme : smeOffset + smeSz = mmeOffset := rfl
  have hsme : headerSz = smeOffset := rfl
  have hpos : 0 < mmeSz := by decide
  obtain ⟨f₁, h₁, hs₁⟩ := mapOrFail_allOk ⟨img.fileSize, []⟩ (by decide : headerSz ≠ 0)
    (by omega : 0 < img.fileSize)
  obtain ⟨f₂, h₂, hs₂⟩ := mapOrFail_allOk f₁ (by decide : smeSz ≠ 0)
    (by rw [hs₁]; simp only; omega : smeOffset < f₁.fileSize)
  obtain ⟨f₃, h₃, hs₃⟩ := mapOrFail_allOk f₂ (by decide : mmeSz ≠ 0)
    (by rw [hs₂, hs₁]; simp only; omega : mmeOffset < f₂.fileSize)
  obtain ⟨hok, -⟩ := (validateHeader_ok_iff _ _ _ _).mp hv
  obtain ⟨mgr, hm, hmsme⟩ := SMEMgr.init_of_alloc p.layout img.sme hok.pageNum_le
  obtain ⟨n, hcut⟩ := cutToSegments_allOk img.fileSize m
  have hfit := fitToHeader_allOk n (img.header.storageUnitSize * p.bytes) m
  obtain ⟨f₄, h₄⟩ := mapDataSegments_allOk
    (img.header.storageUnitSize * p.bytes / segmentSz + 1) dataOffset
    { f₃ with fileSize := img.header.storageUnitSize * p.bytes }
  simp only [openStorage, bind_eq_ok, fillIfEmpty_of_le _ _ _ hsize]
  refine ⟨_, ⟨(), rfl, (), rfl, (), rfl, img, rfl, (), failIf_eq_ok.mpr hlt, f₁, h₁, (p, info'), hv,
    f₂, h₂, mgr, hm, f₃, h₃, n, hcut, _, hfit, f₄, h₄, _, rfl, rfl⟩, ?_⟩
  obtain ⟨names, ids, stats, hl⟩ := BlockData.foldl_loadCollection (List.range mmeSlots) _
  rw [BlockData.loadCollections, hl]
  exact ⟨rfl, hmsme⟩

end Novachains.Dms
