import Novachains.Dms.Open

/-!
# Extending a storage unit

`_extendSegments` lengthens the file, maps the new segments, raises the two figures of
the header and hands the segments to the space manager.  Each of these is an effect of
its own, so that a run can be cut short after any of them.
-/

namespace Novachains.Dms

open Lib Oss List

inductive Effect
  | resize (fileSize : ℕ)
  | disableSparse
  | mapSegment (file : MmapFile)
  | raiseStorageUnitSize
  | lowerStorageUnitSize
  | deposit (mgr : SMEMgr)
  | raisePageNum

def StorageUnitHeader.addUnitSize (h : StorageUnitHeader) (n : ℕ) : StorageUnitHeader :=
  { h with
    storageUnitSize := u32 (h.storageUnitSize + n)
    storageUnitSize_lt := Nat.mod_lt _ (by decide) }

def StorageUnitHeader.addPageNum (h : StorageUnitHeader) (n : ℕ) : StorageUnitHeader :=
  { h with pageNum := u32 (h.pageNum + n) }

variable (bd : BlockData)

namespace BlockData

def perform : Effect → BlockData
  | .resize n => { bd with file := { bd.file with fileSize := n } }
  | .disableSparse => { bd with info := { bd.info with enableSparse := false } }
  | .mapSegment file =>
    { bd with
      file := file
      maxSegID := bd.maxSegID + 1
      dirtyList := bd.dirtyList.setSize (file.segmentSize - bd.dataSegID) }
  | .raiseStorageUnitSize =>
    { bd with header := bd.header.addUnitSize bd.pageSize.segmentPages }
  | .lowerStorageUnitSize =>
    { bd with header := bd.header.addUnitSize (2 ^ 32 - bd.pageSize.segmentPages) }
  | .deposit mgr => { bd with smeMgr := mgr }
  | .raisePageNum =>
    let header := bd.header.addPageNum bd.pageSize.segmentPages
    { bd with header := header, pageNum := header.pageNum }

def performAll (es : List Effect) : BlockData := es.foldl perform bd

end BlockData

/-- What a call did, and the code it returned; `none` when the process has panicked. -/
structure Ran where
  effects : List Effect
  rc : Option Rc

/-- The outcomes of the calls of `_extendSegments`, for both attempts and each new segment. -/
structure GrowOs where
  getFileSize : Rc
  truncate : Rc
  extend₁ : ExtendOs
  revert₁ : Rc
  extend₂ : ExtendOs
  revert₂ : Rc
  map : ℕ → MapOs
  alloc : ℕ → Bool

def GrowOs.allOk : GrowOs where
  getFileSize := .ok
  truncate := .ok
  extend₁ := .allOk
  revert₁ := .ok
  extend₂ := .allOk
  revert₂ := .ok
  map := fun _ => .allOk
  alloc := fun _ => true

def tryExtend (sparse : Bool) (fileSize increment : ℕ) (os : ExtendOs) (revert : Rc) : Ran :=
  let (rc, sizes) :=
    if sparse then ossExtentBySparse fileSize increment 512 os
    else ossExtendFile fileSize increment os
  let grown := sizes.map Effect.resize
  if rc = .ok then ⟨grown, some .ok⟩
  else if revert ≠ .ok then ⟨grown, none⟩
  else ⟨grown ++ [.resize fileSize], some rc⟩

/-- The part of `_extendSegments` from `retry` on that lengthens the file. -/
def growFile (sparse : Bool) (fileSize increment : ℕ) (os : GrowOs) : Ran :=
  let first := tryExtend sparse fileSize increment os.extend₁ os.revert₁
  if first.rc = some .invalidArg ∧ sparse then
    let second := tryExtend false fileSize increment os.extend₂ os.revert₂
    ⟨first.effects ++ .disableSparse :: second.effects, second.rc⟩
  else first

/-- The loop over the new segments, from the `i`-th on. -/
def mapNewSegments (os : GrowOs) : ℕ → ℕ → BlockData → ℕ → ℕ → Ran
  | 0, _, _, _, _ => ⟨[], some .ok⟩
  | numSeg + 1, i, bd, beginExtentID, fileSize =>
    match bd.file.map fileSize segmentSz (os.map i) with
    | (.ok, file) =>
      match bd.smeMgr.depositASegment bd.pageSize.layout beginExtentID (os.alloc i) with
      | (.ok, mgr) =>
        let es := [.mapSegment file, .raiseStorageUnitSize, .deposit mgr, .raisePageNum]
        let rest := mapNewSegments os numSeg (i + 1) (bd.performAll es)
          (beginExtentID + bd.pageSize.segmentPages) (fileSize + segmentSz)
        ⟨es ++ rest.effects, rest.rc⟩
      | (_, mgr) =>
        ⟨[.mapSegment file, .raiseStorageUnitSize, .deposit mgr, .lowerStorageUnitSize], none⟩
    | (rc, _) => ⟨[], some rc⟩

/-- The size of the file before it is made longer: what the header says, if that is less
than it has. -/
def BlockData.baseSize : ℕ :=
  min bd.file.fileSize (bd.header.storageUnitSize * bd.pageSize.bytes)

def BlockData.cutFile : List Effect :=
  if bd.file.fileSize > bd.header.storageUnitSize * bd.pageSize.bytes then [.resize bd.baseSize]
  else []

/-- `_extendSegments`. -/
def extendSegments (numSeg : ℕ) (os : GrowOs) : Ran :=
  let beginExtentID := bd.header.pageNum
  let endExtentID := u32 (beginExtentID + u32 (bd.pageSize.segmentPages * numSeg))
  if endExtentID > maxPg then ⟨[], some .dmsNoSpc⟩
  else if (List.range (endExtentID - beginExtentID)).any
      fun i => bd.smeMgr.sme.getBitMask (beginExtentID + i) then ⟨[], some .dmsCorruptedSME⟩
  else if os.getFileSize ≠ .ok then ⟨[], some os.getFileSize⟩
  else
    let rightSize := bd.header.storageUnitSize * bd.pageSize.bytes
    if bd.file.fileSize > rightSize ∧ os.truncate ≠ .ok then ⟨[], some os.truncate⟩
    else
      let grown := growFile bd.info.enableSparse bd.baseSize (segmentSz * numSeg) os
      let es := bd.cutFile ++ grown.effects
      if grown.rc ≠ some .ok then ⟨es, grown.rc⟩
      else
        let rest := mapNewSegments os numSeg 0 (bd.performAll es) beginExtentID bd.baseSize
        ⟨es ++ rest.effects, rest.rc⟩

section Header
variable {info : StorageInfo} {h : StorageUnitHeader} {p : PageSize}

theorem HeaderOk.raise (hok : HeaderOk info h p) (hle : h.pageNum + p.segmentPages ≤ maxPg) :
    HeaderOk info ((h.addUnitSize p.segmentPages).addPageNum p.segmentPages) p := by
  have hmax : maxPg = 134217728 := rfl
  have hsu := hok.storageUnitSize_eq
  have hoff : dataOffset / p.bytes < 65536 := by cases p <;> decide
  have hpn : u32 (h.pageNum + p.segmentPages) = h.pageNum + p.segmentPages :=
    u32_of_lt (by omega)
  have hsz : u32 (h.storageUnitSize + p.segmentPages) = h.storageUnitSize + p.segmentPages :=
    u32_of_lt (by omega)
  refine ⟨hok.eyeCatcher, hok.version, hok.pageSize_eq, ?_, ?_, hok.name⟩
  · change u32 (h.pageNum + p.segmentPages) ≤ maxPg
    rw [hpn]
    exact hle
  change u32 (u32 (h.storageUnitSize + p.segmentPages) + 2 ^ 32 -
    u32 (h.pageNum + p.segmentPages)) = dataOffset / p.bytes
  rw [hpn, hsz, ← hok.size_sub]
  congr 1
  omega

theorem HeaderOk.not_addUnitSize (hok : HeaderOk info h p) (q : PageSize) :
    ¬ HeaderOk info (h.addUnitSize p.segmentPages) q := by
  intro hbad
  have hpq : q.bytes = p.bytes := hbad.pageSize_eq.symm.trans hok.pageSize_eq
  have hbad' : u32 (h.storageUnitSize + p.segmentPages) = h.pageNum + dataOffset / q.bytes :=
    hbad.storageUnitSize_eq
  have hsu := hok.storageUnitSize_eq
  have hmax : maxPg = 134217728 := rfl
  have hle := hok.pageNum_le
  have hoff : dataOffset / p.bytes < 65536 := by cases p <;> decide
  have hpos := p.segmentPages_pos
  have hsp : p.segmentPages ≤ 32768 := by cases p <;> decide
  rw [u32_of_lt (by omega), hpq] at hbad'
  omega

theorem StorageUnitHeader.addUnitSize_restore (h : StorageUnitHeader) (p : PageSize) :
    (h.addUnitSize p.segmentPages).addUnitSize (2 ^ 32 - p.segmentPages) = h := by
  have hlt := h.storageUnitSize_lt
  have hsp : p.segmentPages ≤ 32768 := by cases p <;> decide
  have heq : u32 (u32 (h.storageUnitSize + p.segmentPages) + (2 ^ 32 - p.segmentPages)) =
      h.storageUnitSize := by
    rw [u32, u32]
    omega
  simp only [addUnitSize, heq]

end Header

/-! ## What a call does -/

/-- Effects that touch only the file and its sparse mode, and keep the file between
`size` bytes and one segment more. -/
def Effect.FileOnly (size : ℕ) : Effect → Prop
  | .resize n => size ≤ n ∧ n ≤ size + segmentSz
  | .disableSparse => True
  | _ => False

namespace BlockData

@[simp] theorem performAll_cons (e : Effect) (es : List Effect) :
    bd.performAll (e :: es) = (bd.perform e).performAll es := rfl

theorem performAll_append (es es' : List Effect) :
    bd.performAll (es ++ es') = (bd.performAll es).performAll es' := foldl_append

theorem performAll_fileOnly {size : ℕ} {es : List Effect}
    (h : ∀ e ∈ es, e.FileOnly size) (hbd : size ≤ bd.file.fileSize) :
    ∃ sparse n, size ≤ n ∧ bd.performAll es =
      { bd with
        info := { bd.info with enableSparse := sparse }
        file := { bd.file with fileSize := n } } := by
  induction es generalizing bd with
  | nil => exact ⟨bd.info.enableSparse, bd.file.fileSize, hbd, rfl⟩
  | cons e es ih =>
    have he := h e mem_cons_self
    have hes : ∀ e ∈ es, e.FileOnly size := fun x hx => h x (mem_cons_of_mem _ hx)
    rw [performAll_cons]
    cases e with
    | resize n => exact ih (bd.perform (.resize n)) hes he.1
    | disableSparse => exact ih (bd.perform .disableSparse) hes hbd
    | _ => exact absurd he id

theorem performAll_resize (sizes : List ℕ) :
    (bd.performAll (sizes.map .resize)).file.fileSize = sizes.getLastD bd.file.fileSize := by
  induction sizes generalizing bd with
  | nil => rfl
  | cons n sizes ih =>
    rw [map_cons, performAll_cons, ih, getLastD_cons]
    rfl

end BlockData

structure Grew (size : ℕ) (r : Ran) : Prop where
  fileOnly : ∀ e ∈ r.effects, e.FileOnly size
  ok : r.rc = some .ok → ∀ bd : BlockData, bd.file.fileSize = size →
    (bd.performAll r.effects).file.fileSize = size + segmentSz
  failed : ∀ rc, rc ≠ .ok → r.rc = some rc → ∀ bd : BlockData,
    (bd.performAll r.effects).file.fileSize = size

theorem tryExtend_spec (sparse : Bool) (size : ℕ) (os : ExtendOs) (revert : Rc) :
    Grew size (tryExtend sparse size segmentSz os revert) := by
  have hg : ∃ rc sizes, (if sparse then ossExtentBySparse size segmentSz 512 os
      else ossExtendFile size segmentSz os) = (rc, sizes) ∧ Grows size segmentSz rc sizes := by
    cases sparse with
    | true => exact ⟨_, _, rfl, ossExtentBySparse_spec size segmentSz (by decide) (by decide) os⟩
    | false => exact ⟨_, _, rfl, ossExtendFile_spec size segmentSz os⟩
  obtain ⟨rc, sizes, heq, hg⟩ := hg
  have hmap : ∀ e ∈ sizes.map Effect.resize, e.FileOnly size := by
    intro e he
    obtain ⟨n, hn, rfl⟩ := List.mem_map.mp he
    exact hg.bounds n hn
  simp only [tryExtend, heq]
  split_ifs with hrc hrev
  · refine ⟨hmap, fun _ bd hbd => ?_, fun rc' hne h => absurd (Option.some.inj h).symm hne⟩
    rw [BlockData.performAll_resize, hbd, hg.last_of_ok hrc]
  · exact ⟨hmap, fun h => (by cases h), fun _ _ h => (by cases h)⟩
  refine ⟨?_, fun h => absurd (Option.some.inj h) hrc, fun _ _ _ bd => ?_⟩
  · intro e he
    rcases mem_append.mp he with he | he
    · exact hmap e he
    · rw [mem_singleton.mp he]
      exact ⟨le_rfl, Nat.le_add_right _ _⟩
  · rw [BlockData.performAll_append]
    rfl

theorem growFile_spec (sparse : Bool) (size : ℕ) (os : GrowOs) :
    Grew size (growFile sparse size segmentSz os) := by
  have h₁ := tryExtend_spec sparse size os.extend₁ os.revert₁
  have h₂ := tryExtend_spec false size os.extend₂ os.revert₂
  simp only [growFile]
  split_ifs with hretry
  · refine ⟨?_, ?_, ?_⟩
    · intro e he
      rcases mem_append.mp he with he | he
      · exact h₁.fileOnly e he
      · rcases mem_cons.mp he with rfl | he
        · trivial
        · exact h₂.fileOnly e he
    · intro hok bd _
      rw [BlockData.performAll_append, BlockData.performAll_cons]
      exact h₂.ok hok _ (h₁.failed _ (by decide) hretry.1 bd)
    · intro rc hne hrc bd
      rw [BlockData.performAll_append, BlockData.performAll_cons]
      exact h₂.failed rc hne hrc _
  · exact h₁

theorem BlockData.cutFile_fileOnly :
    ∀ e ∈ bd.cutFile, e.FileOnly bd.baseSize := by
  intro e he
  rw [cutFile] at he
  split_ifs at he
  · rw [mem_singleton.mp he]
    exact ⟨le_rfl, Nat.le_add_right _ _⟩
  · simp at he

theorem BlockData.fileSize_cutFile :
    (bd.performAll bd.cutFile).file.fileSize = bd.baseSize := by
  rw [cutFile]
  split_ifs with h
  · rfl
  · change bd.file.fileSize = min _ _
    omega

def BlockData.extendedFile : MmapFile :=
  ⟨bd.baseSize + segmentSz, bd.file.segs ++ [⟨segmentSz, bd.baseSize⟩]⟩

theorem mapNewSegments_one (os : GrowOs) (bd : BlockData) (begin offset : ℕ)
    (hsize : bd.file.fileSize = offset + segmentSz) :
    (∃ rc, rc ≠ .ok ∧ mapNewSegments os 1 0 bd begin offset = ⟨[], some rc⟩) ∨
    ∃ rc mgr, bd.smeMgr.depositASegment bd.pageSize.layout begin (os.alloc 0) = (rc, mgr) ∧
      mapNewSegments os 1 0 bd begin offset =
        (let file : MmapFile := ⟨offset + segmentSz, bd.file.segs ++ [⟨segmentSz, offset⟩]⟩
         if rc = .ok then
          ⟨[.mapSegment file, .raiseStorageUnitSize, .deposit mgr, .raisePageNum], some .ok⟩
         else
          ⟨[.mapSegment file, .raiseStorageUnitSize, .deposit mgr, .lowerStorageUnitSize],
            none⟩) := by
  rcases bd.file.map_spec (os.map 0) (by decide : segmentSz ≠ 0) hsize.ge with heq | ⟨rc, hrc, heq⟩
  · right
    cases hd : bd.smeMgr.depositASegment bd.pageSize.layout begin (os.alloc 0) with
    | mk rc mgr =>
      refine ⟨rc, mgr, rfl, ?_⟩
      rw [mapNewSegments, heq, hsize]
      simp only [hd]
      cases rc <;> simp [mapNewSegments]
  · left
    refine ⟨rc, hrc, ?_⟩
    rw [mapNewSegments, heq]
    cases rc <;> simp at hrc ⊢

theorem grown_spec (os : GrowOs) :
    (∀ e ∈ bd.cutFile ++ (growFile bd.info.enableSparse bd.baseSize segmentSz os).effects,
      e.FileOnly bd.baseSize) ∧
    ((growFile bd.info.enableSparse bd.baseSize segmentSz os).rc = some .ok →
      (bd.performAll (bd.cutFile ++
        (growFile bd.info.enableSparse bd.baseSize segmentSz os).effects)).file.fileSize =
        bd.baseSize + segmentSz) := by
  have hg := growFile_spec bd.info.enableSparse bd.baseSize os
  refine ⟨fun e he => ?_, fun hrc => ?_⟩
  · exact (mem_append.mp he).elim (bd.cutFile_fileOnly e) (hg.fileOnly e)
  · rw [BlockData.performAll_append]
    exact hg.ok hrc _ bd.fileSize_cutFile

theorem endExtent_eq (hpn : bd.header.pageNum ≤ maxPg) :
    u32 (bd.header.pageNum + u32 (bd.pageSize.segmentPages * 1)) =
      bd.header.pageNum + bd.pageSize.segmentPages := by
  have hsp := bd.pageSize.layout.segmentPages_le
  rw [PageSize.layout_segmentPages] at hsp
  have hmax : maxPg = 134217728 := rfl
  rw [mul_one, u32_of_lt (n := bd.pageSize.segmentPages) (by omega), u32_of_lt (by omega)]

/-- **What `_extendSegments(1)` does.**  First only the file changes.  Once the segment is mapped,
its pages exist and are free, and it is deposited or the process panics. -/
theorem extendSegments_spec (os : GrowOs) (hpn : bd.header.pageNum ≤ maxPg) :
    ∃ pre, (∀ e ∈ pre, e.FileOnly bd.baseSize) ∧
      (((extendSegments bd 1 os).effects = pre ∧ (extendSegments bd 1 os).rc ≠ some .ok) ∨
       (bd.header.pageNum + bd.pageSize.segmentPages ≤ maxPg ∧
        (∀ p, bd.header.pageNum ≤ p → p < bd.header.pageNum + bd.pageSize.segmentPages →
          bd.smeMgr.sme.Free p) ∧
        ∃ rc mgr, bd.smeMgr.depositASegment bd.pageSize.layout bd.header.pageNum (os.alloc 0) =
            (rc, mgr) ∧
          ((rc = .ok ∧ (extendSegments bd 1 os).rc = some .ok ∧
            (extendSegments bd 1 os).effects = pre ++
              [.mapSegment bd.extendedFile, .raiseStorageUnitSize, .deposit mgr, .raisePageNum]) ∨
           (rc ≠ .ok ∧ (extendSegments bd 1 os).rc = none ∧
            (extendSegments bd 1 os).effects = pre ++
              [.mapSegment bd.extendedFile, .raiseStorageUnitSize, .deposit mgr,
                .lowerStorageUnitSize])))) := by
  simp only [extendSegments, endExtent_eq bd hpn, Nat.add_sub_cancel_left, mul_one segmentSz]
  obtain ⟨hpre, hsize⟩ := grown_spec bd os
  split_ifs with h₁ h₂ h₃ h₄ h₅
  · exact ⟨[], by simp, Or.inl ⟨rfl, by simp⟩⟩
  · exact ⟨[], by simp, Or.inl ⟨rfl, by simp⟩⟩
  · exact ⟨[], by simp, Or.inl ⟨rfl, by simpa using h₃⟩⟩
  · exact ⟨[], by simp, Or.inl ⟨rfl, by simpa using h₄.2⟩⟩
  · exact ⟨_, hpre, Or.inl ⟨rfl, h₅⟩⟩
  refine ⟨_, hpre, ?_⟩
  obtain ⟨sparse, n, -, hbd⟩ := bd.performAll_fileOnly hpre (min_le_left _ _)
  rcases mapNewSegments_one os _ bd.header.pageNum bd.baseSize (hsize (not_not.mp h₅)) with
    ⟨rc, hrc, heq⟩ | ⟨rc, mgr, hd, heq⟩
  · rw [heq]
    exact Or.inl ⟨by simp, by simpa using hrc⟩
  rw [heq]
  rw [hbd] at hd ⊢
  refine Or.inr ⟨by omega, ?_, rc, mgr, hd, ?_⟩
  · intro p hlo hhi
    simp only [List.any_eq_true, mem_range, not_exists, not_and] at h₂
    have := h₂ (p - bd.header.pageNum) (by omega)
    rw [Nat.add_sub_cancel' hlo] at this
    simpa [SME.Free] using this
  · by_cases hrc : rc = .ok
    · exact Or.inl ⟨hrc, by simp [hrc], by simp [hrc, BlockData.extendedFile]⟩
    · exact Or.inr ⟨hrc, by simp [hrc], by simp [hrc, BlockData.extendedFile]⟩

theorem growFile_allOk (sparse : Bool) (size inc : ℕ) :
    (growFile sparse size inc .allOk).rc = some .ok := by
  have hn : ∀ s, (tryExtend s size inc .allOk .ok).rc = some .ok := by
    intro s
    have hrc : (if s then ossExtentBySparse size inc 512 .allOk
        else ossExtendFile size inc .allOk).1 = .ok := by
      cases s with
      | false => exact ossExtendFile_allOk size inc
      | true => exact ossExtentBySparse_allOk size inc 512
    simp only [tryExtend, hrc, if_true]
  have hfirst := hn sparse
  simp [growFile, GrowOs.allOk, hfirst]

theorem extendSegments_allOk {bd : BlockData}
    (hle : bd.header.pageNum + bd.pageSize.segmentPages ≤ maxPg)
    (hfree : ∀ p, bd.header.pageNum ≤ p → p < bd.header.pageNum + bd.pageSize.segmentPages →
      bd.smeMgr.sme.Free p)
    (hdep : (bd.smeMgr.depositASegment bd.pageSize.layout bd.header.pageNum true).1 = .ok) :
    (extendSegments bd 1 .allOk).rc = some .ok := by
  have hbits : ¬ ((List.range bd.pageSize.segmentPages).any fun i =>
      bd.smeMgr.sme.getBitMask (bd.header.pageNum + i)) = true := by
    simp only [List.any_eq_true, mem_range, not_exists, not_and]
    intro i hi
    have := hfree (bd.header.pageNum + i) (by omega) (by omega)
    simpa [SME.Free] using this
  have hgrc := growFile_allOk bd.info.enableSparse bd.baseSize segmentSz
  obtain ⟨hpre, hsize⟩ := grown_spec bd .allOk
  obtain ⟨sparse, n, -, hbd⟩ := bd.performAll_fileOnly hpre (min_le_left _ _)
  simp only [extendSegments, endExtent_eq bd (Nat.le_of_add_right_le hle), Nat.add_sub_cancel_left,
    mul_one segmentSz]
  rw [if_neg (Nat.not_lt.mpr hle), if_neg hbits, if_neg (by simp [GrowOs.allOk]),
    if_neg (by simp [GrowOs.allOk]), hgrc, if_neg (by simp)]
  generalize bd.performAll (bd.cutFile ++
    (growFile bd.info.enableSparse bd.baseSize segmentSz .allOk).effects) = bd₁ at hsize hbd ⊢
  have hmap := bd₁.file.map_allOk (by decide : segmentSz ≠ 0) (hsize hgrc).ge
  have hdep₁ : (bd₁.smeMgr.depositASegment bd₁.pageSize.layout bd.header.pageNum true).1 = .ok := by
    rw [hbd]
    exact hdep
  obtain ⟨mgr, hd⟩ : ∃ mgr, bd₁.smeMgr.depositASegment bd₁.pageSize.layout bd.header.pageNum true =
      (.ok, mgr) := ⟨_, Prod.ext hdep₁ rfl⟩
  simp [mapNewSegments, GrowOs.allOk, hmap, hd]

end Novachains.Dms
