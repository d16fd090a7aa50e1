import Novachains.Dms.Extend
import Novachains.Lib.Transition

/-!
# Header, mapping and space manager agree

Three parts of a storage unit count its data segments: the header in pages, the mapped
file in segments and the space manager in segment spaces.  Opening a unit makes them
agree, and extending it keeps them so whether or not the system calls succeed.
-/

namespace Novachains.Dms

open Lib Oss List

/-- The header is good, and header, mapping and space manager have `n` data segments. -/
structure BlockData.Agrees (bd : BlockData) (n : ℕ) : Prop where
  header : HeaderOk bd.info bd.header bd.pageSize
  pageNum_eq : bd.header.pageNum = n * bd.pageSize.segmentPages
  current : bd.pageNum = bd.header.pageNum
  size_le : bd.header.storageUnitSize * bd.pageSize.bytes ≤ bd.file.fileSize
  segmentSize_eq : bd.file.segmentSize = bd.dataSegID + n
  mapped : ∀ k < n, bd.file.segs[bd.dataSegID + k]? = some (dataSegment k)
  maxSegID_eq : bd.maxSegID + 1 = bd.dataSegID + n
  mgr : bd.smeMgr.Inv bd.pageSize.layout
  segmentNum_eq : bd.smeMgr.segmentNum = n

namespace BlockData.Agrees
variable {bd : BlockData} {n : ℕ}

theorem right_size (h : bd.Agrees n) :
    bd.header.storageUnitSize * bd.pageSize.bytes = dataOffset + n * segmentSz := by
  rw [h.header.size_mul_bytes, h.pageNum_eq, mul_assoc, bd.pageSize.segmentPages_mul_bytes,
    add_comm]

theorem baseSize_eq (h : bd.Agrees n) : bd.baseSize = dataOffset + n * segmentSz := by
  rw [BlockData.baseSize, min_eq_right h.size_le, h.right_size]

theorem setFile (h : bd.Agrees n) (sparse : Bool) {size : ℕ} (hsize : bd.baseSize ≤ size) :
    BlockData.Agrees
      { bd with
        info := { bd.info with enableSparse := sparse }
        file := { bd.file with fileSize := size } } n where
  header := ⟨h.header.eyeCatcher, h.header.version, h.header.pageSize_eq, h.header.pageNum_le,
    h.header.size_sub, h.header.name⟩
  pageNum_eq := h.pageNum_eq
  current := h.current
  size_le := by
    rwa [h.baseSize_eq, ← h.right_size] at hsize
  segmentSize_eq := h.segmentSize_eq
  mapped := h.mapped
  maxSegID_eq := h.maxSegID_eq
  mgr := h.mgr
  segmentNum_eq := h.segmentNum_eq

theorem addSegment (h : bd.Agrees n) (hle : bd.header.pageNum + bd.pageSize.segmentPages ≤ maxPg)
    {mgr : SMEMgr} (hmgr : mgr.Inv bd.pageSize.layout)
    (hlen : mgr.segmentNum = bd.smeMgr.segmentNum + 1) :
    (bd.performAll [.mapSegment bd.extendedFile, .raiseStorageUnitSize, .deposit mgr,
      .raisePageNum]).Agrees (n + 1) := by
  have hmax : maxPg = 134217728 := rfl
  have hsu := h.header.storageUnitSize_eq
  have hoff : dataOffset / bd.pageSize.bytes < 65536 := by cases bd.pageSize <;> decide
  have hbase := h.baseSize_eq
  have hpn : u32 (bd.header.pageNum + bd.pageSize.segmentPages) =
      bd.header.pageNum + bd.pageSize.segmentPages := u32_of_lt (by omega)
  have hsz : u32 (bd.header.storageUnitSize + bd.pageSize.segmentPages) =
      bd.header.storageUnitSize + bd.pageSize.segmentPages := u32_of_lt (by omega)
  have hseg := bd.pageSize.segmentPages_mul_bytes
  have hlast : bd.extendedFile.segs[bd.dataSegID + n]? = some (dataSegment n) := by
    have hlen : bd.file.segs.length = bd.dataSegID + n := h.segmentSize_eq
    rw [BlockData.extendedFile, getElem?_append_right (by omega), ← hlen, Nat.sub_self, hbase]
    rfl
  refine ⟨h.header.raise hle, ?_, rfl, ?_, ?_, ?_, ?_, hmgr, ?_⟩
  · change u32 (bd.header.pageNum + bd.pageSize.segmentPages) = (n + 1) * bd.pageSize.segmentPages
    rw [hpn, h.pageNum_eq, Nat.succ_mul]
  · change u32 (bd.header.storageUnitSize + bd.pageSize.segmentPages) * bd.pageSize.bytes ≤
      bd.baseSize + segmentSz
    rw [hsz, add_mul, h.right_size, hbase, hseg]
  · change (bd.file.segs ++ [_]).length = _
    rw [List.length_append, length_singleton, ← add_assoc]
    exact congrArg (· + 1) h.segmentSize_eq
  · intro k hk
    change bd.extendedFile.segs[bd.dataSegID + k]? = _
    rcases Nat.lt_succ_iff_lt_or_eq.mp hk with hk | rfl
    · have hlen : bd.file.segs.length = bd.dataSegID + n := h.segmentSize_eq
      rw [BlockData.extendedFile, getElem?_append_left (by omega)]
      exact h.mapped k hk
    · exact hlast
  · change bd.maxSegID + 1 + 1 = bd.dataSegID + (n + 1)
    rw [h.maxSegID_eq, add_assoc]
  · change mgr.segmentNum = n + 1
    rw [hlen, h.segmentNum_eq]

theorem extend (h : bd.Agrees n) (os : GrowOs) (rc : Rc)
    (hrc : (extendSegments bd 1 os).rc = some rc) :
    (rc = .ok ∧ (bd.performAll (extendSegments bd 1 os).effects).Agrees (n + 1) ∧
      (bd.performAll (extendSegments bd 1 os).effects).smeMgr.sme = bd.smeMgr.sme ∧
      (bd.performAll (extendSegments bd 1 os).effects).smeMgr.freePos = bd.smeMgr.freePos ∧
      ∀ i < bd.pageSize.segmentPages, bd.smeMgr.sme.Free (n * bd.pageSize.segmentPages + i)) ∨
    (rc ≠ .ok ∧ (bd.performAll (extendSegments bd 1 os).effects).Agrees n ∧
      (bd.performAll (extendSegments bd 1 os).effects).smeMgr = bd.smeMgr) := by
  obtain ⟨pre, hpre, hcases⟩ := extendSegments_spec bd os h.header.pageNum_le
  obtain ⟨sparse, size, hsize, hbd⟩ := bd.performAll_fileOnly hpre (min_le_left _ _)
  have hfile := h.setFile sparse hsize
  rw [← hbd] at hfile
  rcases hcases with ⟨heff, hne⟩ | ⟨hle, hfree, rc', mgr, hd, ⟨hok, hrc', heff⟩ | ⟨-, hnone, -⟩⟩
  · right
    rw [heff]
    exact ⟨fun hok => hne (hok ▸ hrc), hfile, by rw [hbd]⟩
  · -- The next segment can be deposited: its pages are the next ones and they are free.
    left
    have hlen : bd.smeMgr.segments.length = n := h.segmentNum_eq
    have hpn : bd.header.pageNum = bd.smeMgr.segments.length * bd.pageSize.layout.segmentPages := by
      rw [hlen, PageSize.layout_segmentPages, h.pageNum_eq]
    have hdep : SMEMgr.Depositable bd.pageSize.layout bd.smeMgr :=
      ⟨fun p => by
        rw [← hpn, PageSize.layout_segmentPages]
        exact hfree p,
      by rw [← hpn, PageSize.layout_segmentPages]; exact hle⟩
    rw [hpn] at hd
    rcases SMEMgr.depositASegment_spec h.mgr hdep (os.alloc 0) with
      ⟨-, mgr', heq, hinv, hsme, hfp, hlen', -⟩ | ⟨-, heq⟩
    · obtain ⟨-, rfl⟩ : rc' = .ok ∧ mgr = mgr' := by
        rw [hd] at heq
        simpa using heq
      have hext : (bd.performAll pre).extendedFile = bd.extendedFile := by
        rw [BlockData.extendedFile, hfile.baseSize_eq, ← h.baseSize_eq, hbd]
        rfl
      have hadd := hfile.addSegment (by rw [hbd]; exact hle) (by rw [hbd]; exact hinv)
        (by rw [hbd]; exact hlen')
      have hmgr : (bd.performAll (extendSegments bd 1 os).effects).smeMgr = mgr := by
        rw [heff, BlockData.performAll_append]
        rfl
      rw [hext, ← BlockData.performAll_append, ← heff] at hadd
      refine ⟨Option.some.inj (hrc.symm.trans hrc'), hadd, hmgr ▸ hsme, hmgr ▸ hfp, fun i hi => ?_⟩
      rw [← h.pageNum_eq]
      exact hfree _ (Nat.le_add_right _ _) (Nat.add_lt_add_left hi _)
    · rw [hd] at heq
      cases heq
      cases hok
  · rw [hrc] at hnone
    cases hnone

/-- **A unit with room for another segment can be extended** when the system calls succeed. -/
theorem extend_allOk (h : bd.Agrees n) (hroom : (n + 1) * bd.pageSize.segmentPages ≤ maxPg)
    (hfree : ∀ p, n * bd.pageSize.segmentPages ≤ p → bd.smeMgr.sme.Free p) :
    (extendSegments bd 1 .allOk).rc = some .ok := by
  rw [Nat.succ_mul] at hroom
  have hlen : bd.smeMgr.segments.length = n := h.segmentNum_eq
  refine extendSegments_allOk (h.pageNum_eq.symm ▸ hroom)
    (fun p hp _ => hfree p (h.pageNum_eq ▸ hp)) ?_
  have hdep : SMEMgr.Depositable bd.pageSize.layout bd.smeMgr :=
    ⟨fun p hp _ => hfree p (by rwa [hlen, PageSize.layout_segmentPages] at hp),
      by rwa [hlen, PageSize.layout_segmentPages]⟩
  rcases SMEMgr.depositASegment_spec h.mgr hdep true with ⟨-, m', heq, -⟩ | ⟨hf, -⟩
  · rw [hlen, PageSize.layout_segmentPages, ← h.pageNum_eq] at heq
    rw [heq]
  · cases hf

end BlockData.Agrees

theorem agrees_openStorage {info : StorageInfo} {img : Image} {createNew : Bool} {os : OpenOs}
    {bd : BlockData} (hopen : openStorage info img createNew os = .ok bd)
    (hsize : dataOffset ≤ img.fileSize)
    (hmul : bd.pageSize.segmentPages ∣ img.header.pageNum) :
    bd.header = img.header ∧ bd.Agrees (img.header.pageNum / bd.pageSize.segmentPages) ∧
      bd.file.fileSize = img.header.storageUnitSize * bd.pageSize.bytes := by
  obtain ⟨p, info', mgr, file, hv, hm, hmap, dirty, hbd⟩ := openStorage_loaded hopen hsize
  obtain ⟨names, ids, stats, hl⟩ := BlockData.foldl_loadCollection (List.range mmeSlots) _
  obtain rfl := hbd.trans hl
  obtain ⟨hok, rfl⟩ := (validateHeader_ok_iff _ _ _ _).mp hv
  obtain ⟨n, hn⟩ := hmul
  have hdiv : img.header.pageNum / p.segmentPages = n := by
    rw [hn, Nat.mul_div_cancel_left _ p.segmentPages_pos]
  have hpn : img.header.pageNum = n * p.layout.segmentPages := by
    rw [hn, PageSize.layout_segmentPages, mul_comm]
  have hright : img.header.storageUnitSize * p.bytes = dataOffset + n * segmentSz := by
    rw [hok.size_mul_bytes, hn, mul_comm p.segmentPages, mul_assoc,
      p.segmentPages_mul_bytes, add_comm]
  have hfuel : n ≤ img.header.storageUnitSize * p.bytes / segmentSz + 1 := by
    rw [hright]
    have := (Nat.le_div_iff_mul_le (by decide)).mpr (Nat.le_add_left (n * segmentSz) dataOffset)
    omega
  obtain rfl := mapDataSegments_ok hmap hfuel hright
  rw [hpn] at hm
  rcases SMEMgr.init_spec p.layout img.sme n os.smeAlloc (hpn ▸ hok.pageNum_le) with
    ⟨mgr', heq, hinv, -, -, hlen⟩ | ⟨heq, -⟩
  · obtain rfl : mgr' = mgr := by
      rw [hm] at heq
      exact (Except.ok.inj heq).symm
    refine ⟨rfl, ?_, rfl⟩
    rw [hdiv]
    exact {
      header := ⟨hok.eyeCatcher, hok.version, hok.pageSize_eq, hok.pageNum_le, hok.size_sub,
        hok.name⟩
      pageNum_eq := by rw [hn, mul_comm]
      current := rfl
      size_le := le_rfl
      segmentSize_eq := by
        simp only [MmapFile.segmentSize, metaSegments, List.length_append, length_map, length_range]
        rfl
      mapped := fun k hk => by
        rw [getElem?_append_right (by simp [metaSegments])]
        simp [metaSegments, hk, dataSegment]
      maxSegID_eq := by
        simp only [MmapFile.segmentSize, metaSegments, List.length_append, length_map,
          length_range, length_cons, length_nil]
        omega
      mgr := hinv
      segmentNum_eq := hlen }
  · rw [hm] at heq
    cases heq

/-- The runs of `_extendSegments(1)` from a unit; a call that panics does not return. -/
def extendSystem (bd₀ : BlockData) : System BlockData where
  init := fun bd => bd = bd₀
  step := fun bd bd' => ∃ os rc, (extendSegments bd 1 os).rc = some rc ∧
    bd' = bd.performAll (extendSegments bd 1 os).effects

theorem agrees_invariant {bd₀ : BlockData} {n₀ : ℕ} (h : bd₀.Agrees n₀) :
    (extendSystem bd₀).Invariant fun bd => ∃ n, bd.Agrees n where
  init := by
    rintro bd rfl
    exact ⟨n₀, h⟩
  step := by
    rintro bd bd' ⟨n, hn⟩ ⟨os, rc, hrc, rfl⟩
    rcases hn.extend os rc hrc with ⟨-, hagr, -⟩ | ⟨-, hagr, -⟩
    · exact ⟨n + 1, hagr⟩
    · exact ⟨n, hagr⟩

/-- **Header, mapping and space manager agree** after an open and every `_extendSegments(1)` that
returns. -/
theorem header_mapping_agree {info : StorageInfo} {img : Image} {createNew : Bool}
    {os : OpenOs} {bd : BlockData} (hopen : openStorage info img createNew os = .ok bd)
    (hsize : dataOffset ≤ img.fileSize)
    (hmul : bd.pageSize.segmentPages ∣ img.header.pageNum) :
    (bd.file.fileSize = bd.header.storageUnitSize * bd.pageSize.bytes ∧
      bd.file.segmentSize - bd.dataSegID = img.header.pageNum / bd.pageSize.segmentPages ∧
      bd.smeMgr.segmentNum = img.header.pageNum / bd.pageSize.segmentPages) ∧
    ∀ bd', (extendSystem bd).Reachable bd' →
      bd'.header.storageUnitSize = bd'.header.pageNum + dataOffset / bd'.pageSize.bytes ∧
      bd'.maxSegID + 1 = bd'.dataSegID + bd'.header.pageNum / bd'.pageSize.segmentPages ∧
      bd'.smeMgr.segmentNum = bd'.header.pageNum / bd'.pageSize.segmentPages ∧
      (∀ k < bd'.header.pageNum / bd'.pageSize.segmentPages,
        bd'.file.segs[bd'.dataSegID + k]? = some ⟨segmentSz, dataOffset + k * segmentSz⟩) ∧
      bd'.header.pageNum ≤ maxPg ∧
      bd'.header.storageUnitSize * bd'.pageSize.bytes ≤ bd'.file.fileSize := by
  obtain ⟨hhdr, hagr, hfile⟩ := agrees_openStorage hopen hsize hmul
  refine ⟨⟨by rw [hhdr]; exact hfile, by rw [hagr.segmentSize_eq, Nat.add_sub_cancel_left],
    hagr.segmentNum_eq⟩, ?_⟩
  intro bd' hreach
  obtain ⟨n, hn⟩ := (agrees_invariant hagr).reachable hreach
  have hdiv : bd'.header.pageNum / bd'.pageSize.segmentPages = n := by
    rw [hn.pageNum_eq, Nat.mul_div_cancel _ bd'.pageSize.segmentPages_pos]
  rw [hdiv]
  exact ⟨hn.header.storageUnitSize_eq, hn.maxSegID_eq, hn.segmentNum_eq, hn.mapped,
    hn.header.pageNum_le, hn.size_le⟩

def unitInfo : StorageInfo := ⟨4096, [], 0, false, 0⟩

/-- A unit with pages of 4K and one data segment. -/
def oneSegment : Image :=
  ⟨dataOffset + segmentSz, { initHeader unitInfo with
    storageUnitSize := (dataOffset + segmentSz) / 4096
    pageNum := segmentSz / 4096
    storageUnitSize_lt := by decide }, SME.empty, fun _ => MB.free, fun _ => 0⟩

theorem header_mapping_agree_extended :
    ∃ bd bd', openStorage unitInfo oneSegment false (.allOk ⟨fun _ => true, []⟩) = .ok bd ∧
      bd.file.segmentSize - bd.dataSegID = 1 ∧ (extendSystem bd).Reachable bd' ∧
      bd'.header.pageNum = 2 * bd'.pageSize.segmentPages ∧
      bd'.maxSegID + 1 = bd'.dataSegID + 2 := by
  have hv : validateHeader unitInfo oneSegment.header = .ok (.k4, unitInfo) := by decide
  have hsize : dataOffset ≤ oneSegment.fileSize := Nat.le_add_right _ _
  obtain ⟨bd, hopen, hps, hsme⟩ := openStorage_allOk oneSegment ⟨fun _ => true, []⟩ hsize hv
  have hdiv : oneSegment.header.pageNum / bd.pageSize.segmentPages = 1 := by rw [hps]; decide
  have hmul : bd.pageSize.segmentPages ∣ oneSegment.header.pageNum := by rw [hps]; decide
  obtain ⟨-, hagr, -⟩ := agrees_openStorage hopen hsize hmul
  obtain ⟨⟨-, hmapped, -⟩, hruns⟩ := header_mapping_agree hopen hsize hmul
  rw [hdiv] at hagr hmapped
  have hgrow := hagr.extend_allOk (by rw [hps]; decide) fun p _ => hsme ▸ Bitmap.get_zero p
  obtain ⟨-, hagr', -⟩ | ⟨hne, -⟩ := hagr.extend .allOk .ok hgrow
  · have hreach : (extendSystem bd).Reachable (bd.performAll (extendSegments bd 1 .allOk).effects) :=
      .step (.init rfl) ⟨.allOk, .ok, hgrow, rfl⟩
    have hmax := (hruns _ hreach).2.1
    rw [hagr'.pageNum_eq, Nat.mul_div_cancel _ (PageSize.segmentPages_pos _)] at hmax
    exact ⟨bd, _, hopen, hmapped, hreach, hagr'.pageNum_eq, hmax⟩
  · exact absurd rfl hne

end Novachains.Dms
