import Novachains.Dms.BlockData

/-!
# What a reported flush means

The flush functions of the mapped file and of the storage unit return a code.  This
module says for each of them exactly when a returned `SDB_OK` means that `msync`
succeeded for everything it was asked to write, and when a data segment whose write
failed stays marked dirty.
-/

namespace Novachains.Dms

open Lib Oss

namespace BlockData

variable (bd : BlockData)

/-- The segments `flushMeta` is asked to write: all metadata segments but the excepted. -/
def metaAsked (except : List ℕ) : List ℕ :=
  (List.range bd.dataSegID).filter (· ∉ except)

/-- A data segment that was dirty and that `msync` failed to write is dirty afterwards. -/
def StaysDirty (segmentID : ℕ) (sync : Bool) : Prop :=
  bd.dataSegID > 0 → bd.dataSegID ≤ segmentID → segmentID < bd.file.segmentSize →
    bd.dirtyList.isDirty (segmentID - bd.dataSegID) = true →
    bd.msync.outcome bd.msync.calls.length = false →
    (bd.flushSegment segmentID sync).2.dirtyList.isDirty (segmentID - bd.dataSegID) = true

theorem flushSegment_fst (segmentID : ℕ) (sync : Bool) :
    (bd.flushSegment segmentID sync).1 = (bd.file.flush bd.msync segmentID sync).1 := by
  simp only [flushSegment]
  split <;> rfl

theorem msync_flushSegment (segmentID : ℕ) (sync : Bool) :
    (bd.flushSegment segmentID sync).2.msync = (bd.file.flush bd.msync segmentID sync).2 := by
  simp only [flushSegment]
  split <;> rfl

theorem reached_flushSegment_iff (segmentID : ℕ) (sync : Bool) :
    Reached (bd.flushSegment segmentID sync).1 bd.msync (bd.flushSegment segmentID sync).2.msync
        (bd.file.whole segmentID) ↔
      bd.file.segmentSize ≤ segmentID ∨ bd.msync.outcome bd.msync.calls.length = true := by
  rw [flushSegment_fst, msync_flushSegment]
  exact MmapFile.reached_flush_iff bd.file bd.msync segmentID sync

theorem reached_flushMME_iff (sync : Bool) :
    Reached (bd.flushMME sync).1 bd.msync (bd.flushMME sync).2.msync
        (bd.file.whole bd.mmeSegID) ↔
      bd.file.segmentSize ≤ bd.mmeSegID ∨ bd.msync.outcome bd.msync.calls.length = true :=
  reached_flushSegment_iff bd.syncMemToMmap bd.mmeSegID sync

theorem staysDirty_iff (segmentID : ℕ) (sync : Bool) :
    bd.StaysDirty segmentID sync ↔
      ¬ (0 < bd.dataSegID ∧ bd.dataSegID ≤ segmentID ∧ segmentID < bd.file.segmentSize) ∨
      bd.dirtyList.isDirty (segmentID - bd.dataSegID) = false ∨
      bd.msync.outcome bd.msync.calls.length = true ∨ bd.dirtyList.fullDirty = true := by
  by_cases hseg : 0 < bd.dataSegID ∧ bd.dataSegID ≤ segmentID ∧ segmentID < bd.file.segmentSize
  · obtain ⟨h0, h1, h2⟩ := hseg
    -- The bit is cleared before the write, so only a list that is dirty as a whole keeps it.
    have hclean : (bd.flushSegment segmentID sync).2.dirtyList.isDirty
        (segmentID - bd.dataSegID) = bd.dirtyList.fullDirty := by
      simp only [flushSegment, if_pos (And.intro h0 h1)]
      exact DirtyList.isDirty_cleanDirty bd.dirtyList _
    simp only [StaysDirty, hclean, h0, h1, h2, and_self, not_true_eq_false, false_or, forall_const]
    cases bd.dirtyList.isDirty (segmentID - bd.dataSegID) <;>
      cases bd.msync.outcome bd.msync.calls.length <;> simp
  · simp only [hseg, not_false_eq_true, true_or, iff_true]
    intro h0 h1 h2
    exact absurd ⟨h0, h1, h2⟩ hseg

theorem flushMetaLoop_eq (file : MmapFile) (sync : Bool) (except ids : List ℕ) (rc : Rc)
    (m : Msync) :
    flushMetaLoop file sync except ids rc m =
      (if rc = .ok ∧ ∃ i ∈ ids.filter (· ∉ except), file.segmentSize ≤ i then .invalidArg else rc,
        file.flushEach sync m (ids.filter (· ∉ except))) := by
  induction ids generalizing rc m with
  | nil => simp [flushMetaLoop, MmapFile.flushEach]
  | cons i ids ih =>
    by_cases hex : i ∈ except
    · rw [flushMetaLoop, if_pos hex, ih, List.filter_cons_of_neg (by simpa using hex)]
    rw [flushMetaLoop, if_neg hex, List.filter_cons_of_pos (by simpa using hex)]
    simp only [ih, MmapFile.flushEach, List.foldl_cons]
    congr 1
    cases hseg : file.segs[i]? with
    | none =>
      have hle : file.segmentSize ≤ i := List.getElem?_eq_none_iff.mp hseg
      rw [MmapFile.flush_none hseg]
      by_cases hrc : rc = .ok <;> simp [hrc, hle]
    | some seg =>
      have hlt : ¬ file.segmentSize ≤ i := not_le.mpr (List.getElem?_eq_some_iff.mp hseg).1
      have hrest : (∃ j ∈ i :: ids.filter (· ∉ except), file.segmentSize ≤ j) ↔
          ∃ j ∈ ids.filter (· ∉ except), file.segmentSize ≤ j := by simp [hlt]
      rw [MmapFile.flush_some hseg]
      simp only [ne_eq, not_true_eq_false, false_and, if_false, hrest]

theorem reached_flushMeta_iff (sync : Bool) (except : List ℕ) :
    Reached (bd.flushMeta sync except).1 bd.msync (bd.flushMeta sync except).2.msync
        ((bd.metaAsked except).flatMap bd.file.whole) ↔
      (∃ i ∈ bd.metaAsked except, bd.file.segmentSize ≤ i) ∨
      ∀ j < (bd.metaAsked except).length,
        bd.msync.outcome (bd.msync.calls.length + j) = true := by
  have hloop := flushMetaLoop_eq bd.file sync except (List.range bd.dataSegID) .ok bd.msync
  rw [← metaAsked] at hloop
  have hrc : (bd.flushMeta sync except).1 =
      if Rc.ok = .ok ∧ ∃ i ∈ bd.metaAsked except, bd.file.segmentSize ≤ i then .invalidArg
      else .ok := congrArg Prod.fst hloop
  have hmsync : (bd.flushMeta sync except).2.msync =
      bd.file.flushEach sync bd.msync (bd.metaAsked except) := congrArg Prod.snd hloop
  rw [hrc, hmsync]
  by_cases hmapped : ∃ i ∈ bd.metaAsked except, bd.file.segmentSize ≤ i
  · rw [if_pos ⟨rfl, hmapped⟩]
    exact iff_of_true (fun h => by cases h) (Or.inl hmapped)
  have hlt : ∀ i ∈ bd.metaAsked except, i < bd.file.segmentSize := by
    intro i hi
    by_contra hle
    exact hmapped ⟨i, hi, not_lt.mp hle⟩
  rw [if_neg fun h => hmapped h.2, Reached, imp_iff_right rfl, or_iff_right hmapped]
  exact MmapFile.wrote_flushEach_iff bd.file sync bd.msync _
    (List.nodup_range.filter _) hlt

end BlockData

/-- **When a reported success reached the disk**, for the flushes of the file and of the unit, and
for the dirty mark of a segment that could not be written. -/
theorem flush_reached_iff (f : MmapFile) (m : Msync) (bd : BlockData) (i offset : ℕ) (length : ℤ)
    (except : List ℕ) (sync : Bool) :
    (Reached (f.flush m i sync).1 m (f.flush m i sync).2 (f.whole i) ↔
      f.segmentSize ≤ i ∨ m.outcome m.calls.length = true) ∧
    (Reached (f.flushAll m sync).1 m (f.flushAll m sync).2
        ((List.range f.segmentSize).flatMap f.whole) ↔
      ∀ j < f.segmentSize, m.outcome (m.calls.length + j) = true) ∧
    (Reached (f.flushBlock m i offset length sync).1 m (f.flushBlock m i offset length sync).2
        (f.blockAsked i offset length) ↔
      f.blockAsked i offset length = [] ∨ m.outcome m.calls.length = true) ∧
    (Reached (bd.flushMeta sync except).1 bd.msync (bd.flushMeta sync except).2.msync
        ((bd.metaAsked except).flatMap bd.file.whole) ↔
      (∃ i ∈ bd.metaAsked except, bd.file.segmentSize ≤ i) ∨
      ∀ j < (bd.metaAsked except).length,
        bd.msync.outcome (bd.msync.calls.length + j) = true) ∧
    (Reached (bd.flushMME sync).1 bd.msync (bd.flushMME sync).2.msync
        (bd.file.whole bd.mmeSegID) ↔
      bd.file.segmentSize ≤ bd.mmeSegID ∨ bd.msync.outcome bd.msync.calls.length = true) ∧
    (Reached (bd.flushSegment i sync).1 bd.msync (bd.flushSegment i sync).2.msync
        (bd.file.whole i) ↔
      bd.file.segmentSize ≤ i ∨ bd.msync.outcome bd.msync.calls.length = true) ∧
    (bd.StaysDirty i sync ↔
      ¬ (0 < bd.dataSegID ∧ bd.dataSegID ≤ i ∧ i < bd.file.segmentSize) ∨
      bd.dirtyList.isDirty (i - bd.dataSegID) = false ∨
      bd.msync.outcome bd.msync.calls.length = true ∨ bd.dirtyList.fullDirty = true) :=
  ⟨f.reached_flush_iff m i sync, f.reached_flushAll_iff m sync,
    f.reached_flushBlock_iff m i offset length sync, bd.reached_flushMeta_iff sync except,
    bd.reached_flushMME_iff sync, bd.reached_flushSegment_iff i sync, bd.staysDirty_iff i sync⟩

/-- A unit of one data segment, which is dirty, on a disk that takes no writes. -/
def BlockData.onFailingDisk : BlockData where
  info := ⟨4096, [], 0, false, 0⟩
  file := ⟨dataOffset + segmentSz,
    [⟨headerSz, 0⟩, ⟨smeSz, smeOffset⟩, ⟨mmeSz, mmeOffset⟩, ⟨segmentSz, dataOffset⟩]⟩
  msync := ⟨fun _ => false, []⟩
  header := ⟨datasuEyecatcher, 1, 4096, 37904, [], 0, 0, 0, 32768, 0, by decide⟩
  smeMgr := { sme := SME.empty, totalFree := 32768, freePos := 0,
              segments := [⟨[nodeSet 0 32768], 32768, 0, 32768, 32768⟩] }
  mme := fun _ => MB.free
  mbStatInfo := fun _ => {}
  collectionNameMap := fun _ => none
  collectionIDMap := fun _ => none
  data := fun _ => 0
  pageSize := .k4
  pageNum := 32768
  mmeSegID := 2
  dataSegID := 3
  maxSegID := 3
  dirtyList := ⟨Bitmap.zero.set 0, 4096, 1, false⟩

/-- Every flush function of that unit reports success, nothing is written, and the data
segment is no longer dirty. -/
theorem flush_onFailingDisk :
    let bd := BlockData.onFailingDisk
    ¬ Reached (bd.file.flush bd.msync 3 true).1 bd.msync (bd.file.flush bd.msync 3 true).2
        (bd.file.whole 3) ∧
    ¬ Reached (bd.file.flushAll bd.msync true).1 bd.msync (bd.file.flushAll bd.msync true).2
        ((List.range bd.file.segmentSize).flatMap bd.file.whole) ∧
    ¬ Reached (bd.file.flushBlock bd.msync 3 0 4096 true).1 bd.msync
        (bd.file.flushBlock bd.msync 3 0 4096 true).2 (bd.file.blockAsked 3 0 4096) ∧
    ¬ Reached (bd.flushMeta true []).1 bd.msync (bd.flushMeta true []).2.msync
        ((bd.metaAsked []).flatMap bd.file.whole) ∧
    ¬ Reached (bd.flushMME true).1 bd.msync (bd.flushMME true).2.msync
        (bd.file.whole bd.mmeSegID) ∧
    ¬ Reached (bd.flushSegment 3 true).1 bd.msync (bd.flushSegment 3 true).2.msync
        (bd.file.whole 3) ∧
    ¬ bd.StaysDirty 3 true := by
  intro bd
  refine ⟨?_, ?_, ?_, ?_, ?_, ?_, ?_⟩
  · rw [MmapFile.reached_flush_iff]; decide
  · rw [MmapFile.reached_flushAll_iff]; decide
  · rw [MmapFile.reached_flushBlock_iff]; decide
  · rw [BlockData.reached_flushMeta_iff]; decide
  · rw [BlockData.reached_flushMME_iff]; decide
  · rw [BlockData.reached_flushSegment_iff]; decide
  · rw [BlockData.staysDirty_iff]; decide

end Novachains.Dms
