import Novachains.Dms.Extend

/-!
# Stopping inside an extension

The header of a storage unit is mapped shared, so what `_extendSegments` has stored there
is in the file even if the process stops right after.  This module says after which stops
the file can be opened again.
-/

namespace Novachains.Dms

open Lib Oss List

def BlockData.image (bd : BlockData) : Image where
  fileSize := bd.file.fileSize
  header := bd.header
  sme := bd.smeMgr.sme
  mme := bd.mme
  data := bd.data

def Effect.tornAfter : Bool → Effect → Bool
  | _, .raiseStorageUnitSize => true
  | _, .lowerStorageUnitSize => false
  | _, .raisePageNum => false
  | t, _ => t

/-- The last header store among the effects is the raise of `_storageUnitSize`. -/
def torn (es : List Effect) : Bool := es.foldl Effect.tornAfter false

/-- When all system calls succeed the file opens, and the bitmap of the pages that
existed before is as it was. -/
def Reopens (bd stopped : BlockData) (m : Msync) : Prop :=
  ∃ bd', openStorage bd.info stopped.image false (.allOk m) = .ok bd' ∧
    ∀ p < bd.header.pageNum, bd'.smeMgr.sme.Free p ↔ bd.smeMgr.sme.Free p

theorem not_reopens {bd stopped : BlockData} (m : Msync) (rc : Rc)
    (hsize : dataOffset ≤ stopped.file.fileSize)
    (hv : validateHeader bd.info stopped.header = .error rc) : ¬ Reopens bd stopped m := by
  rintro ⟨bd', hopen, -⟩
  obtain ⟨p, info', -, -, hok, -⟩ := openStorage_loaded hopen hsize
  cases hok.symm.trans hv

theorem reopens_iff {bd stopped : BlockData} (m : Msync)
    (hsize : dataOffset ≤ stopped.file.fileSize) (hsme : stopped.smeMgr.sme = bd.smeMgr.sme) :
    Reopens bd stopped m ↔ ∃ p, HeaderOk bd.info stopped.header p := by
  constructor
  · rintro ⟨bd', hopen, -⟩
    obtain ⟨p, info', -, -, hv, -⟩ := openStorage_loaded hopen hsize
    exact ⟨p, ((validateHeader_ok_iff _ _ _ _).mp hv).1⟩
  rintro ⟨p, hok⟩
  have hv := (validateHeader_ok_iff bd.info stopped.header p _).mpr ⟨hok, rfl⟩
  obtain ⟨bd', hopen, -, hsme'⟩ := openStorage_allOk stopped.image m hsize hv
  refine ⟨bd', hopen, fun p _ => ?_⟩
  rw [hsme', ← hsme]
  rfl

theorem torn_append (es es' : List Effect) :
    torn (es ++ es') = es'.foldl Effect.tornAfter (torn es) := foldl_append

variable {es : List Effect}

theorem torn_fileOnly {size : ℕ} (h : ∀ e ∈ es, e.FileOnly size) : torn es = false := by
  have hstep : ∀ e ∈ es, ∀ t, Effect.tornAfter t e = t := by
    intro e he t
    have := h e he
    cases e <;> first | rfl | exact absurd this id
  rw [torn]
  induction es with
  | nil => rfl
  | cons e es ih =>
    rw [foldl_cons, hstep e mem_cons_self]
    exact ih (fun x hx => h x (mem_cons_of_mem _ hx))
      fun x hx => hstep x (mem_cons_of_mem _ hx)

private theorem take_append_four {α : Type} (l : List α) (a b c d : α) (k : ℕ) :
    (∃ j, (l ++ [a, b, c, d]).take k = l.take j) ∨ (l ++ [a, b, c, d]).take k = l ++ [a] ∨
      (l ++ [a, b, c, d]).take k = l ++ [a, b] ∨ (l ++ [a, b, c, d]).take k = l ++ [a, b, c] ∨
      (l ++ [a, b, c, d]).take k = l ++ [a, b, c, d] := by
  rw [List.take_append]
  by_cases hk : k ≤ l.length
  · exact Or.inl ⟨k, by simp [Nat.sub_eq_zero_of_le hk]⟩
  rw [take_of_length_le (by omega)]
  obtain ⟨j, hj⟩ : ∃ j, k - l.length = j + 1 := ⟨k - l.length - 1, by omega⟩
  rw [hj]
  match j with
  | 0 => simp
  | 1 => simp
  | 2 => simp
  | j + 3 => simp

section Stops
variable {bd : BlockData} (hok : HeaderOk bd.info bd.header bd.pageSize)
  (hsize : bd.file.fileSize = bd.header.storageUnitSize * bd.pageSize.bytes) (m : Msync)
include hok hsize

theorem dataOffset_le_baseSize : dataOffset ≤ bd.baseSize := by
  rw [BlockData.baseSize, hsize, min_self, hok.size_mul_bytes]
  exact Nat.le_add_left _ _

theorem reopens_fileOnly (h : ∀ e ∈ es, e.FileOnly bd.baseSize) :
    Reopens bd (bd.performAll es) m := by
  obtain ⟨sparse, n, hn, heq⟩ := bd.performAll_fileOnly h (min_le_left _ _)
  have hle := dataOffset_le_baseSize hok hsize
  rw [heq]
  exact Iff.mpr (reopens_iff m (le_trans hle hn) rfl) ⟨_, hok⟩

theorem reopens_mapped (rest : List Effect) (h : ∀ e ∈ es, e.FileOnly bd.baseSize) {mgr : SMEMgr}
    (hle : bd.header.pageNum + bd.pageSize.segmentPages ≤ maxPg) (hmgr : mgr.sme = bd.smeMgr.sme)
    (hrest : rest ∈ [[], [.raiseStorageUnitSize], [.raiseStorageUnitSize, .deposit mgr],
      [.raiseStorageUnitSize, .deposit mgr, .raisePageNum],
      [.raiseStorageUnitSize, .deposit mgr, .lowerStorageUnitSize]]) :
    Reopens bd (bd.performAll (es ++ .mapSegment bd.extendedFile :: rest)) m ↔
      torn (es ++ .mapSegment bd.extendedFile :: rest) = false := by
  obtain ⟨sparse, n, -, heq⟩ := bd.performAll_fileOnly h (min_le_left _ _)
  have hbase := dataOffset_le_baseSize hok hsize
  have hfile : dataOffset ≤ bd.extendedFile.fileSize := le_trans hbase (Nat.le_add_right _ _)
  rw [BlockData.performAll_append, heq, torn_append, torn_fileOnly h]
  have hno := fun q => hok.not_addUnitSize q
  simp only [mem_cons, not_mem_nil, or_false] at hrest
  rcases hrest with rfl | rfl | rfl | rfl | rfl
  · exact Iff.trans (reopens_iff m hfile rfl) (iff_of_true ⟨_, hok⟩ rfl)
  · exact Iff.trans (reopens_iff m hfile rfl)
      (iff_of_false (fun ⟨q, hq⟩ => hno q hq) Bool.noConfusion)
  · exact Iff.trans (reopens_iff m hfile hmgr)
      (iff_of_false (fun ⟨q, hq⟩ => hno q hq) Bool.noConfusion)
  · exact Iff.trans (reopens_iff m hfile hmgr) (iff_of_true ⟨_, hok.raise hle⟩ rfl)
  have hrestore : HeaderOk bd.info ((bd.header.addUnitSize bd.pageSize.segmentPages).addUnitSize
      (2 ^ 32 - bd.pageSize.segmentPages)) bd.pageSize := by
    rw [StorageUnitHeader.addUnitSize_restore]
    exact hok
  exact Iff.trans (reopens_iff m hfile hmgr) (iff_of_true ⟨_, hrestore⟩ rfl)

/-- **Which stops an extension survives**: the file opens again exactly when the last store to the
header is not the raise of `_storageUnitSize`. -/
theorem reopens_stopped_iff (os : GrowOs) (k : ℕ) :
    Reopens bd (bd.performAll ((extendSegments bd 1 os).effects.take k)) m ↔
      torn ((extendSegments bd 1 os).effects.take k) = false := by
  have hfile : ∀ es : List Effect, (∀ e ∈ es, e.FileOnly bd.baseSize) → ∀ j,
      (Reopens bd (bd.performAll (es.take j)) m ↔ torn (es.take j) = false) := by
    intro es hes j
    have hj : ∀ e ∈ es.take j, e.FileOnly bd.baseSize :=
      fun e he => hes e (mem_of_mem_take he)
    exact iff_of_true (reopens_fileOnly hok hsize m hj) (torn_fileOnly hj)
  obtain ⟨pre, hpre, ⟨heff, -⟩ | ⟨hle, -, rc, mgr, hd, hcases⟩⟩ :=
    extendSegments_spec bd os hok.pageNum_le
  · rw [heff]
    exact hfile pre hpre k
  have hmgr : mgr.sme = bd.smeMgr.sme := by
    rw [← bd.smeMgr.sme_depositASegment bd.pageSize.layout bd.header.pageNum (os.alloc 0), hd]
  have hstop := fun rest => reopens_mapped hok hsize m rest hpre hle hmgr
  rcases hcases with ⟨-, -, heff⟩ | ⟨-, -, heff⟩
  all_goals
    rw [heff]
    rcases take_append_four pre _ _ _ _ k with ⟨j, hj⟩ | hj | hj | hj | hj <;> rw [hj]
    · exact hfile pre hpre j
    all_goals exact hstop _ (by simp)

end Stops

def BlockData.withoutSegments : BlockData where
  info := ⟨65536, [], 0, true, 0⟩
  file := ⟨dataOffset, metaSegments⟩
  msync := ⟨fun _ => true, []⟩
  header := ⟨datasuEyecatcher, 1, 65536, 321, [], 0, 0, 0, 0, 0, by decide⟩
  smeMgr := { sme := SME.empty, totalFree := 0, freePos := 0, segments := [] }
  mme := fun _ => MB.free
  mbStatInfo := fun _ => {}
  collectionNameMap := fun _ => none
  collectionIDMap := fun _ => none
  data := fun _ => 0
  pageSize := .k64
  pageNum := 0
  mmeSegID := 2
  dataSegID := 3
  maxSegID := 2
  dirtyList := ⟨Bitmap.zero, 65536, 0, false⟩

/-- Stopped after the third of five effects, the store to `_storageUnitSize`: the header check
fails. -/
theorem stopped_between_stores :
    ¬ Reopens .withoutSegments (BlockData.withoutSegments.performAll
      ((extendSegments .withoutSegments 1 .allOk).effects.take 3)) ⟨fun _ => true, []⟩ :=
  not_reopens _ .sys (by decide +kernel) (by decide +kernel)

/-- Stopped after the segment has been mapped, or at the end, the unit opens. -/
theorem stopped_elsewhere :
    Reopens .withoutSegments (BlockData.withoutSegments.performAll
      ((extendSegments .withoutSegments 1 .allOk).effects.take 2)) ⟨fun _ => true, []⟩ ∧
    Reopens .withoutSegments (BlockData.withoutSegments.performAll
      ((extendSegments .withoutSegments 1 .allOk).effects.take 5)) ⟨fun _ => true, []⟩ := by
  have hv : validateHeader BlockData.withoutSegments.info BlockData.withoutSegments.header =
      .ok (.k64, BlockData.withoutSegments.info) := by decide
  have hok : HeaderOk BlockData.withoutSegments.info BlockData.withoutSegments.header .k64 :=
    ((validateHeader_ok_iff _ _ _ _).mp hv).1
  constructor
  · exact (reopens_stopped_iff hok (by decide) _ .allOk 2).mpr (by decide +kernel)
  · exact (reopens_stopped_iff hok (by decide) _ .allOk 5).mpr (by decide +kernel)

end Novachains.Dms
