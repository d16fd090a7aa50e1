import Novachains.Dms.Reading

/-!
# The statistics of a collection

The counters of the statistics record against what the extents of the collection hold.  The
records and their lengths are counted; the pages are not, and free space that is taken is not
taken off.
-/

namespace Novachains.Dms

open Lib Oss

namespace BlockData

/-- The counters of records agree with the extents of `chain`, whose records are `offs`. -/
structure RecordsAgree (bd : BlockData) (i : ℕ) (chain : List ℕ) (offs : ℕ → List ℕ) : Prop where
  totalRecords : (bd.mbStatInfo i).totals.totalRecords =
    (chain.map fun e => Extent.recCount bd.data (bd.addr e)).sum
  totalDataLen : (bd.mbStatInfo i).totals.totalDataLen =
    (chain.map fun e => ((offs e).map fun o => Record.dataLength bd.data (bd.addr e + o)).sum).sum

/-- The counters of space agree with the extents of `chain`. -/
structure SpaceAgrees (bd : BlockData) (i : ℕ) (chain : List ℕ) : Prop where
  totalDataFreeSpace : (bd.mbStatInfo i).totals.totalDataFreeSpace =
    (chain.map fun e => Extent.freeSpace bd.data (bd.addr e)).sum
  totalDataPages : (bd.mbStatInfo i).totals.totalDataPages =
    (chain.map fun e => Extent.blockSize bd.data (bd.addr e)).sum

/-- The statistics of the collection in slot `i` agree with its data. -/
def StatsAgree (bd : BlockData) (i : ℕ) : Prop :=
  ∃ chain offs, bd.IsChain i chain ∧ (∀ e ∈ chain, RecordList bd.data (bd.addr e) (offs e)) ∧
    bd.RecordsAgree i chain offs ∧ bd.SpaceAgrees i chain

variable {bd : BlockData} {n : ℕ} {owned : ℕ → Owned} {i : ℕ}

theorem StoreOk.dataLengths (h : bd.StoreOk n owned) (hi : bd.InUse i) {e : ℕ}
    (he : e ∈ (owned i).added) :
    ((((owned i).contents.recs e).map Rec.off).map fun o =>
        Record.dataLength bd.data (bd.addr e + o)) =
      ((owned i).contents.recs e).map fun r => r.data.length := by
  rw [List.map_map]
  exact List.map_congr_left fun r hr => ((h.body hi he).rec_ok r hr).length_eq

theorem StoreOk.recordsAgree (h : bd.StoreOk n owned) (hi : bd.InUse i) :
    bd.RecordsAgree i (bd.chains owned i) fun e => ((owned i).contents.recs e).map Rec.off := by
  have hcounts := (h.slot i hi).counts
  have hperm := h.perm_chains hi
  refine ⟨?_, ?_⟩
  · rw [hcounts.records, ← (hperm.map _).sum_eq]
    refine congrArg List.sum (List.map_congr_left fun e he => ?_)
    exact (h.body hi ((h.mem_chains hi).mp he)).recCount_eq.symm
  · rw [hcounts.dataLen, ← (hperm.map _).sum_eq]
    refine congrArg List.sum (List.map_congr_left fun e he => ?_)
    rw [h.dataLengths hi ((h.mem_chains hi).mp he)]

theorem StoreOk.spaceAgrees_iff (h : bd.StoreOk n owned) (hi : bd.InUse i) :
    bd.SpaceAgrees i (bd.chains owned i) ↔ (owned i).added = [] := by
  have hcounts := (h.slot i hi).counts
  have hperm := h.perm_chains hi
  constructor
  · intro hs
    have hsum := hs.totalDataPages
    rw [hcounts.dataPages, eq_comm, List.sum_eq_zero_iff] at hsum
    refine List.eq_nil_iff_forall_not_mem.mpr fun e he => ?_
    have hzero := hsum _ (List.mem_map_of_mem ((h.mem_chains hi).mpr he))
    rw [(h.body hi he).blockSize_eq] at hzero
    exact absurd hzero ((h.slot i hi).col.pages_pos e he).ne'
  · intro ha
    have hnil : bd.chains owned i = [] := List.perm_nil.mp (ha ▸ hperm)
    refine ⟨?_, ?_⟩
    · rw [hcounts.freeSpace ha, hnil]
      rfl
    · rw [hcounts.dataPages, hnil]
      rfl

theorem StoreOk.statsAgree_iff (h : bd.StoreOk n owned) (hi : bd.InUse i) :
    bd.StatsAgree i ↔ (owned i).added = [] := by
  rw [← h.spaceAgrees_iff hi]
  constructor
  · rintro ⟨chain, offs, hchain, -, -, hspace⟩
    rwa [hchain.unique (h.isChain hi)] at hspace
  · intro hspace
    refine ⟨_, _, h.isChain hi, fun e he => ?_, h.recordsAgree hi, hspace⟩
    exact (h.body hi ((h.mem_chains hi).mp he)).recordList

end BlockData

/-- **The statistics agree with the data exactly as long as there is no data extent**, in every run.
-/
theorem statistics_agree_iff {bd : BlockData} (h : (storeSystem fun _ _ => True).Reachable bd) {i : ℕ}
    (hi : bd.InUse i) : bd.StatsAgree i ↔ (bd.mme i).firstExtentID = none := by
  obtain ⟨n, owned, hs⟩ := (BlockData.sound_invariant _).reachable h
  rw [hs.store.statsAgree_iff hi, hs.store.firstExtentID_eq_none_iff hi]

/-- The statistics of a collection with an extent. -/
theorem statistics_agree_iff_collection :
    ∃ (bd : BlockData) (i : ℕ), bd.InUse i ∧
      (bd.StatsAgree i ↔ (bd.mme i).firstExtentID = none) := by
  obtain ⟨bd, slot, -, -, hreach, -, hi, -⟩ :=
    exists_collection (P := fun _ _ => True) fun _ => trivial
  exact ⟨bd, slot, hi, statistics_agree_iff hreach hi⟩

/-- The first extent of a collection is not counted. -/
theorem statistics_first_extent :
    ∃ (bd : BlockData) (i : ℕ), (storeSystem fun _ _ => True).Reachable bd ∧ bd.InUse i ∧
      ¬ bd.StatsAgree i := by
  obtain ⟨bd, slot, n, owned, hreach, hs, hi, hne, -⟩ :=
    exists_collection (P := fun _ _ => True) fun _ => trivial
  exact ⟨bd, slot, hreach, hi, fun hagree => hne ((hs.store.statsAgree_iff hi).mp hagree)⟩

end Novachains.Dms
