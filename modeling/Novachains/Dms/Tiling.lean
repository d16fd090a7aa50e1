import Novachains.Dms.Reading

/-!
# Extents are cut into their blocks

An extent consists of its header, its records and its deleted records, and the deleted records
are those on the delete lists, each on the list for its size.  A document of four bytes breaks
this: it is refused only after a deleted record has been taken off its list for it.
-/

namespace Novachains.Dms

open Lib Oss List Function

/-- The block at the offset `o` of the extent at the address `a`, as large as its head says. -/
def blockAt (m : Mem) (a o : ℕ) : Run := ⟨o, Record.size m (a + o)⟩

def InSlot (slot size : ℕ) : Prop :=
  (slot = 0 ∧ size ≤ 32) ∨ (2 ^ (slot + 4) < size ∧ size ≤ 2 ^ (slot + 5))

/-- The extent at `a` with `size` bytes is its header, the records at `offs` and the deleted ones at
`dels`. -/
structure ExtentTiled (m : Mem) (a size : ℕ) (offs dels : List ℕ) : Prop where
  tiles : Tiles 0 size
    (⟨0, extentMetadataSz⟩ :: (offs.map (blockAt m a) ++ dels.map (blockAt m a)))
  first_eq : Extent.firstRecordOffset m a = offs.head?
  last_eq : Extent.lastRecordOffset m a = offs.getLast?
  linked : Linked (fun o => Record.nextOffset m (a + o)) (fun o => Record.prevOffset m (a + o)) offs
  recCount_eq : Extent.recCount m a = offs.length
  freeSpace_eq : Extent.freeSpace m a = (dels.map fun o => Record.size m (a + o)).sum
  deleted : ∀ o ∈ dels, Record.isDeleted m (a + o) = true ∧ Record.myOffset m (a + o) = o ∧
    minRecordSz ≤ Record.size m (a + o) ∧ Record.size m (a + o) ≤ recordMaxSz

/-- The delete lists of slot `i` are `lists`, and every record of `dels` is on one of them, once. -/
structure DeleteLists (bd : BlockData) (i : ℕ) (chain : List ℕ) (dels : ℕ → List ℕ)
    (lists : ℕ → List RecordID) : Prop where
  path : ∀ j < maxSlot, Path (bd.col i).nextDel ((bd.mme i).deleteList j) (lists j) none
  nodup : ∀ j < maxSlot, (lists j).Nodup
  mem_iff : ∀ j < maxSlot, ∀ rid, rid ∈ lists j ↔ rid.extent ∈ chain ∧
    rid.offset ∈ dels rid.extent ∧
    InSlot j (Record.size bd.data (bd.addr rid.extent + rid.offset))
  onOne : ∀ e ∈ chain, ∀ o ∈ dels e, ∃! j, j < maxSlot ∧ (⟨e, o⟩ : RecordID) ∈ lists j

/-- The extents of the collection in slot `i` are cut into their blocks, and its deleted records
are on its lists. -/
def BlockData.Tiled (bd : BlockData) (i : ℕ) : Prop :=
  ∃ (chain : List ℕ) (offs dels : ℕ → List ℕ) (lists : ℕ → List RecordID), bd.IsChain i chain ∧
    (∀ e ∈ chain, ExtentTiled bd.data (bd.addr e)
      (Extent.blockSize bd.data (bd.addr e) * bd.pageSize.bytes) (offs e) (dels e)) ∧
    DeleteLists bd i chain dels lists

/-- No document of less than five bytes is to be inserted as it is. -/
def StoreOp.NotShort : StoreOp → Prop
  | .insertRecord _ _ record mustOID position =>
    ¬ (record.bytes.length < minRecordDataSz ∧ mustOID = false ∧ position < 0)
  | _ => True

theorem deleteSlot_eq_iff {size slot : ℕ} (hpos : 0 < size) (h : size ≤ 2 ^ 32) :
    deleteSlot size = slot ↔ InSlot slot size := by
  cases slot with
  | zero =>
    rw [← Nat.le_zero, deleteSlot_le_iff hpos h]
    constructor
    · exact fun hle => .inl ⟨rfl, hle⟩
    · rintro (⟨-, hle⟩ | ⟨-, hle⟩) <;> exact hle
  | succ slot =>
    have hle := deleteSlot_le_iff hpos h (slot + 1)
    have hlt := deleteSlot_le_iff hpos h slot
    have hexp : slot + 1 + 4 = slot + 5 := rfl
    rw [InSlot, hexp]
    omega

/-! ## Extents without lost blocks -/

def Owned.NoTaken (o : Owned) : Prop := ∀ e ∈ o.added, o.contents.taken e = []

theorem Owned.Grows.noTaken {o o' : Owned} {l : List ℕ} (hg : o.Grows o' l) (h : o.NoTaken) :
    o'.NoTaken := by
  intro e he
  rw [hg.added_eq] at he
  rcases mem_append.mp he with he | he
  · rw [hg.taken_eq e he, h e he]
  · exact hg.taken_new e he

theorem Owned.Gets.noTaken {o o' : Owned} {x : ℕ} {r : Rec} (hg : o.Gets o' x r) (h : o.NoTaken) :
    o'.NoTaken := by
  intro e he
  rw [hg.taken_eq]
  exact h e (hg.added_eq ▸ he)

theorem BodyOk.map_blockAt {m : Mem} {a id pages size : ℕ} {recs : List Rec} {free taken : List Run}
    (h : BodyOk m a id pages size recs free taken) :
    (recs.map Rec.off).map (blockAt m a) = recs.map Rec.run ∧
      (free.map Run.start).map (blockAt m a) = free := by
  refine ⟨?_, ?_⟩
  · rw [List.map_map]
    refine map_congr_left fun r hr => ?_
    exact congrArg (Run.mk r.off) (h.rec_ok r hr).size_eq
  · rw [List.map_map]
    refine (map_congr_left fun f hf => ?_).trans (List.map_id free)
    exact congrArg (Run.mk f.start) (h.free_ok f hf).size_eq

theorem BodyOk.extentTiled {m : Mem} {a id pages size : ℕ} {recs : List Rec} {free : List Run}
    (h : BodyOk m a id pages size recs free []) (hsize : extentMetadataSz ≤ size) :
    ExtentTiled m a size (recs.map Rec.off) (free.map Run.start) where
  tiles := by
    rw [h.map_blockAt.1, h.map_blockAt.2]
    have htiles := h.tiles
    rw [append_nil] at htiles
    exact htiles.cons_zero (by decide) hsize
  first_eq := h.first_eq
  last_eq := h.last_eq
  linked := h.linked
  recCount_eq := by rw [h.recCount_eq, length_map]
  freeSpace_eq := by
    rw [h.freeSpace_eq, List.map_map]
    exact congrArg List.sum (map_congr_left fun f hf => (h.free_ok f hf).size_eq.symm)
  deleted := by
    intro o ho
    obtain ⟨f, hf, rfl⟩ := List.mem_map.mp ho
    have hok := h.free_ok f hf
    refine ⟨?_, hok.myOffset_eq, ?_, ?_⟩
    · simp [Record.isDeleted, hok.flag_eq]
    · rw [hok.size_eq]
      exact hok.min_le
    · rw [hok.size_eq]
      exact hok.le_max

namespace BlockData
variable {bd bd' : BlockData} {n : ℕ} {owned : ℕ → Owned} {i : ℕ}

theorem StoreOk.deleteLists (h : bd.StoreOk n owned) (hi : bd.InUse i) :
    DeleteLists bd i (bd.chains owned i) (fun e => ((owned i).contents.free e).map Run.start)
      (owned i).contents.dels := by
  have hcol := (h.slot i hi).col
  have hsize : ∀ e ∈ (owned i).added, ∀ f ∈ (owned i).contents.free e,
      Record.size bd.data (bd.addr e + f.start) = f.size ∧ 0 < f.size ∧ f.size ≤ recordMaxSz := by
    intro e he f hf
    have hok := (h.body hi he).free_ok f hf
    exact ⟨hok.size_eq, lt_of_lt_of_le (by decide) hok.min_le, hok.le_max⟩
  have hmem : ∀ j < maxSlot, ∀ rid, rid ∈ (owned i).contents.dels j ↔
      rid.extent ∈ bd.chains owned i ∧
        rid.offset ∈ ((owned i).contents.free rid.extent).map Run.start ∧
        InSlot j (Record.size bd.data (bd.addr rid.extent + rid.offset)) := by
    intro j hj rid
    rw [hcol.mem_dels j hj, h.mem_chains hi]
    refine and_congr_right fun he => ?_
    simp only [List.mem_map]
    constructor
    · rintro ⟨f, hf, hoff, hslot⟩
      obtain ⟨hsz, hpos, hmax⟩ := hsize _ he f hf
      refine ⟨⟨f, hf, hoff⟩, ?_⟩
      rw [← hoff, hsz]
      exact (deleteSlot_eq_iff hpos (hmax.trans (by decide))).mp hslot
    · rintro ⟨⟨f, hf, hoff⟩, hslot⟩
      obtain ⟨hsz, hpos, hmax⟩ := hsize _ he f hf
      rw [← hoff, hsz] at hslot
      exact ⟨f, hf, hoff, (deleteSlot_eq_iff hpos (hmax.trans (by decide))).mpr hslot⟩
  refine ⟨hcol.path, hcol.nodup, hmem, fun e he o ho => ?_⟩
  have he' := (h.mem_chains hi).mp he
  obtain ⟨f, hf, rfl⟩ := List.mem_map.mp ho
  obtain ⟨hsz, hpos, hmax⟩ := hsize e he' f hf
  have hslot := deleteSlot_lt hpos hmax
  refine ⟨deleteSlot f.size, ⟨hslot, ?_⟩, ?_⟩
  · exact (hcol.mem_dels _ hslot _).mpr ⟨he', f, hf, rfl, rfl⟩
  rintro j ⟨hj, hj'⟩
  obtain ⟨-, -, hin⟩ := (hmem j hj _).mp hj'
  rw [hsz] at hin
  exact ((deleteSlot_eq_iff hpos (hmax.trans (by decide))).mpr hin).symm

theorem StoreOk.tiled (h : bd.StoreOk n owned) (hi : bd.InUse i) (hno : (owned i).NoTaken) :
    bd.Tiled i := by
  refine ⟨_, fun e => ((owned i).contents.recs e).map Rec.off, _, _, h.isChain hi, fun e he => ?_,
    h.deleteLists hi⟩
  have he' := (h.mem_chains hi).mp he
  have hbody := h.body hi he'
  rw [hno e he'] at hbody
  rw [hbody.blockSize_eq]
  refine hbody.extentTiled ?_
  have hbytes : extentMetadataSz ≤ bd.pageSize.bytes := le_trans (by decide) bd.pageSize.le_bytes
  exact hbytes.trans (Nat.le_mul_of_pos_left _ ((h.slot i hi).col.pages_pos e he'))

theorem Outcome.noTaken {op : StoreOp} {rc : Rc} {owned' : ℕ → Owned}
    (ho : Outcome bd bd' owned op rc owned') (hop : op.NotShort)
    (h : ∀ i, bd.InUse i → (owned i).NoTaken) : ∀ i, bd'.InUse i → (owned' i).NoTaken := by
  have hupdate : ∀ {j : ℕ} {o : Owned}, o.NoTaken → (∀ k, bd'.InUse k → k ≠ j → bd.InUse k) →
      ∀ k, bd'.InUse k → (update owned j o k).NoTaken := by
    intro j o hno hin k hk
    by_cases hkj : k = j
    · rw [hkj, update_self]
      exact hno
    · rw [update_of_ne hkj]
      exact h k (hin k hk hkj)
  cases ho with
  | kept hrc hg =>
    intro i hi
    exact h i (((hg.sameCatalog 0).inUse_iff i).mp hi)
  | entered hp hg =>
    refine hupdate (hg.noTaken nofun) fun k hk hne => ?_
    exact ((hp.inUse_iff k).mp hk).resolve_left hne
  | extended hi hc hg =>
    exact hupdate (hg.noTaken (h _ hi)) fun k hk _ => (hc.inUse_iff k).mp hk
  | inserted hi hc hs hg hr =>
    exact hupdate (hr.noTaken (hg.noTaken (h _ hi))) fun k hk _ => (hc.inUse_iff k).mp hk
  | lost hi hc hs hg hl => exact absurd hs hop

theorem StoreOk.not_tiled (h : bd.StoreOk n owned) (hi : bd.InUse i) {e : ℕ}
    (he : e ∈ (owned i).added) (ht : (owned i).contents.taken e ≠ []) : ¬ bd.Tiled i := by
  rintro ⟨chain, offs, dels, lists, hchain, hext, -⟩
  obtain rfl := hchain.unique (h.isChain hi)
  have hbody := h.body hi he
  have htiled := hext e ((h.mem_chains hi).mpr he)
  have hlist : RecordList bd.data (bd.addr e) (offs e) := by
    rw [RecordList, htiled.first_eq]
    exact htiled.linked.forward
  have hdels : (((dels e).map (blockAt bd.data (bd.addr e))).map Run.size).sum =
      (((owned i).contents.free e).map Run.size).sum := by
    rw [List.map_map, ← hbody.freeSpace_eq]
    exact htiled.freeSpace_eq.symm
  have htotal := htiled.tiles.total_eq
  have hall := hbody.tiles.total_eq
  rw [hlist.unique hbody.recordList, hbody.blockSize_eq, map_cons, map_append,
    hbody.map_blockAt.1, sum_cons, sum_append, hdels] at htotal
  rw [map_append, map_append, sum_append, sum_append] at hall
  have hzero : (((owned i).contents.taken e).map Run.size).sum = 0 := by
    dsimp only at htotal
    omega
  obtain ⟨f, hf⟩ := exists_mem_of_ne_nil _ ht
  have hpos := hbody.tiles.pos f (mem_append_right _ hf)
  exact hpos.ne' (sum_eq_zero_iff.mp hzero _ (List.mem_map_of_mem hf))

end BlockData

/-- **Every extent is cut into its header, its records and its deleted records**, which are on their
lists, in every run without documents of less than five bytes. -/
theorem extents_tiled {bd : BlockData}
    (h : (storeSystem fun _ op => op.NotShort).Reachable bd) {i : ℕ} (hi : bd.InUse i) :
      bd.Tiled i := by
  have hinv : (storeSystem fun _ op => op.NotShort).Invariant fun bd =>
      ∃ n owned, bd.Sound n owned ∧ ∀ i, bd.InUse i → (owned i).NoTaken := by
    refine ⟨fun bd hnew => ⟨0, fun _ => BlockData.bare 0, hnew.sound _, fun i _ => nofun⟩, ?_⟩
    rintro bd bd' ⟨n, owned, hs, hno⟩ ⟨op, rc, hop, hrun⟩
    obtain ⟨n', owned', hs', hout⟩ := hs.run hrun
    exact ⟨n', owned', hs', hout.noTaken hop hno⟩
  obtain ⟨n, owned, hs, hno⟩ := hinv.reachable h
  exact hs.store.tiled hi (hno i hi)

/-- A collection with its first extent. -/
theorem extents_tiled_collection :
    ∃ (bd : BlockData) (i : ℕ), (bd.InUse i ∧ (bd.mme i).firstExtentID ≠ none) ∧ bd.Tiled i := by
  obtain ⟨bd, slot, n, owned, hreach, hs, hi, hne, -⟩ :=
    exists_collection (P := fun _ op => op.NotShort) fun _ => trivial
  exact ⟨bd, slot, ⟨hi, fun hnone => hne ((hs.store.firstExtentID_eq_none_iff hi).mp hnone)⟩,
    extents_tiled hreach hi⟩

/-- A document that is its length. -/
def shortDocument : BSONObj := ⟨[4, 0, 0, 0], by decide, by decide, by decide⟩

/-- A library that finds no `_id`, and calls that succeed. -/
def InsertEnv.allOk : InsertEnv where
  lib := ⟨fun _ => .ok .eoo, nofun, fun _ _ => rfl⟩
  ratio := ⟨id, fun _ => le_rfl⟩
  oid := fun _ => 0
  alloc := true
  os := fun _ => .allOk

/-- The context of the collection in slot `i`. -/
def BlockData.contextArgs (bd : BlockData) (i : ℕ) : ContextArgs :=
  ⟨i, (bd.mme i).logicalID, some .exclusive, true⟩

section Insert
variable {bd : BlockData} {n i : ℕ} {owned : ℕ → Owned} (h : bd.Sound n owned)
  (hroom : (n + 1) * bd.pageSize.segmentPages ≤ maxPg) (hi : bd.InUse i)
include h hroom hi

/-- Where there is room an accepted document is inserted, or it is short and space is lost. -/
theorem BlockData.Sound.insert_accepted (record : BSONObj) (mustOID : Bool)
    (hacc : InsertEnv.allOk.Accepts record mustOID (-1)) :
    ∃ (rc : Rc) (bd' : BlockData) (n' : ℕ) (o o' : Owned) (x : ℕ),
      (StoreOp.insertRecord (bd.contextArgs i) .allOk record mustOID (-1)).run bd = some (rc, bd') ∧
      bd.Changed bd' n' owned i o' ∧
      (rc = .ok ∧ (∃ r : Rec, InsertEnv.allOk.stored record mustOID = some (.ok r.data) ∧
          o.Gets o' x r) ∨
        rc = .invalidArg ∧ mustOID = false ∧ ∃ f, o.Loses o' x f) := by
  have hctx : bd.getMBContext i (bd.mme i).logicalID (some .exclusive) true = .ok _ :=
    getMBContext_eq hi.1 hi.2 ..
  have hvalid : (⟨i, (bd.mme i).logicalID, some .exclusive, none⟩ : MBContext).Valid bd.mme :=
    ⟨hi.1, hi.2, rfl, rfl⟩
  have hfail : ¬ (¬ InsertEnv.allOk.Accepts record mustOID (-1) ∨ bd.Stuck InsertEnv.allOk.os) :=
    fun hbad => hbad.elim (absurd hacc) (h.not_stuck hroom rfl)
  simp only [StoreOp.run, ContextArgs.call, contextArgs, hctx]
  rcases h.store.insertRecord h.synced hvalid .allOk record mustOID (-1) with
    ⟨ctx', n', o, o', l, x, r, bd', heq, hstored, hch, -, hgets, -⟩ |
    ⟨rc, ctx', n', bd', -, -, -, hbad⟩ |
    ⟨ctx', n', o, o', l, x, f, bd', heq, ⟨-, hoid, -⟩, hch, -, hloses⟩ | ⟨-, hbad⟩
  · exact ⟨_, bd', n', o, o', x, by rw [heq]; rfl, hch, .inl ⟨rfl, r, hstored, hgets⟩⟩
  · exact absurd hbad hfail
  · exact ⟨_, bd', n', o, o', x, by rw [heq]; rfl, hch, .inr ⟨rfl, hoid, f, hloses⟩⟩
  · exact absurd hbad hfail

theorem BlockData.Sound.insert_short :
    ∃ bd' n' o' x, (StoreOp.insertRecord (bd.contextArgs i) .allOk shortDocument false (-1)).run bd =
        some (.invalidArg, bd') ∧ bd'.StoreOk n' (update owned i o') ∧ bd'.InUse i ∧
      x ∈ o'.added ∧ o'.contents.taken x ≠ [] := by
  obtain ⟨rc, bd', n', o, o', x, hrun, hch, ⟨rfl, r, hstored, hgets⟩ | ⟨rfl, -, f, hloses⟩⟩ :=
    h.insert_accepted hroom hi shortDocument false ⟨_, rfl, by decide, by decide⟩
  · -- The record would have data of four bytes.
    have hlen : r.data.length < minRecordDataSz :=
      (InsertEnv.stored_short_iff hstored).mpr ⟨by decide, rfl⟩
    have hi' : bd'.InUse i := (hch.catalog.inUse_iff i).mpr hi
    have hbody := hch.store.body hi' (e := x) (by
      rw [update_self, hgets.added_eq]
      exact hgets.mem)
    have hmem : r ∈ (update owned i o' i).contents.recs x := by
      rw [update_self, hgets.recs_eq, update_self]
      exact mem_append_right _ (mem_singleton_self r)
    exact absurd (hbody.rec_ok r hmem).min_le (Nat.not_le.mpr hlen)
  · refine ⟨bd', n', o', x, hrun, hch.store, (hch.catalog.inUse_iff i).mpr hi, ?_, ?_⟩
    · rw [hloses.added_eq]
      exact hloses.mem
    · rw [hloses.taken_eq, update_self]
      exact cons_ne_nil _ _

end Insert

/-- A run in which an extent is not cut into its blocks any more. -/
theorem extents_not_tiled :
    ∃ (bd : BlockData) (i : ℕ), (storeSystem fun _ _ => True).Reachable bd ∧ bd.InUse i ∧
      ¬ bd.Tiled i := by
  obtain ⟨bd, slot, n, owned, hreach, hs, hi, -, hroom⟩ :=
    exists_collection (P := fun _ _ => True) fun _ => trivial
  obtain ⟨bd', n', o', x, hrun, hs', hi', hx, ht⟩ := hs.insert_short hroom hi
  refine ⟨bd', slot, .step hreach ⟨_, _, trivial, hrun⟩, hi', hs'.not_tiled hi' (e := x) ?_ ?_⟩
  · rwa [update_self]
  · rwa [update_self]

end Novachains.Dms
