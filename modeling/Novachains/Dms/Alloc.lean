import Novachains.Dms.Store

/-!
# Allocating extents and record space

`_allocateExtent` finds free pages and makes an extent of them; `_allocRecordSpace` takes a deleted
record that is large enough off its list and allocates an extent when there is none.

The objects that write the data mark it as dirty, and each mark writes back the metadata blocks. The
dirty bits are left out, and the marks of a call are one write-back at its end.
-/

namespace Novachains.Dms

open Lib Oss Function

namespace BlockData

/-- `_allocateExtent`. -/
def allocateExtent (os : ℕ → GrowOs) (bd : BlockData) (ctx : MBContext) (numPages : ℕ)
    (deepInit add2LoadList : Bool) : Option (Rc × MBContext × BlockData) :=
  if numPages > bd.pageSize.segmentPages ∨ numPages < 1 then some (.invalidArg, ctx, bd)
  else
    match ctx.mbLock (bd.mme ctx.mbID) .exclusive with
    | (.ok, ctx) =>
      match findFreeSpace os 2 bd (some ctx) numPages with
      | none => none
      | some (.error rc, ctx', bd) => some (rc, ctx'.getD ctx, bd)
      | some (.ok extID, ctx', bd) =>
        let ctx := ctx'.getD ctx
        let (rc, c) := (bd.col ctx.mbID).enterExtent ctx.mbLockType ctx.mbID extID numPages
          deepInit add2LoadList
        some (rc, ctx, (bd.setCol ctx.mbID c).markHeaderInvalid ctx.mbID)
    | (rc, ctx) => some (rc, ctx, bd)

def bestUpExtentSz : ℕ := 16 * 1024 * 1024

/-- The number of pages `_allocRecordSpace` asks for. -/
def reqPages (p : PageSize) (requiredSize : ℕ) : ℕ :=
  let expandSize := requiredSize <<< 4
  let expandSize :=
    if expandSize > bestUpExtentSz then
      if requiredSize < bestUpExtentSz then bestUpExtentSz else requiredSize
    else expandSize
  let reqPages := (expandSize + extentMetadataSz + p.bytes - 1) >>> p.square
  let reqPages := if reqPages > p.segmentPages then p.segmentPages else reqPages
  if reqPages < 1 then 1 else reqPages

/-- `_allocRecordSpace` from `retry` on, for at most `fuel` rounds. -/
def allocRetry (os : ℕ → GrowOs) :
    ℕ → BlockData → MBContext → ℕ → Option (Except Rc RecordID × MBContext × BlockData)
  | 0, _, _, _ => none
  | fuel + 1, bd, ctx, requiredSize =>
    let slot := deleteSlot requiredSize
    if slot ≥ maxSlot then some (.error .sys, ctx, bd)
    else
      let c := bd.col ctx.mbID
      match c.search requiredSize (List.range' slot (maxSlot - slot)) with
      | .error rc => some (.error rc, ctx, bd)
      | .ok (some (j, pre, rid)) =>
        let bd := bd.setCol ctx.mbID (c.takeDeleted j pre rid)
        some (.ok rid, ctx, bd.markHeaderInvalid ctx.mbID)
      | .ok none =>
        match bd.allocateExtent os ctx (reqPages bd.pageSize requiredSize) true false with
        | none => none
        | some (.ok, ctx, bd) => allocRetry os fuel bd ctx requiredSize
        | some (rc, ctx, bd) => some (.error rc, ctx, bd)

/-- `_allocRecordSpace`. -/
def allocRecordSpace (os : ℕ → GrowOs) (bd : BlockData) (ctx : MBContext) (requiredSize : ℕ) :
    Option (Except Rc RecordID × MBContext × BlockData) :=
  match ctx.mbLock (bd.mme ctx.mbID) .exclusive with
  | (.ok, ctx) => allocRetry os 2 bd ctx requiredSize
  | (rc, ctx) => some (.error rc, ctx, bd)

end BlockData

/-- `o'` has the extents of `o` as they are, and new ones without records. -/
structure Owned.Grows (o o' : Owned) (l : List ℕ) : Prop where
  mbEx_eq : o'.mbEx = o.mbEx
  added_eq : o'.added = o.added ++ l
  pages_eq : ∀ e ∈ o.added, o'.contents.pages e = o.contents.pages e
  recs_eq : ∀ e ∈ o.added, o'.contents.recs e = o.contents.recs e
  taken_eq : ∀ e ∈ o.added, o'.contents.taken e = o.contents.taken e
  recs_new : ∀ e ∈ l, o'.contents.recs e = []
  taken_new : ∀ e ∈ l, o'.contents.taken e = []

theorem Owned.Grows.has {o o' : Owned} {l : List ℕ} (h : o.Grows o' l) {p : ℕ} (hp : o.Has p) :
    o'.Has p := by
  rcases hp with hp | ⟨e, he, hp⟩
  · exact .inl (by rwa [h.mbEx_eq])
  · exact .inr ⟨e, by rw [h.added_eq]; exact List.mem_append_left _ he, by rwa [h.pages_eq e he]⟩

theorem Owned.Grows.rfl {o : Owned} : o.Grows o [] :=
  ⟨.refl _, (List.append_nil _).symm, fun _ _ => .refl _, fun _ _ => .refl _, fun _ _ => .refl _,
    nofun, nofun⟩

theorem Owned.grows_new {o : Owned} {x k b : ℕ} (hx : x ∉ o.added) (free : List Run)
    (dels : ℕ → List RecordID) :
    o.Grows ⟨o.mbEx, o.added ++ [x], (o.contents.new x k b).set x [] free [] dels⟩ [x] := by
  have hne : ∀ e ∈ o.added, e ≠ x := fun e he => ne_of_mem_of_not_mem he hx
  refine ⟨rfl, rfl, fun e he => ?_, fun e he => ?_, fun e he => ?_, ?_, ?_⟩
  · exact update_of_ne (hne e he) ..
  · simp [Contents.set, Contents.new, hne e he]
  · simp [Contents.set, Contents.new, hne e he]
  · simp
  · simp

namespace BlockData

/-- The catalog is the same; only the chain, delete lists and counters of slot `i` may differ. -/
structure SameCatalog (bd bd' : BlockData) (i : ℕ) : Prop where
  names_eq : bd'.collectionNameMap = bd.collectionNameMap
  ids_eq : bd'.collectionIDMap = bd.collectionIDMap
  numMB_eq : bd'.header.numMB = bd.header.numMB
  pageSize_eq : bd'.pageSize = bd.pageSize
  block : bd'.mme i = { bd.mme i with
    firstExtentID := (bd'.mme i).firstExtentID
    lastExtentID := (bd'.mme i).lastExtentID
    deleteList := (bd'.mme i).deleteList
    totals := (bd'.mme i).totals }
  others : ∀ j, j ≠ i → bd'.mme j = bd.mme j

/-- The pages reserved between `bd` and `bd'` belong to `o`. -/
def Fills (bd bd' : BlockData) (o : Owned) : Prop :=
  ∀ p, ¬ bd'.smeMgr.sme.Free p → ¬ bd.smeMgr.sme.Free p ∨ o.Has p

/-- What a call leaves that gives the collection in slot `i` what `o` says. -/
structure Changed (bd bd' : BlockData) (n : ℕ) (owned : ℕ → Owned) (i : ℕ) (o : Owned) : Prop where
  store : bd'.StoreOk n (update owned i o)
  synced : bd'.Synced
  catalog : bd.SameCatalog bd' i
  fills : bd.Fills bd' o

structure Kept (bd bd' : BlockData) (n : ℕ) (owned : ℕ → Owned) : Prop where
  store : bd'.StoreOk n owned
  grown : bd.Grown bd'
  free_iff : ∀ p, bd'.smeMgr.sme.Free p ↔ bd.smeMgr.sme.Free p

section Catalog
variable {bd bd' bd'' : BlockData} {i n : ℕ} {owned : ℕ → Owned} {c : Col} {o : Owned}

theorem Grown.sameCatalog (h : bd.Grown bd') (i : ℕ) : bd.SameCatalog bd' i :=
  ⟨h.names_eq, h.ids_eq, h.numMB_eq, h.pageSize_eq, by rw [h.mme_eq],
    fun j _ => by rw [h.mme_eq]⟩

theorem SameCatalog.trans (h : bd.SameCatalog bd' i) (h' : bd'.SameCatalog bd'' i) :
    bd.SameCatalog bd'' i :=
  ⟨h'.names_eq.trans h.names_eq, h'.ids_eq.trans h.ids_eq, h'.numMB_eq.trans h.numMB_eq,
    h'.pageSize_eq.trans h.pageSize_eq, by rw [h'.block, h.block],
    fun j hj => (h'.others j hj).trans (h.others j hj)⟩

theorem SameCatalog.valid {ctx : MBContext} (h : bd.SameCatalog bd' ctx.mbID)
    (hctx : ctx.Valid bd.mme) : ctx.Valid bd'.mme :=
  ⟨hctx.mbID_lt, by rw [h.block]; exact hctx.inUse, by rw [h.block]; exact hctx.clLID_eq,
    hctx.resumeType_eq⟩

theorem SameCatalog.inUse_iff (h : bd.SameCatalog bd' i) (j : ℕ) : bd'.InUse j ↔ bd.InUse j := by
  rw [InUse]
  by_cases hj : j = i
  · rw [hj, h.block]
    rfl
  · rw [h.others j hj, InUse]

theorem NoLeak.changed (h : bd.NoLeak owned) (hi : bd.InUse i) (hc : bd.Changed bd' n owned i o)
    (hgrow : ∀ p, (owned i).Has p → o.Has p) : bd'.NoLeak (update owned i o) := by
  intro p hp
  have hmine : o.Has p → ∃ j, bd'.InUse j ∧ (update owned i o j).Has p := fun ho =>
    ⟨i, (hc.catalog.inUse_iff i).mpr hi, by rwa [update_self]⟩
  rcases hc.fills p hp with hold | hnew
  · obtain ⟨j, hj, hown⟩ := h p hold
    by_cases hji : j = i
    · subst hji
      exact hmine (hgrow p hown)
    · exact ⟨j, (hc.catalog.inUse_iff j).mpr hj, by rwa [update_of_ne hji]⟩
  · exact hmine hnew

theorem NoLeak.kept (h : bd.NoLeak owned) (hk : bd.Kept bd' n owned) : bd'.NoLeak owned := by
  intro p hp
  rw [hk.free_iff] at hp
  obtain ⟨i, hi, hown⟩ := h p hp
  exact ⟨i, by rwa [InUse, hk.grown.mme_eq], hown⟩

theorem Kept.synced (h : bd.Kept bd' n owned) (hs : bd.Synced) : bd'.Synced := fun i hi => by
  rw [InUse, h.grown.mme_eq] at hi
  rw [h.grown.mme_eq, h.grown.stat_eq]
  exact hs i hi

/-- **A call on one collection and the write-back at its end.** -/
theorem StoreOk.commit (h : bd.StoreOk n owned) (hs : bd.Synced) (hi : bd.InUse i)
    (htouch : (bd.col i).Touches c o.mbEx o.added o.contents.pages)
    (hok : c.ColOk o.mbEx o.added o.contents)
    (hcounts : Col.CountsOk c.stat.totals o.added o.contents.recs)
    (hnew : ∀ p, o.Has p → (owned i).Has p ∨ ¬ bd.smeMgr.sme.Free p ∧
      ∀ j, bd.InUse j → j ≠ i → ¬ (owned j).Has p) :
    ((bd.setCol i c).markHeaderInvalid i).StoreOk n (Function.update owned i o) ∧
      ((bd.setCol i c).markHeaderInvalid i).Synced ∧
      bd.SameCatalog ((bd.setCol i c).markHeaderInvalid i) i ∧
      ((bd.setCol i c).markHeaderInvalid i).data = c.data ∧
      ((bd.setCol i c).markHeaderInvalid i).mme i = { c.mb with
        totals := (((bd.setCol i c).markHeaderInvalid i).mme i).totals } := by
  have hupd := h.update hi htouch hok hcounts hnew
  have hmb : (bd.setCol i c).mme i = c.mb := update_self ..
  have huse : (bd.setCol i c).InUse i := by
    refine ⟨hi.1, ?_⟩
    rw [hmb, htouch.mb_eq]
    exact hi.2
  obtain ⟨hstore, hsync⟩ := hupd.markHeaderInvalid huse
  refine ⟨hstore, hsync, ?_⟩
  obtain ⟨mme, msync, dirtyList, heq, hmme, hkeep, -⟩ := (bd.setCol i c).markHeaderInvalid_eq i
  rw [heq] at hsync ⊢
  refine ⟨⟨rfl, rfl, rfl, rfl, ?_, fun j hj => ?_⟩, rfl, by rw [← hmb]; exact hmme i⟩
  · change mme i = { bd.mme i with
      firstExtentID := (mme i).firstExtentID
      lastExtentID := (mme i).lastExtentID
      deleteList := (mme i).deleteList
      totals := (mme i).totals }
    rw [hmme i, hmb, htouch.mb_eq]
    rfl
  · -- The counters of another collection were up to date already.
    have hother : (bd.setCol i c).mme j = bd.mme j := update_of_ne hj ..
    have hstat : (bd.setCol i c).mbStatInfo j = bd.mbStatInfo j := update_of_ne hj ..
    refine (hkeep j fun hu => ?_).trans hother
    rw [InUse, hother] at hu
    rw [hother, hstat]
    exact hs j hu

end Catalog

section Extent
variable {bd : BlockData} {n : ℕ} {owned : ℕ → Owned} {ctx : MBContext}

/-- The large record of a new extent is the first of its list, so that it can be found again. -/
def Roomy (bd : BlockData) (i numPages : ℕ) : Prop :=
  ∀ useable, useable + extentMetadataSz = numPages * bd.pageSize.bytes →
    (useable ≤ recordMaxSz ∨ recordMaxSz + minRecordSz ≤ useable ∧
      useable < recordMaxSz + 2 ^ 16) →
    ∃ rid, (bd.mme i).deleteList (deleteSlot (min useable recordMaxSz)) = some rid ∧
      Record.size bd.data ((bd.col i).recordAddr rid) = min useable recordMaxSz

theorem Found.newPages {bd' : BlockData} {n' k page i : ℕ} {o : Owned}
    (hf : bd.Found bd' n' k page) (hcol : (bd.col i).ColOk o.mbEx o.added o.contents)
    (hres : ∀ p, o.Has p → ¬ bd.smeMgr.sme.Free p) (h0 : 0 < k)
    (hk : k ≤ bd.pageSize.segmentPages) :
    (bd'.col i).NewPages o.mbEx o.added o.contents page k := by
  have hps := hf.grown.pageSize_eq
  have hap : ∀ {b l}, 0 < l → (∀ p, b ≤ p → p < b + l → o.Has p) →
      page + k ≤ b ∨ b + l ≤ page := fun hl hown => runs_apart h0 hl fun p h1 h2 h3 =>
    hres p (hown p h3.1 h3.2) (hf.free p h1 h2)
  refine ⟨h0, ?_, ?_, ?_, fun e he => ?_⟩
  · change k ≤ bd'.pageSize.segmentPages
    rwa [hps]
  · change page + k ≤ bd'.mappedPages
    rw [hf.agrees.mappedPages_eq, hps]
    exact hf.within
  · rw [PageSize.mbExSize_eq]
    exact hap (by decide) fun p h1 h2 => .inl ⟨h1, h2⟩
  · exact (hap (hcol.pages_pos e he) fun p h1 h2 => .inr ⟨e, he, h1, h2⟩).symm

theorem StoreOk.allocateFound (h : bd.StoreOk n owned) (hs : bd.Synced) (hctx : ctx.Valid bd.mme)
    {os : ℕ → GrowOs} {numPages page n' : ℕ} {bd₁ : BlockData} (h0 : 0 < numPages)
    (hk : numPages ≤ bd.pageSize.segmentPages)
    (heq : BlockData.findFreeSpace os 2 bd (some ctx.exclusive) numPages =
      some (.ok page, some ctx.exclusive, bd₁))
    (hf : bd.Found bd₁ n' numPages page) (hle : n ≤ n') :
    ∃ o x bd', bd.allocateExtent os ctx numPages true false =
        some (.ok, ctx.exclusive, bd') ∧
      bd.Changed bd' n' owned ctx.mbID o ∧ (owned ctx.mbID).Grows o [x] ∧
      bd'.Roomy ctx.mbID numPages := by
  have hi : bd.InUse ctx.mbID := ⟨hctx.mbID_lt, hctx.inUse⟩
  unfold BlockData.allocateExtent
  rw [if_neg (by omega), hctx.mbLock]
  dsimp only
  rw [heq]
  dsimp only [Option.getD]
  have hsub : ∀ p, bd₁.smeMgr.sme.Free p → bd.smeMgr.sme.Free p := fun p hp => by
    rw [hf.sme_eq, SME.free_setRange] at hp
    exact hp.1
  have h₁ := h.grown hf.grown hf.agrees hle hf.freePos_le hsub
  have hs₁ : bd₁.Synced := fun j hj => by
    rw [InUse, hf.grown.mme_eq] at hj
    rw [hf.grown.mme_eq, hf.grown.stat_eq]
    exact hs j hj
  have hi₁ : bd₁.InUse ctx.mbID := by rwa [InUse, hf.grown.mme_eq]
  have hslot := h₁.slot _ hi₁
  have hnew := hf.newPages (h.slot _ hi).col (h.slot _ hi).reserved h0 hk
  obtain ⟨c, free, dels, henter, hok, -, htouch, htot, hroom⟩ := hslot.col.enterExtent hnew
  have hid : (bd₁.col ctx.mbID).mb.blockID = ctx.mbID := hslot.blockID_eq
  rw [hid] at henter
  rw [henter]
  have hgrows := Owned.grows_new (o := owned ctx.mbID) (x := page) (k := numPages)
    (b := bd₁.pageSize.bytes) (hnew.not_mem hslot.col) free dels
  have hcounts : Col.CountsOk c.stat.totals ((owned ctx.mbID).added ++ [page])
      (((owned ctx.mbID).contents.new page numPages bd₁.pageSize.bytes).set page [] free []
        dels).recs := by
    rw [htot]
    exact hslot.counts.grow hgrows.recs_eq (hgrows.recs_new page (by simp)) _
  have hhas : ∀ p, (⟨(owned ctx.mbID).mbEx, (owned ctx.mbID).added ++ [page],
      ((owned ctx.mbID).contents.new page numPages bd₁.pageSize.bytes).set page [] free [] dels⟩ :
      Owned).Has p → (owned ctx.mbID).Has p ∨ ¬ bd₁.smeMgr.sme.Free p ∧
      ∀ j, bd₁.InUse j → j ≠ ctx.mbID → ¬ (owned j).Has p := by
    rintro p (hp | ⟨e, he, hp⟩)
    · exact .inl (.inl hp)
    rcases List.mem_append.mp he with he | he
    · refine .inl (.inr ⟨e, he, ?_⟩)
      rwa [hgrows.pages_eq e he] at hp
    obtain rfl := List.mem_singleton.mp he
    have hpages : ((owned ctx.mbID).contents.new e numPages bd₁.pageSize.bytes).pages e =
        numPages := update_self ..
    have hp' : e ≤ p ∧ p < e + numPages := hpages ▸ hp
    refine .inr ⟨?_, fun j hj _ hown => ?_⟩
    · rw [hf.sme_eq, SME.free_setRange]
      exact fun hfree => hfree.2 hp'
    · rw [InUse, hf.grown.mme_eq] at hj
      exact (h.slot j hj).reserved p hown (hf.free p hp'.1 hp'.2)
  obtain ⟨hstore, hsync, hcat, hdata, hmb⟩ := h₁.commit hs₁ hi₁ htouch hok hcounts hhas
  refine ⟨_, page, _, rfl, ⟨hstore, hsync, (hf.grown.sameCatalog _).trans hcat, fun p hp => ?_⟩,
    hgrows, fun useable hu hlarge => ?_⟩
  · rw [smeMgr_markHeaderInvalid] at hp
    change ¬ bd₁.smeMgr.sme.Free p at hp
    rw [hf.sme_eq, SME.free_setRange, not_and, not_not] at hp
    refine (Classical.em _).symm.imp id fun hfree => .inr ⟨page, by simp, ?_⟩
    have hpages : ((owned ctx.mbID).contents.new page numPages bd₁.pageSize.bytes).pages page =
        numPages := update_self ..
    exact hpages.symm ▸ hp hfree
  rw [hcat.pageSize_eq] at hu
  obtain ⟨rid, hhead, hsize⟩ := hroom useable hu hlarge
  refine ⟨rid, by rw [hmb]; exact hhead, ?_⟩
  have haddr : (((bd₁.setCol ctx.mbID c).markHeaderInvalid ctx.mbID).col ctx.mbID).recordAddr rid =
      (bd₁.col ctx.mbID).recordAddr rid :=
    congrArg (fun p : PageSize => rid.extent * p.bytes + rid.offset) hcat.pageSize_eq
  rw [hdata, haddr]
  exact hsize

/-- **What `_allocateExtent` does**: a new extent, a failure that leaves everything, or a panic. -/
theorem StoreOk.allocateExtent (h : bd.StoreOk n owned) (hs : bd.Synced) (hctx : ctx.Valid bd.mme)
    (os : ℕ → GrowOs) (numPages : ℕ) :
    (∃ n' o x bd', bd.allocateExtent os ctx numPages true false =
        some (.ok, ctx.exclusive, bd') ∧
      bd.Changed bd' n' owned ctx.mbID o ∧ (owned ctx.mbID).Grows o [x] ∧
      bd'.Roomy ctx.mbID numPages ∧ n' ≤ n + 1) ∨
    (∃ rc ctx' n' bd', bd.allocateExtent os ctx numPages true false = some (rc, ctx', bd') ∧
      rc ≠ .ok ∧ bd.Kept bd' n' owned ∧
      (numPages > bd.pageSize.segmentPages ∨ numPages < 1 ∨ bd.Stuck os)) ∨
    (bd.allocateExtent os ctx numPages true false = none ∧ bd.Stuck os) := by
  by_cases hbad : numPages > bd.pageSize.segmentPages ∨ numPages < 1
  · rw [BlockData.allocateExtent, if_pos hbad]
    exact .inr (.inl ⟨_, _, n, bd, rfl, by decide, ⟨h, .rfl, fun _ => .rfl⟩, by omega⟩)
  rcases h.agrees.findFreeSpace (k := numPages) h.freePos_le (by omega) (by omega) os
      hctx.forall_exclusive with
    ⟨page, n', bd₁, heq, hf, hle, hle'⟩ | ⟨rc, bd₁, heq, hne, hst, hagr, hfp, hg, hsme⟩ | ⟨heq, hst⟩
  · left
    obtain ⟨o, x, bd', heq', hch, hgrows, hroom⟩ :=
      h.allocateFound hs hctx (by omega) (by omega) heq hf hle
    exact ⟨n', o, x, bd', heq', hch, hgrows, hroom, hle'⟩
  · right
    left
    rw [BlockData.allocateExtent, if_neg hbad, hctx.mbLock]
    dsimp only
    rw [heq]
    have hfree : ∀ p, bd₁.smeMgr.sme.Free p ↔ bd.smeMgr.sme.Free p := fun p => by rw [hsme]
    exact ⟨rc, _, n, bd₁, rfl, hne, ⟨h.grown hg hagr le_rfl hfp fun p => (hfree p).mp, hg, hfree⟩,
      .inr (.inr hst)⟩
  · right
    right
    rw [BlockData.allocateExtent, if_neg hbad, hctx.mbLock]
    dsimp only
    rw [heq]
    exact ⟨rfl, hst⟩

theorem StoreOk.allocateExtent_ok_iff (h : bd.StoreOk n owned) (hs : bd.Synced)
    (hctx : ctx.Valid bd.mme) (os : ℕ → GrowOs) {numPages : ℕ} (h0 : 0 < numPages) :
    (∃ ctx' bd', bd.allocateExtent os ctx numPages true false = some (.ok, ctx', bd')) ↔
      numPages ≤ bd.pageSize.segmentPages ∧ ∃ page bd',
        BlockData.findFreeSpace os 2 bd (some ctx.exclusive) numPages =
          some (.ok page, some ctx.exclusive, bd') := by
  by_cases hk : numPages ≤ bd.pageSize.segmentPages
  swap
  · rw [BlockData.allocateExtent, if_pos (.inl (Nat.not_le.mp hk))]
    exact ⟨by simp, fun hle => absurd hle.1 hk⟩
  rcases h.agrees.findFreeSpace (k := numPages) h.freePos_le h0 hk os hctx.forall_exclusive with
    ⟨page, n', bd₁, heq, hf, hle, -⟩ | ⟨rc, bd₁, heq, hne, -⟩ | ⟨heq, -⟩
  · obtain ⟨o, x, bd', heq', -⟩ := h.allocateFound hs hctx h0 hk heq hf hle
    exact ⟨fun _ => ⟨hk, page, bd₁, heq⟩, fun _ => ⟨_, bd', heq'⟩⟩
  · rw [BlockData.allocateExtent, if_neg (by omega), hctx.mbLock, heq]
    dsimp only
    rw [heq]
    simp [hne]
  · rw [BlockData.allocateExtent, if_neg (by omega), hctx.mbLock, heq]
    dsimp only
    rw [heq]
    simp

end Extent

/-! ## Record space -/

theorem reqPages_pos (p : PageSize) (required : ℕ) : 1 ≤ reqPages p required := by
  unfold reqPages
  dsimp only
  split_ifs <;> omega

theorem reqPages_le (p : PageSize) (required : ℕ) : reqPages p required ≤ p.segmentPages := by
  have := p.segmentPages_pos
  unfold reqPages
  dsimp only
  split_ifs <;> omega

theorem reqPages_spec (p : PageSize) {required : ℕ} (h0 : 0 < required)
    (hmax : required ≤ recordMaxSz) :
    ∃ useable, useable + extentMetadataSz = reqPages p required * p.bytes ∧
      required ≤ min useable recordMaxSz ∧
      (useable ≤ recordMaxSz ∨ recordMaxSz + minRecordSz ≤ useable ∧
        useable < recordMaxSz + 2 ^ 16) := by
  have h36 : extentMetadataSz = 36 := rfl
  have h36' : minRecordSz = 36 := rfl
  have hm : recordMaxSz = 16777216 := rfl
  have hb : bestUpExtentSz = 16777216 := rfl
  obtain ⟨e, he, hle, hge⟩ : ∃ e, (if required <<< 4 > bestUpExtentSz then
      if required < bestUpExtentSz then bestUpExtentSz else required else required <<< 4) = e ∧
      e ≤ recordMaxSz ∧ required ≤ e := by
    refine ⟨_, rfl, ?_, ?_⟩ <;> rw [Nat.shiftLeft_eq] <;> split_ifs <;> omega
  -- The pages cover the size and the header, and less than a page is left.
  obtain ⟨q, hq, hlo, hhi⟩ : ∃ q, (e + extentMetadataSz + p.bytes - 1) >>> p.square = q ∧
      e + extentMetadataSz ≤ q * p.bytes ∧ q * p.bytes < e + extentMetadataSz + p.bytes := by
    refine ⟨_, rfl, ?_⟩
    rw [Nat.shiftRight_eq_div_pow, ← PageSize.bytes_eq]
    have h1 := Nat.div_add_mod (e + extentMetadataSz + p.bytes - 1) p.bytes
    have h2 := Nat.mod_lt (e + extentMetadataSz + p.bytes - 1) p.bytes_pos
    have h3 := p.bytes_pos
    rw [mul_comm] at h1
    omega
  have hreq : reqPages p required = q := by
    have hsp := p.segmentPages_mul_bytes
    have hsz : segmentSz = 134217728 := rfl
    have hbytes := p.bytes_le
    have hqle : q ≤ p.segmentPages :=
      Nat.le_of_mul_le_mul_right (by omega) p.bytes_pos
    have hqpos : q ≠ 0 := by
      rintro rfl
      omega
    unfold reqPages
    dsimp only
    rw [he, hq, if_neg (Nat.not_lt.mpr hqle), if_neg (by omega)]
  rw [hreq]
  refine ⟨q * p.bytes - extentMetadataSz, by omega, by omega, ?_⟩
  cases p <;> simp only [PageSize.bytes] at hlo hhi ⊢ <;> omega

section Space
variable {bd : BlockData} {n : ℕ} {owned : ℕ → Owned} {ctx : MBContext} {required : ℕ}

/-- A deleted record has been taken off its list for a record of the size; `o` is what the
collection has besides. -/
structure Taken (bd bd' : BlockData) (n : ℕ) (owned : ℕ → Owned) (i required : ℕ) (o : Owned)
    (rid : RecordID) (f : Run) : Prop where
  mem : rid.extent ∈ o.added
  offset_eq : f.start = rid.offset
  le_size : required ≤ f.size
  store : ∃ j l, bd'.StoreOk n (update owned i
    ⟨o.mbEx, o.added, o.contents.take rid.extent f j l⟩)
  fills : bd.Fills bd' o
  synced : bd'.Synced
  catalog : bd.SameCatalog bd' i
  free : FreeOk bd'.data ((bd'.col i).recordAddr rid) f

theorem StoreOk.takeDeleted (h : bd.StoreOk n owned) (hs : bd.Synced) {i j : ℕ} (hi : bd.InUse i)
    (hj : j < maxSlot) {k l : List RecordID} {rid : RecordID}
    (hd : (owned i).contents.dels j = k ++ rid :: l)
    (hle : required ≤ Record.size bd.data ((bd.col i).recordAddr rid)) :
    ∃ f, bd.Taken ((bd.setCol i ((bd.col i).takeDeleted j k.getLast? rid)).markHeaderInvalid i) n
      owned i required (owned i) rid f := by
  have hslot := h.slot i hi
  obtain ⟨f, hf, hoff, hok, hfok⟩ := hslot.col.take hj hd
  obtain ⟨htouch, hstat⟩ := hslot.col.touches_take hj hd
  have hmem := (hslot.col.mem_free hj (show rid ∈ (owned i).contents.dels j by rw [hd]; simp)).1
  have hsize : Record.size bd.data ((bd.col i).recordAddr rid) = f.size := by
    rw [Col.recordAddr, ← hoff]
    exact ((hslot.col.body _ hmem).free_ok f hf).size_eq
  have hrecs : ((owned i).contents.take rid.extent f j (k ++ l)).recs = (owned i).contents.recs :=
    update_eq_self ..
  obtain ⟨hstore, hsync, hcat, hdata, -⟩ := h.commit hs hi
    (o := ⟨(owned i).mbEx, (owned i).added, (owned i).contents.take rid.extent f j (k ++ l)⟩)
    htouch hok (by rw [hstat, hrecs]; exact hslot.counts) fun p hp => .inl hp
  refine ⟨f, hmem, hoff, hle.trans hsize.le, ⟨j, k ++ l, hstore⟩, fun p hp => .inl ?_, hsync, hcat,
    ?_⟩
  · rwa [smeMgr_markHeaderInvalid] at hp
  have haddr : (((bd.setCol i ((bd.col i).takeDeleted j k.getLast? rid)).markHeaderInvalid i).col
      i).recordAddr rid = (bd.col i).recordAddr rid :=
    congrArg (fun p : PageSize => rid.extent * p.bytes + rid.offset) hcat.pageSize_eq
  rw [hdata, haddr]
  exact hfok

theorem Roomy.exists_large {p : PageSize} {i : ℕ} (h : bd.Roomy i (reqPages p required))
    (hps : bd.pageSize = p) (h0 : 0 < required) (hmax : required ≤ recordMaxSz) :
    ∃ j rid, deleteSlot required ≤ j ∧ j < maxSlot ∧ (bd.mme i).deleteList j = some rid ∧
      required ≤ Record.size bd.data ((bd.col i).recordAddr rid) := by
  obtain ⟨useable, hu, hreq, hlarge⟩ := reqPages_spec p h0 hmax
  obtain ⟨rid, hhead, hsize⟩ := h useable (by rw [hps]; exact hu) hlarge
  have hpos : 0 < min useable recordMaxSz := h0.trans_le hreq
  have hle : min useable recordMaxSz ≤ recordMaxSz := min_le_right _ _
  have h32 : recordMaxSz ≤ 2 ^ 32 := by decide
  have hslot := (deleteSlot_le_iff hpos (hle.trans h32) _).mp le_rfl
  exact ⟨_, rid, (deleteSlot_le_iff h0 (hmax.trans h32) _).mpr (hreq.trans hslot),
    deleteSlot_lt hpos hle, hhead, hreq.trans hsize.ge⟩

theorem allocRetry_cases {o : Owned} (ctx : MBContext)
    (hcol : (bd.col ctx.mbID).ColOk o.mbEx o.added o.contents) (h0 : 0 < required)
    (hmax : required ≤ recordMaxSz) (os : ℕ → GrowOs) :
    (∃ j k rid l, j < maxSlot ∧ o.contents.dels j = k ++ rid :: l ∧
      required ≤ Record.size bd.data ((bd.col ctx.mbID).recordAddr rid) ∧
      ∀ fuel, allocRetry os (fuel + 1) bd ctx required = some (.ok rid, ctx,
        (bd.setCol ctx.mbID
          ((bd.col ctx.mbID).takeDeleted j k.getLast? rid)).markHeaderInvalid ctx.mbID)) ∨
    ((∀ j, deleteSlot required ≤ j → j < maxSlot → ∀ rid ∈ (bd.mme ctx.mbID).deleteList j,
        Record.size bd.data ((bd.col ctx.mbID).recordAddr rid) < required) ∧
      ∀ fuel, allocRetry os (fuel + 1) bd ctx required =
        match bd.allocateExtent os ctx (reqPages bd.pageSize required) true false with
        | none => none
        | some (.ok, ctx, bd) => allocRetry os fuel bd ctx required
        | some (rc, ctx, bd) => some (.error rc, ctx, bd)) := by
  have hslot := deleteSlot_lt h0 hmax
  rcases hcol.search_spec required (List.range' (deleteSlot required) (maxSlot - deleteSlot required))
      fun j hj => by have := List.mem_range'_1.mp hj; omega with
    ⟨j, k, rid, l, heq, hj, hd, hle⟩ | ⟨heq, hall⟩
  · left
    have hj' := List.mem_range'_1.mp hj
    refine ⟨j, k, rid, l, by omega, hd, hle, fun fuel => ?_⟩
    rw [allocRetry]
    dsimp only
    rw [if_neg (Nat.not_le.mpr hslot), heq]
  · right
    refine ⟨fun j hj hj' rid hr => hall j (List.mem_range'_1.mpr (by omega)) rid ?_,
      fun fuel => ?_⟩
    · rwa [← (hcol.path j hj').head?]
    · rw [allocRetry]
      dsimp only
      rw [if_neg (Nat.not_le.mpr hslot), heq]

theorem StoreOk.allocRound (h : bd.StoreOk n owned) (hs : bd.Synced) (ctx : MBContext)
    (hi : bd.InUse ctx.mbID) (h0 : 0 < required) (hmax : required ≤ recordMaxSz) (os : ℕ → GrowOs)
    (fuel : ℕ) :
    (∃ rid f bd', allocRetry os (fuel + 1) bd ctx required = some (.ok rid, ctx, bd') ∧
      bd.Taken bd' n owned ctx.mbID required (owned ctx.mbID) rid f) ∨
    ((∀ j, deleteSlot required ≤ j → j < maxSlot → ∀ rid ∈ (bd.mme ctx.mbID).deleteList j,
        Record.size bd.data ((bd.col ctx.mbID).recordAddr rid) < required) ∧
      allocRetry os (fuel + 1) bd ctx required =
        match bd.allocateExtent os ctx (reqPages bd.pageSize required) true false with
        | none => none
        | some (.ok, ctx, bd) => allocRetry os fuel bd ctx required
        | some (rc, ctx, bd) => some (.error rc, ctx, bd)) := by
  rcases allocRetry_cases ctx (h.slot _ hi).col h0 hmax os with
    ⟨j, k, rid, l, hj, hd, hle, heq⟩ | ⟨hall, heq⟩
  · left
    obtain ⟨f, hf⟩ := h.takeDeleted hs hi hj hd hle
    exact ⟨rid, f, _, heq fuel, hf⟩
  · exact .inr ⟨hall, heq fuel⟩

/-- **What `_allocRecordSpace` does.**  After an extent has been allocated the search finds a record
in it. -/
theorem StoreOk.allocRecordSpace (h : bd.StoreOk n owned) (hs : bd.Synced)
    (hctx : ctx.Valid bd.mme) (h0 : 0 < required) (hmax : required ≤ recordMaxSz)
    (os : ℕ → GrowOs) :
    (∃ rid f n' o l bd', bd.allocRecordSpace os ctx required =
        some (.ok rid, ctx.exclusive, bd') ∧
      (owned ctx.mbID).Grows o l ∧ bd.Taken bd' n' owned ctx.mbID required o rid f ∧ n' ≤ n + 1) ∨
    (∃ rc ctx' n' bd', bd.allocRecordSpace os ctx required = some (.error rc, ctx', bd') ∧
      rc ≠ .ok ∧ bd.Kept bd' n' owned ∧ bd.Stuck os) ∨
    (bd.allocRecordSpace os ctx required = none ∧ bd.Stuck os) := by
  have hctx' := hctx.setLock (some .exclusive)
  have hi : bd.InUse ctx.mbID := ⟨hctx.mbID_lt, hctx.inUse⟩
  unfold BlockData.allocRecordSpace
  rw [hctx.mbLock]
  dsimp only
  rcases h.allocRound hs ctx.exclusive hi h0 hmax os 1 with
    ⟨rid, f, bd', heq, htaken⟩ | ⟨-, heq⟩
  · exact .inl ⟨rid, f, n, _, [], bd', heq, .rfl, htaken, Nat.le_succ n⟩
  rw [heq]
  rcases h.allocateExtent hs hctx' os (reqPages bd.pageSize required) with
    ⟨n₁, o, x, bd₁, heq₁, ⟨hstore, hsync, hcat, hfills⟩, hgrows, hroom, hle₁⟩ |
    ⟨rc, ctx₁, n₁, bd₁, heq₁, hne, hkept, hwhy⟩ | ⟨heq₁, hst⟩
  · left
    rw [heq₁]
    have hi₁ : bd₁.InUse ctx.mbID := ⟨hi.1, by rw [hcat.block]; exact hi.2⟩
    rcases hstore.allocRound hsync ctx.exclusive hi₁ h0 hmax os 0 with
      ⟨rid, f, bd', heq₂, htaken⟩ | ⟨hall, -⟩
    · refine ⟨rid, f, n₁, o, [x], bd', heq₂, hgrows, ?_, hle₁⟩
      obtain ⟨hmem, hoff, hle, ⟨j, l, hst⟩, hfills', hsy, hc, hfree⟩ := htaken
      rw [update_self] at hmem hfills'
      rw [update_idem, update_self] at hst
      exact ⟨hmem, hoff, hle, ⟨j, l, hst⟩, fun p hp => (hfills' p hp).elim (hfills p) .inr, hsy,
        hcat.trans hc, hfree⟩
    · -- The large record of the new extent was not found: but it is large enough.
      exfalso
      obtain ⟨j, rid, hj, hj', hhead, hsize⟩ := hroom.exists_large hcat.pageSize_eq h0 hmax
      exact absurd (hall j hj hj' rid hhead) (Nat.not_lt.mpr hsize)
  · right
    left
    rw [heq₁]
    have hst : bd.Stuck os := by
      have hpos := reqPages_pos bd.pageSize required
      have hmax := reqPages_le bd.pageSize required
      rcases hwhy with hbad | hbad | hst
      · omega
      · omega
      · exact hst
    cases rc <;> first | exact absurd rfl hne | exact ⟨_, _, n₁, bd₁, rfl, by decide, hkept, hst⟩
  · right
    right
    rw [heq₁]
    exact ⟨rfl, hst⟩

end Space

end BlockData

end Novachains.Dms
