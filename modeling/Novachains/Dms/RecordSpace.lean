import Novachains.Dms.Progress

/-!
# The delete lists and a request for space

`_allocRecordSpace` searches the delete lists, and allocates an extent when it finds nothing; the
records cut from it go in front of the lists, and the second search finds one of them.  The call
needs the space of its own collection to be in order, and nothing of the other collections or the
counters.
-/

namespace Novachains.Dms

open Lib Oss

/-- The lists `after` are the lists `before` without the record, which was on one of them. -/
structure Unlinks (before after : ℕ → List RecordID) (rid : RecordID) : Prop where
  slot : ∃ j < maxSlot, (∃ k l, before j = k ++ rid :: l ∧ after j = k ++ l) ∧
    ∀ i, i ≠ j → after i = before i
  unique : ∃! j, j < maxSlot ∧ rid ∈ before j
  gone : ∀ j < maxSlot, rid ∉ after j

namespace BlockData

/-- The unit has `n` segments, and the deleted records of slot `i` are on the lists of their sizes,
once. -/
structure SpaceOk (bd : BlockData) (n i : ℕ) (o : Owned) : Prop where
  agrees : bd.Agrees n
  freePos_le : bd.smeMgr.freePos ≤ n
  blockID_eq : (bd.mme i).blockID = i
  col : (bd.col i).ColOk o.mbEx o.added o.contents
  reserved : ∀ p, o.Has p → ¬ bd.smeMgr.sme.Free p

/-- A record was found and has left its list, after at most one new extent. -/
def Serves (bd' : BlockData) (i required : ℕ) (o : Owned) (rid : RecordID) : Prop :=
  required ≤ Record.size bd'.data ((bd'.col i).recordAddr rid) ∧
    ∃ (n' : ℕ) (o' : Owned) (exts : List ℕ) (new : ℕ → List RecordID), bd'.SpaceOk n' i o' ∧
      o'.added = o.added ++ exts ∧ exts.length ≤ 1 ∧
      (exts = [] → ∀ j, new j = []) ∧
      Unlinks (fun j => new j ++ o.contents.dels j) o'.contents.dels rid

section Space
variable {bd bd' : BlockData} {n i : ℕ} {o : Owned} {c : Col} {ctx : MBContext} {required : ℕ}

theorem SpaceOk.grown (h : bd.SpaceOk n i o) {n' : ℕ} (hg : bd.Grown bd') (ha : bd'.Agrees n')
    (hle : n ≤ n') (hfp : bd'.smeMgr.freePos ≤ n')
    (hsme : ∀ p, bd'.smeMgr.sme.Free p → bd.smeMgr.sme.Free p) : bd'.SpaceOk n' i o := by
  have hpages : bd.mappedPages ≤ bd'.mappedPages := by
    rw [h.agrees.mappedPages_eq, ha.mappedPages_eq, hg.pageSize_eq]
    exact Nat.mul_le_mul_right _ hle
  have hsame : ∀ y k, (bd.col i).data.SameOn (bd'.col i).data y k := by
    intro y k
    change bd.data.SameOn bd'.data y k
    rw [hg.data_eq]
    exact .rfl
  refine ⟨ha, hfp, by rw [hg.mme_eq]; exact h.blockID_eq, ?_, fun p hp hf =>
    h.reserved p hp (hsme p hf)⟩
  refine h.col.congr hg.pageSize_eq hpages ha.mappedPages_le ?_ (hsame _ _) fun e _ => hsame _ _
  change bd'.mme i = { bd.mme i with totals := (bd'.mme i).totals }
  rw [hg.mme_eq]

/-- **A call on the collection and the write-back at its end.** -/
theorem SpaceOk.commit (h : bd.SpaceOk n i o) (o' : Owned)
    (htouch : (bd.col i).Touches c o'.mbEx o'.added o'.contents.pages)
    (hok : c.ColOk o'.mbEx o'.added o'.contents) (hres : ∀ p, o'.Has p → ¬ bd.smeMgr.sme.Free p) :
    ((bd.setCol i c).markHeaderInvalid i).SpaceOk n i o' ∧
      ((bd.setCol i c).markHeaderInvalid i).data = c.data ∧
      ((bd.setCol i c).markHeaderInvalid i).pageSize = bd.pageSize ∧
      ((bd.setCol i c).markHeaderInvalid i).mme i = { c.mb with
        totals := (((bd.setCol i c).markHeaderInvalid i).mme i).totals } := by
  obtain ⟨mme, msync, dirtyList, heq, hmme, -⟩ := (bd.setCol i c).markHeaderInvalid_eq i
  have hmb : (bd.setCol i c).mme i = c.mb := Function.update_self ..
  have hcol : (bd.setCol i c).col i = c := col_setCol_self htouch.pageSize_eq htouch.pages_eq
  rw [← hcol] at hok
  rw [heq]
  refine ⟨⟨{ h.agrees with }, h.freePos_le, ?_, ?_, hres⟩, rfl, rfl, by rw [← hmb]; exact hmme i⟩
  · change (mme i).blockID = i
    rw [hmme i, hmb, htouch.mb_eq]
    exact h.blockID_eq
  · exact hok.congr rfl le_rfl h.agrees.mappedPages_le (hmme i) .rfl fun _ _ => .rfl

theorem unlinks_take (h : c.ColOk o.mbEx o.added o.contents) {j : ℕ} (hj : j < maxSlot)
    {k l : List RecordID} {rid : RecordID} (hd : o.contents.dels j = k ++ rid :: l) (f : Run) :
    Unlinks o.contents.dels (o.contents.take rid.extent f j (k ++ l)).dels rid := by
  have hmem : rid ∈ o.contents.dels j := by
    rw [hd]
    simp
  refine ⟨⟨j, hj, ⟨k, l, hd, if_pos rfl⟩, fun i hi => if_neg hi⟩, ⟨j, ⟨hj, hmem⟩, ?_⟩, ?_⟩
  · intro i hi
    exact h.slot_unique hi.1 hj hi.2 hmem
  intro i hi
  change rid ∉ if i = j then k ++ l else o.contents.dels i
  split
  next =>
    have hnd := h.nodup j hj
    rw [hd] at hnd
    exact (List.nodup_cons.mp (List.nodup_middle.mp hnd)).1
  next hne => exact fun hr => hne (h.slot_unique hi hj hr hmem)

theorem SpaceOk.take (h : bd.SpaceOk n i o) {j : ℕ} (hj : j < maxSlot) {k l : List RecordID}
    {rid : RecordID} (hd : o.contents.dels j = k ++ rid :: l)
    (hle : required ≤ Record.size bd.data ((bd.col i).recordAddr rid)) (bd' : BlockData)
    (hbd' : bd' = (bd.setCol i ((bd.col i).takeDeleted j k.getLast? rid)).markHeaderInvalid i) :
    required ≤ Record.size bd'.data ((bd'.col i).recordAddr rid) ∧
      ∃ o', bd'.SpaceOk n i o' ∧ o'.added = o.added ∧
        Unlinks o.contents.dels o'.contents.dels rid := by
  obtain ⟨f, hf, hoff, hok, hfree⟩ := h.col.take hj hd
  obtain ⟨htouch, -⟩ := h.col.touches_take hj hd
  have hmem := (h.col.mem_free hj (show rid ∈ o.contents.dels j by rw [hd]; simp)).1
  have hsize : Record.size bd.data ((bd.col i).recordAddr rid) = f.size := by
    rw [Col.recordAddr, ← hoff]
    exact ((h.col.body _ hmem).free_ok f hf).size_eq
  obtain ⟨hspace, hdata, hps, -⟩ := h.commit
    ⟨o.mbEx, o.added, o.contents.take rid.extent f j (k ++ l)⟩ htouch hok h.reserved
  rw [← hbd'] at hspace hdata hps
  have haddr : (bd'.col i).recordAddr rid = (bd.col i).recordAddr rid :=
    congrArg (fun p : PageSize => rid.extent * p.bytes + rid.offset) hps
  refine ⟨?_, _, hspace, rfl, unlinks_take h.col hj hd f⟩
  rw [hdata, haddr, hfree.size_eq, ← hsize]
  exact hle

theorem SpaceOk.enterExtent (h : bd.SpaceOk n i o) {n' k page : ℕ} (hf : bd.Found bd' n' k page)
    (hle : n ≤ n') (h0 : 0 < k) (hk : k ≤ bd.pageSize.segmentPages) :
    ∃ (c : Col) (bd'' : BlockData) (o' : Owned) (new : ℕ → List RecordID),
      (bd'.col i).enterExtent (some .exclusive) i page k true false = (.ok, c) ∧
      bd'' = (bd'.setCol i c).markHeaderInvalid i ∧ bd''.SpaceOk n' i o' ∧
      o'.added = o.added ++ [page] ∧ (∀ j, o'.contents.dels j = new j ++ o.contents.dels j) ∧
      bd''.pageSize = bd.pageSize ∧ bd''.Roomy i k := by
  have hsub : ∀ p, bd'.smeMgr.sme.Free p → bd.smeMgr.sme.Free p ∧ ¬ (page ≤ p ∧ p < page + k) := by
    intro p hp
    rwa [hf.sme_eq, SME.free_setRange] at hp
  have h₁ := h.grown hf.grown hf.agrees hle hf.freePos_le fun p hp => (hsub p hp).1
  obtain ⟨c, free, dels, henter, hok, hdels, htouch, -, hroom⟩ :=
    h₁.col.enterExtent (hf.newPages h.col h.reserved h0 hk)
  have hid : (bd'.col i).mb.blockID = i := h₁.blockID_eq
  rw [hid] at henter
  have hx : page ∉ o.added := (hf.newPages h.col h.reserved h0 hk).not_mem h₁.col
  have hres : ∀ p, (⟨o.mbEx, o.added ++ [page],
      (o.contents.new page k bd'.pageSize.bytes).set page [] free [] dels⟩ : Owned).Has p →
      ¬ bd'.smeMgr.sme.Free p := by
    rintro p (hp | ⟨e, he, hp⟩) hfree
    · exact h₁.reserved p (.inl hp) hfree
    rcases List.mem_append.mp he with he | he
    · have hne : e ≠ page := ne_of_mem_of_not_mem he hx
      refine h₁.reserved p (.inr ⟨e, he, ?_⟩) hfree
      simpa [Contents.set, Contents.new, hne] using hp
    · obtain rfl := List.mem_singleton.mp he
      refine (hsub p hfree).2 ?_
      simpa [Contents.set, Contents.new] using hp
  obtain ⟨hspace, hdata, hps, hmb⟩ := h₁.commit
    ⟨o.mbEx, o.added ++ [page],
      (o.contents.new page k bd'.pageSize.bytes).set page [] free [] dels⟩ htouch hok hres
  choose new hnew using hdels
  refine ⟨c, _, _, new, henter, rfl, hspace, rfl, fun j => (hnew j).symm,
    hps.trans hf.grown.pageSize_eq, fun useable hu hlarge => ?_⟩
  rw [hps] at hu
  obtain ⟨rid, hhead, hsize⟩ := hroom useable hu hlarge
  refine ⟨rid, by rw [hmb]; exact hhead, ?_⟩
  have haddr : (((bd'.setCol i c).markHeaderInvalid i).col i).recordAddr rid =
      (bd'.col i).recordAddr rid :=
    congrArg (fun p : PageSize => rid.extent * p.bytes + rid.offset) hps
  rw [hdata, haddr]
  exact hsize

/-- **What `_allocateExtent` does to the lists**: new records go first, or it fails and leaves them,
or panics. -/
theorem SpaceOk.allocateExtent (h : bd.SpaceOk n ctx.mbID o) (hctx : ctx.Valid bd.mme)
    (os : ℕ → GrowOs) {numPages : ℕ} (h0 : 0 < numPages)
    (hk : numPages ≤ bd.pageSize.segmentPages) :
    (∃ (n' x : ℕ) (o' : Owned) (new : ℕ → List RecordID) (bd' : BlockData),
      bd.allocateExtent os ctx numPages true false =
        some (.ok, ctx.exclusive, bd') ∧
      bd'.SpaceOk n' ctx.mbID o' ∧ o'.added = o.added ++ [x] ∧
      (∀ j, o'.contents.dels j = new j ++ o.contents.dels j) ∧
      bd'.pageSize = bd.pageSize ∧ bd'.Roomy ctx.mbID numPages) ∨
    (∃ rc ctx' bd', bd.allocateExtent os ctx numPages true false = some (rc, ctx', bd') ∧
      rc ≠ .ok ∧ bd'.SpaceOk n ctx.mbID o) ∨
    bd.allocateExtent os ctx numPages true false = none := by
  rw [BlockData.allocateExtent, if_neg (by omega), hctx.mbLock]
  dsimp only
  rcases h.agrees.findFreeSpace h.freePos_le h0 hk os hctx.forall_exclusive with
    ⟨page, n', bd₁, heq, hf, hle, -⟩ | ⟨rc, bd₁, heq, hne, -, hagr, hfp, hg, hsme⟩ | ⟨heq, -⟩
  · left
    rw [heq]
    dsimp only [Option.getD]
    obtain ⟨c, bd', o', new, henter, hbd', hspace, hadd, hdels, hps, hroom⟩ :=
      h.enterExtent hf hle h0 hk
    rw [henter]
    rw [← hbd']
    exact ⟨n', page, o', new, bd', rfl, hspace, hadd, hdels, hps, hroom⟩
  · right
    left
    rw [heq]
    exact ⟨rc, _, bd₁, rfl, hne, h.grown hg hagr le_rfl hfp fun p hp => hsme ▸ hp⟩
  · right
    right
    rw [heq]

theorem SpaceOk.allocRetry (ctx : MBContext) (h : bd.SpaceOk n ctx.mbID o) (hctx : ctx.Valid bd.mme)
    (hlock : ctx.mbLockType = some .exclusive) (h0 : 0 < required) (hmax : required ≤ recordMaxSz)
    (os : ℕ → GrowOs) :
    (∃ rid bd', (∀ fuel, allocRetry os (fuel + 2) bd ctx required = some (.ok rid, ctx, bd')) ∧
      bd'.Serves ctx.mbID required o rid) ∨
    (∃ rc ctx' bd', (∀ fuel, allocRetry os (fuel + 2) bd ctx required =
        some (.error rc, ctx', bd')) ∧ rc ≠ .ok ∧ bd'.SpaceOk n ctx.mbID o) ∨
    ((∀ fuel, allocRetry os (fuel + 2) bd ctx required = none) ∧
      bd.allocateExtent os ctx (reqPages bd.pageSize required) true false = none) := by
  rcases allocRetry_cases ctx h.col h0 hmax os with
    ⟨j, k, rid, l, hj, hd, hle, heq⟩ | ⟨-, heq⟩
  · obtain ⟨hsize, o', hspace, hadd, hun⟩ := h.take hj hd hle _ rfl
    refine .inl ⟨rid, _, fun fuel => heq (fuel + 1), hsize, n, o', [], fun _ => [], hspace, ?_,
      Nat.zero_le 1, fun _ _ => rfl, hun⟩
    rw [hadd, List.append_nil]
  have hctx' : ctx.exclusive = ctx := by rw [MBContext.exclusive, ← hlock]
  rcases h.allocateExtent hctx os (reqPages_pos bd.pageSize required)
      (reqPages_le bd.pageSize required) with
    ⟨n₁, x, o₁, new, bd₁, heq₁, hspace, hadd, hdels, hps, hroom⟩ |
    ⟨rc, ctx₁, bd₁, heq₁, hne, hspace⟩ | heq₁
  · left
    rw [hctx'] at heq₁
    rcases allocRetry_cases ctx hspace.col h0 hmax os with
      ⟨j, k, rid, l, hj, hd, hle, heq₂⟩ | ⟨hall, -⟩
    · obtain ⟨hsize, o', hspace', hadd', hun⟩ := hspace.take hj hd hle _ rfl
      refine ⟨rid, _, fun fuel => ?_, hsize, n₁, o', [x], new, hspace', hadd'.trans hadd, le_rfl,
        fun hnil => absurd hnil (List.cons_ne_nil x []), ?_⟩
      · rw [heq (fuel + 1), heq₁]
        exact heq₂ fuel
      · rwa [funext hdels] at hun
    · -- The large record of the new extent stands at the head of its list.
      obtain ⟨j, rid, hj, hj', hhead, hsize⟩ := hroom.exists_large hps h0 hmax
      exact absurd (hall j hj hj' rid hhead) (Nat.not_lt.mpr hsize)
  · right
    left
    refine ⟨rc, ctx₁, bd₁, fun fuel => ?_, hne, hspace⟩
    rw [heq (fuel + 1), heq₁]
    cases rc <;> first | exact absurd rfl hne | rfl
  · right
    right
    refine ⟨fun fuel => ?_, heq₁⟩
    rw [heq (fuel + 1), heq₁]

end Space

end BlockData

end Novachains.Dms
