import Novachains.Dms.Progress

/-!
# A collection is added, or nothing happens

What `addCollection` leaves when it fails.  A failure before the collection is entered leaves the
catalog and the bitmap; a failure after that leaves the collection behind.
-/

namespace Novachains.Dms

open Lib Oss

namespace BlockData

structure Untouched (bd bd' : BlockData) : Prop where
  names_eq : bd'.collectionNameMap = bd.collectionNameMap
  ids_eq : bd'.collectionIDMap = bd.collectionIDMap
  numMB_eq : bd'.header.numMB = bd.header.numMB
  inUse_eq : ∀ i, (bd'.mme i).inUse = (bd.mme i).inUse
  bits_eq : ∀ page, bd'.smeMgr.sme.getBitMask page = bd.smeMgr.sme.getBitMask page

structure Added (bd bd' : BlockData) (args : AddArgs) (slot : ℕ) : Prop where
  wasFree : ¬ bd.InUse slot
  inUse : bd'.InUse slot
  name_eq : bd'.collectionNameLookup args.name = slot
  id_eq : isValidCLUniqueID args.clUniqueID = true → bd'.collectionIdLookup args.clUniqueID = slot
  numMB_eq : bd'.header.numMB = bd.header.numMB + 1
  others : ∀ j, j ≠ slot → bd'.mme j = bd.mme j

/-- A call that fails changes nothing, and one that succeeds adds the collection. -/
def Atomic (bd : BlockData) (args : AddArgs) (rc : Rc) (bd' : BlockData) : Prop :=
  (rc ≠ .ok → bd.Untouched bd') ∧ (rc = .ok → ∃ slot, bd.Added bd' args slot)

/-- `_findFreeSpace` finds `k` pages, after an extension if it has to. -/
def RoomFor (bd : BlockData) (os : ℕ → GrowOs) (k : ℕ) : Prop :=
  ∃ page bd', findFreeSpace os 2 bd none k = some (.ok page, none, bd')

/-- The collection is entered, but there is no context or no first extent for it. -/
def LateFailure (bd : BlockData) (env : AddEnv) (args : AddArgs) : Prop :=
  ∃ bd₁ mbEx slot, bd.Admits env args bd₁ mbEx slot ∧
    (env.alloc = false ∨ args.initPages.val ≠ 0 ∧
      (bd.pageSize.segmentPages < args.initPages.val ∨ ¬ bd₁.RoomFor env.os args.initPages))

structure SameSpace (bd bd' : BlockData) : Prop where
  info_eq : bd'.info = bd.info
  file_eq : bd'.file = bd.file
  mgr_eq : bd'.smeMgr = bd.smeMgr
  pageSize_eq : bd'.pageSize = bd.pageSize
  pageNum_eq : bd'.header.pageNum = bd.header.pageNum
  unitSize_eq : bd'.header.storageUnitSize = bd.header.storageUnitSize

variable {bd bd' : BlockData}

section
variable (h : bd.SameSpace bd')
include h

theorem SameSpace.perform (e : Effect) :
    (bd.perform e).SameSpace (bd'.perform e) := by
  obtain ⟨hi, hf, hm, hp, hn, hu⟩ := h
  cases e with
  | resize n => exact ⟨hi, by simp [BlockData.perform, hf], hm, hp, hn, hu⟩
  | disableSparse => exact ⟨by simp [BlockData.perform, hi], hf, hm, hp, hn, hu⟩
  | mapSegment file => exact ⟨hi, rfl, hm, hp, hn, hu⟩
  | raiseStorageUnitSize =>
    exact ⟨hi, hf, hm, hp, hn, by simp [BlockData.perform, StorageUnitHeader.addUnitSize, hu, hp]⟩
  | lowerStorageUnitSize =>
    exact ⟨hi, hf, hm, hp, hn, by simp [BlockData.perform, StorageUnitHeader.addUnitSize, hu, hp]⟩
  | deposit mgr => exact ⟨hi, hf, rfl, hp, hn, hu⟩
  | raisePageNum =>
    exact ⟨hi, hf, hm, hp, by simp [BlockData.perform, StorageUnitHeader.addPageNum, hn, hp], hu⟩

theorem SameSpace.performAll (es : List Effect) :
    (bd.performAll es).SameSpace (bd'.performAll es) := by
  induction es generalizing bd bd' with
  | nil => exact h
  | cons e es ih => exact ih (h.perform e)

theorem SameSpace.setMgr (mgr : SMEMgr) :
    ({ bd with smeMgr := mgr } : BlockData).SameSpace { bd' with smeMgr := mgr } :=
  ⟨h.info_eq, h.file_eq, rfl, h.pageSize_eq, h.pageNum_eq, h.unitSize_eq⟩

theorem SameSpace.mapNewSegments_eq (os : GrowOs) (numSeg i b size : ℕ) :
    mapNewSegments os numSeg i bd' b size = mapNewSegments os numSeg i bd b size := by
  induction numSeg generalizing bd bd' i b size with
  | zero => rfl
  | succ numSeg ih =>
    rw [mapNewSegments, mapNewSegments, h.file_eq, h.mgr_eq, h.pageSize_eq]
    split
    · split
      · simp only [ih (h.performAll _)]
      · rfl
    · rfl

theorem SameSpace.extendSegments_eq (numSeg : ℕ) (os : GrowOs) :
    extendSegments bd' numSeg os = extendSegments bd numSeg os := by
  have hbase : bd'.baseSize = bd.baseSize := by
    rw [baseSize, baseSize, h.file_eq, h.unitSize_eq, h.pageSize_eq]
  have hcut : bd'.cutFile = bd.cutFile := by
    rw [cutFile, cutFile, h.file_eq, h.unitSize_eq, h.pageSize_eq, hbase]
  simp only [extendSegments, h.pageNum_eq, h.pageSize_eq, h.mgr_eq, h.unitSize_eq, h.file_eq,
    h.info_eq, hbase, hcut, (h.performAll _).mapNewSegments_eq]

theorem SameSpace.findFreeSpace_ok_iff {ctx : Option MBContext}
    (hctx : ∀ c ∈ ctx, c.Valid bd'.mme) (os : ℕ → GrowOs) (fuel k : ℕ) :
    (∃ page bd₁, findFreeSpace os fuel bd' ctx k = some (.ok page, ctx, bd₁)) ↔
      ∃ page bd₁, findFreeSpace os fuel bd none k = some (.ok page, none, bd₁) := by
  induction fuel generalizing bd bd' with
  | zero => simp [findFreeSpace]
  | succ fuel ih =>
    rw [findFreeSpace, findFreeSpace, h.mgr_eq]
    rcases hres : bd.smeMgr.reservePages k with ⟨rc | _ | page, mgr⟩
    · simp
    · -- Both units are extended in the same way.
      dsimp only
      have h₁ := h.setMgr mgr
      have hgrown := ((bd'.grown_mgr mgr).trans (grown_performAll _
        (extendSegments { bd' with smeMgr := mgr } 1 (os fuel)).effects))
      have hresume := pauseAndResume_valid (hgrown.mme_eq.symm ▸ hctx)
      have h₂ := h₁.performAll (extendSegments { bd with smeMgr := mgr } 1 (os fuel)).effects
      rw [h₁.extendSegments_eq] at hgrown hresume ⊢
      rw [hresume]
      cases (extendSegments { bd with smeMgr := mgr } 1 (os fuel)).rc with
      | none => simp
      | some rc =>
        rcases eq_or_ne rc .ok with rfl | hrc
        · simp only [ne_eq, not_true_eq_false, if_false]
          exact ih h₂ (hgrown.mme_eq.symm ▸ hctx)
        · simp [hrc]
    · simp

end

theorem sameSpace_enter (bd : BlockData) (args : AddArgs) (slot mbEx addr : ℕ) :
    bd.SameSpace
      (((bd.enterCollection args slot).enterMetaExtent slot mbEx addr).markHeaderInvalid slot) := by
  obtain ⟨mme, msync, dirtyList, heq, -⟩ :=
    ((bd.enterCollection args slot).enterMetaExtent slot mbEx addr).markHeaderInvalid_eq slot
  rw [heq]
  exact ⟨rfl, rfl, rfl, rfl, rfl, rfl⟩

/-! ## The two halves of the call -/

variable {n slot : ℕ} {owned : ℕ → Owned} {env : AddEnv} {args : AddArgs} {rc : Rc}

theorem Kept.untouched (h : bd.Kept bd' n owned) : bd.Untouched bd' where
  names_eq := h.grown.names_eq
  ids_eq := h.grown.ids_eq
  numMB_eq := h.grown.numMB_eq
  inUse_eq := fun i => by rw [h.grown.mme_eq]
  bits_eq := fun page => by
    have hiff := h.free_iff page
    simp only [SME.Free] at hiff
    cases h₁ : bd.smeMgr.sme.getBitMask page <;> cases h₂ : bd'.smeMgr.sme.getBitMask page <;>
      simp_all

theorem Published.added (h : bd.Published bd' args slot) : bd.Added bd' args slot where
  wasFree := h.not_inUse
  inUse := (h.inUse_iff slot).mpr (.inl rfl)
  name_eq := by simp [collectionNameLookup, h.names_eq]
  id_eq := fun hid => by simp [collectionIdLookup, h.ids_eq, hid]
  numMB_eq := h.numMB_eq
  others := h.others

theorem Published.not_untouched (h : bd.Published bd' args slot) : ¬ bd.Untouched bd' := fun hu => by
  have hnum := h.numMB_eq
  rw [hu.numMB_eq] at hnum
  omega

theorem StoreOk.addFirstExtent_ok_iff (h : bd.StoreOk n owned) (hs : bd.Synced)
    (hi : bd.InUse slot) (env : AddEnv) (args : AddArgs) :
    (∃ bd', bd.addFirstExtent env args slot (bd.mme slot).logicalID = some (.ok, bd')) ↔
      env.alloc = true ∧ (args.initPages.val ≠ 0 → args.initPages.val ≤ bd.pageSize.segmentPages ∧
        bd.RoomFor env.os args.initPages) := by
  have hvalid : (⟨slot, (bd.mme slot).logicalID, some .exclusive, none⟩ : MBContext).Valid bd.mme :=
    ⟨hi.1, hi.2, rfl, rfl⟩
  have hsame : bd.SameSpace bd := ⟨rfl, rfl, rfl, rfl, rfl, rfl⟩
  rw [BlockData.addFirstExtent, getMBContext_eq hi.1 hi.2]
  cases halloc : env.alloc with
  | false => simp
  | true =>
    rw [if_pos rfl]
    by_cases h0 : args.initPages.val = 0
    · simp [h0]
    have hok := h.allocateExtent_ok_iff hs hvalid env.os (Nat.pos_of_ne_zero h0)
    rw [hsame.findFreeSpace_ok_iff (by rintro c ⟨⟩; exact hvalid.setLock _)] at hok
    simp only [h0, ne_eq, not_false_eq_true, if_true, true_and, forall_const, RoomFor, ← hok]
    generalize bd.allocateExtent env.os _ args.initPages.val true false = r
    rcases r with _ | ⟨rc, ctx, bd₁⟩
    · simp
    · rcases eq_or_ne rc .ok with rfl | hrc
      · simp
      · cases rc <;> simp_all

theorem Admits.unique {bd₁ bd₁' : BlockData} {mbEx mbEx' slot' : ℕ}
    (h : bd.Admits env args bd₁ mbEx slot) (h' : bd.Admits env args bd₁' mbEx' slot') : bd₁' = bd₁ := by
  have heq := h'.found.symm.trans h.found
  simpa using (Prod.ext_iff.mp (Prod.ext_iff.mp (Option.some.inj heq)).2).2

theorem StoreOk.entered_ok_iff {bd₁ bd₂ : BlockData} {mbEx n' : ℕ}
    (hadm : bd.Admits env args bd₁ mbEx slot)
    (hbd : bd₂ = ((bd₁.enterCollection args slot).enterMetaExtent slot mbEx
      (mbEx * bd₁.pageSize.bytes)).markHeaderInvalid slot)
    (hent : bd.Entered bd₂ n' owned args slot (bare mbEx)) :
    (∃ bd', bd₂.addFirstExtent env args slot (bd₂.mme slot).logicalID = some (.ok, bd')) ↔
      ¬ bd.LateFailure env args := by
  have hspace : bd₁.SameSpace bd₂ := hbd ▸ sameSpace_enter ..
  have hroom : bd₂.RoomFor env.os args.initPages ↔ bd₁.RoomFor env.os args.initPages :=
    hspace.findFreeSpace_ok_iff (fun c hc => by cases hc) ..
  have hi : bd₂.InUse slot := (hent.published.inUse_iff slot).mpr (.inl rfl)
  rw [hent.store.addFirstExtent_ok_iff hent.synced hi, hroom, hent.published.pageSize_eq]
  constructor
  · rintro ⟨halloc, hpages⟩ ⟨bd₁', mbEx', slot', hadm', hfail⟩
    obtain rfl := hadm.unique hadm'
    rcases hfail with hfail | ⟨h0, hlarge | hno⟩
    · rw [halloc] at hfail
      cases hfail
    · exact absurd (hpages h0).1 (Nat.not_le.mpr hlarge)
    · exact hno (hpages h0).2
  · intro hnot
    have hnot' := fun hfail => hnot ⟨bd₁, mbEx, slot, hadm, hfail⟩
    refine ⟨by_contra fun hf => hnot' (.inl (by simpa using hf)), fun h0 => ⟨?_, ?_⟩⟩
    · exact Nat.not_lt.mp fun hlarge => hnot' (.inr ⟨h0, .inl hlarge⟩)
    · exact by_contra fun hno => hnot' (.inr ⟨h0, .inr hno⟩)

end BlockData

/-- **`addCollection` is atomic unless it fails after the collection has been entered.** -/
theorem addCollection_atomic_iff {bd bd' : BlockData}
    (h : (storeSystem fun _ _ => True).Reachable bd) {env : AddEnv} {args : AddArgs} {rc : Rc}
    (hrun : bd.addCollection env args = some (rc, bd')) :
    bd.Atomic args rc bd' ↔ ¬ bd.LateFailure env args := by
  obtain ⟨n, owned, hs⟩ := (BlockData.sound_invariant _).reachable h
  rcases hs.store.addCollection_cases hs.synced hs.catalog env args with
    ⟨hnone, rc', n', bd₁, heq, hne, hk, -⟩ | ⟨bd₁, mbEx, slot, n', bd₂, hadm, -, hbd, heq, hent⟩ |
    ⟨heq, -⟩
  · obtain ⟨rfl, rfl⟩ : rc = rc' ∧ bd' = bd₁ := by
      rw [hrun] at heq
      simpa using heq
    constructor
    · rintro - ⟨bd₁, mbEx, slot, hadm, -⟩
      exact hnone bd₁ mbEx slot hadm
    · exact fun _ => ⟨fun _ => hk.untouched, fun hok => absurd hok hne⟩
  · rw [hrun] at heq
    have hi : bd₂.InUse slot := (hent.published.inUse_iff slot).mpr (.inl rfl)
    have hpub : bd.Published bd' args slot := by
      rcases hent.store.addFirstExtent hent.synced hi env args with
        ⟨rc', n'', bd₃, heq', -, hk, -⟩ | ⟨n'', o, l, bd₃, heq', hch, -⟩ | ⟨heq', -⟩
      · obtain ⟨-, rfl⟩ : rc = rc' ∧ bd' = bd₃ := by
          rw [← heq] at heq'
          simpa using heq'
        exact hent.published.trans (hk.grown.sameCatalog slot)
      · obtain ⟨-, rfl⟩ : rc = .ok ∧ bd' = bd₃ := by
          rw [← heq] at heq'
          simpa using heq'
        exact hent.published.trans hch.catalog
      · rw [← heq] at heq'
        cases heq'
    have hok : rc = .ok ↔ ¬ bd.LateFailure env args := by
      rw [← BlockData.StoreOk.entered_ok_iff hadm hbd hent, ← heq]
      simp
    rw [← hok]
    constructor
    · rintro ⟨herr, -⟩
      exact by_contra fun hne => hpub.not_untouched (herr hne)
    · exact fun hrc => ⟨fun hne => absurd hrc hne, fun _ => ⟨slot, hpub.added⟩⟩
  · rw [hrun] at heq
    cases heq

/-- A new unit and a collection with one page. -/
theorem addCollection_atomic_onePage :
    ∃ bd bd' : BlockData, bd.addCollection .allOk onePage = some (.ok, bd') ∧
      (bd.Atomic onePage .ok bd' ↔ ¬ bd.LateFailure .allOk onePage) := by
  obtain ⟨bd, hnew, hps, hnum⟩ := exists_newUnit
  obtain ⟨bd', slot, n, o, mbEx, l, hrun, -⟩ :=
    (hnew.sound fun _ => BlockData.bare 0).addCollection_ok (by rw [hps]; decide) .allOk onePage rfl
      rfl rfl (by decide) (hnew.newSlot hnum _) (by rw [hps]; decide)
  exact ⟨bd, bd', hrun, addCollection_atomic_iff (.init hnew) hrun⟩

def tooManyPages : AddArgs := ⟨[97], 1, 0, ⟨40000, by decide⟩, false⟩

/-- The call fails, and the collection is there. -/
theorem addCollection_not_atomic :
    ∃ (bd bd' : BlockData) (rc : Rc), (storeSystem fun _ _ => True).Reachable bd ∧
      bd.addCollection .allOk tooManyPages = some (rc, bd') ∧ rc ≠ .ok ∧
      ¬ bd.Atomic tooManyPages rc bd' := by
  obtain ⟨bd, hnew, hps, hnum⟩ := exists_newUnit
  have hs := hnew.sound fun _ => BlockData.bare 0
  have hroom : (0 + 1) * bd.pageSize.segmentPages ≤ maxPg := by rw [hps]; decide
  rcases hs.store.addCollection_cases hs.synced hs.catalog .allOk tooManyPages with
    ⟨-, rc, n, bd₁, -, -, -, hbad | hbad | hbad⟩ |
    ⟨bd₁, mbEx, slot, n, bd₂, -, hn, -, heq, hent⟩ | ⟨-, hbad⟩
  · exact absurd (by decide) hbad
  · obtain ⟨slot, hslot⟩ := hnew.newSlot hnum tooManyPages
    exact absurd hslot (hbad slot)
  · exact absurd hbad (hs.not_stuck hroom rfl)
  · have hi : bd₂.InUse slot := (hent.published.inUse_iff slot).mpr (.inl rfl)
    have hok := hent.store.addFirstExtent_ok_iff hent.synced hi .allOk tooManyPages
    rcases hent.store.addFirstExtent hent.synced hi .allOk tooManyPages with
      ⟨rc, n', bd₃, heq', hne, hk, -⟩ | ⟨n', o, l, bd₃, heq', -⟩ | ⟨-, hbad⟩
    · have hpub := hent.published.trans (hk.grown.sameCatalog slot)
      exact ⟨bd, bd₃, rc, .init hnew, heq.trans heq', hne, fun hat => hpub.not_untouched (hat.1 hne)⟩
    · have hle := ((hok.mp ⟨bd₃, heq'⟩).2 (by decide)).1
      rw [hent.published.pageSize_eq, hps] at hle
      exact absurd hle (by decide)
    · refine absurd hbad ((hs.entered hent).not_stuck ?_ rfl)
      rw [hent.published.pageSize_eq, hps]
      exact (Nat.mul_le_mul_right _ (Nat.succ_le_succ hn)).trans (by decide)
  · exact absurd hbad (hs.not_stuck hroom rfl)

end Novachains.Dms
