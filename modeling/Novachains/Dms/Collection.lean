import Novachains.Dms.Alloc

/-!
# Adding a collection

`addCollection` finds pages for the meta extent, enters the collection into a free slot and
into the maps, initialises the meta extent and may allocate a first extent.
-/

namespace Novachains.Dms

open Lib Oss List Function

def dmsIsSysCLName (collectionName : CStr) : Bool := collectionName.take 3 = [83, 89, 83]

/-- The check of a collection name. -/
def dmsCheckCLName (collectionName : CStr) (sys : Bool) : Rc :=
  if collectionNameSz < collectionName.length ∨ collectionName.length ≤ 0 then .invalidArg
  else if collectionName.head? = some 36 then .invalidArg
  else if 46 ∈ collectionName then .invalidArg
  else if !sys && dmsIsSysCLName collectionName then .invalidArg
  else .ok

theorem take_of_dmsCheckCLName {name : CStr} {sys : Bool} (h : dmsCheckCLName name sys = .ok) :
    name.take collectionNameSz = name := by
  refine take_of_length_le ?_
  unfold dmsCheckCLName at h
  split at h
  · cases h
  · omega

structure AddArgs where
  name : CStr
  clUniqueID : ℕ
  attributes : ℕ
  initPages : Fin (2 ^ 16)
  sysCollection : Bool

/-- The outcomes for `addCollection`: extensions for the meta extent and the first extent, and a
context. -/
structure AddEnv where
  osMeta : ℕ → GrowOs
  os : ℕ → GrowOs
  alloc : Bool

namespace BlockData

variable (bd : BlockData)

def collectionNameLookup (name : CStr) : ℕ :=
  (bd.collectionNameMap name).getD invalidMBID

def collectionIdLookup (clUniqueID : ℕ) : ℕ :=
  if isValidCLUniqueID clUniqueID then (bd.collectionIDMap clUniqueID).getD invalidMBID
  else invalidMBID

def releaseSpace (pageStart numPages : ℕ) : BlockData :=
  { bd with smeMgr := (bd.smeMgr.releasePages bd.pageSize.layout pageStart numPages).2 }

def newSlot (args : AddArgs) : Except Rc ℕ :=
  if bd.collectionNameLookup args.name ≠ invalidMBID then .error .dmsExist
  else if bd.collectionIdLookup args.clUniqueID ≠ invalidMBID then .error .dmsUniqueIDConflict
  else if mmeSlots ≤ bd.header.numMB then .error .dmsNoSpc
  else
    match (List.range mmeSlots).find? fun i => (bd.mme i).isFree with
    | none => .error .sys
    | some i => .ok i

def enterCollection (args : AddArgs) (slot : ℕ) : BlockData :=
  let logicalID := bd.header.mbhwm
  let bd := { bd with
    header := { bd.header with mbhwm := u32 (logicalID + 1), numMB := u32 (bd.header.numMB + 1) }
    mme := update bd.mme slot
      ((bd.mme slot).reset args.name args.clUniqueID slot logicalID args.attributes)
    mbStatInfo := update bd.mbStatInfo slot { startLID := logicalID } }
  bd.collectionInsert args.name slot args.clUniqueID

def enterMetaExtent (slot mbEx addr : ℕ) : BlockData :=
  { bd with
    data := MetaExtent.init bd.data addr bd.pageSize.mbExSize slot bd.pageSize.maxSegmentNum
    mme := update bd.mme slot
      { bd.mme slot with mbExExtentID := some mbEx, mbOptExtentID := none } }

/-- `addCollection` from the context on. -/
def addFirstExtent (env : AddEnv) (args : AddArgs) (slot logicalID : ℕ) :
    Option (Rc × BlockData) :=
  match bd.getMBContext slot logicalID (some .exclusive) env.alloc with
  | .error rc => some (rc, bd)
  | .ok ctx =>
    if args.initPages.val ≠ 0 then
      match bd.allocateExtent env.os ctx args.initPages true false with
      | none => none
      | some (.ok, _, bd) => some (.ok, (bd.flushMeta false []).2)
      | some (rc, _, bd) => some (rc, bd)
    else some (.ok, (bd.flushMeta false []).2)

/-- The collection is entered before its first extent is allocated. -/
def addCollection (env : AddEnv) (bd : BlockData) (args : AddArgs) : Option (Rc × BlockData) :=
  if dmsCheckCLName args.name args.sysCollection ≠ .ok then
    some (dmsCheckCLName args.name args.sysCollection, bd)
  else
    match findFreeSpace env.osMeta 2 bd none bd.pageSize.mbExSize with
    | none => none
    | some (.error rc, _, bd) => some (rc, bd)
    | some (.ok mbEx, _, bd) =>
      match bd.newSlot args with
      | .error rc => some (rc, bd.releaseSpace mbEx bd.pageSize.mbExSize)
      | .ok slot =>
        let logicalID := bd.header.mbhwm
        let bd := bd.enterCollection args slot
        match bd.extentAddr (some mbEx) with
        | none => some (.sys, bd.releaseSpace mbEx bd.pageSize.mbExSize)
        | some addr =>
          let bd := (bd.enterMetaExtent slot mbEx addr).markHeaderInvalid slot
          bd.addFirstExtent env args slot logicalID

/-- The maps lead to the collections in use, by their names and by their valid IDs. -/
structure CatalogOk (bd : BlockData) : Prop where
  name_iff : ∀ name i, bd.collectionNameMap name = some i ↔
    bd.InUse i ∧ (bd.mme i).collectionName = name
  id_iff : ∀ id i, isValidCLUniqueID id = true → (bd.collectionIDMap id = some i ↔
    bd.InUse i ∧ (bd.mme i).clUniqueID = id)

/-- The collection has been entered into the slot, which was free; no other slot has changed. -/
structure Published (bd bd' : BlockData) (args : AddArgs) (slot : ℕ) : Prop where
  slot_lt : slot < mmeSlots
  wasFree : (bd.mme slot).isFree = true
  inUse : (bd'.mme slot).inUse = true
  name_eq : (bd'.mme slot).collectionName = args.name
  clUniqueID_eq : (bd'.mme slot).clUniqueID = args.clUniqueID
  others : ∀ j, j ≠ slot → bd'.mme j = bd.mme j
  names_eq : ∀ name, bd'.collectionNameMap name =
    if name = args.name then some slot else bd.collectionNameMap name
  ids_eq : ∀ id, bd'.collectionIDMap id =
    if isValidCLUniqueID args.clUniqueID = true ∧ id = args.clUniqueID then some slot
    else bd.collectionIDMap id
  numMB_eq : bd'.header.numMB = bd.header.numMB + 1
  pageSize_eq : bd'.pageSize = bd.pageSize

section Catalog
variable {bd bd' bd'' : BlockData} {args : AddArgs} {slot n i : ℕ} {owned : ℕ → Owned}

theorem not_inUse_of_isFree {mb : MB} (h : mb.isFree = true) : mb.inUse = false := by
  have hflag : mb.flag = 0 := by simpa [MB.isFree] using h
  simp [MB.inUse, hflag]

theorem Published.trans (h : bd.Published bd' args slot) (h' : bd'.SameCatalog bd'' slot) :
    bd.Published bd'' args slot where
  slot_lt := h.slot_lt
  wasFree := h.wasFree
  inUse := by rw [h'.block]; exact h.inUse
  name_eq := by rw [h'.block]; exact h.name_eq
  clUniqueID_eq := by rw [h'.block]; exact h.clUniqueID_eq
  others := fun j hj => (h'.others j hj).trans (h.others j hj)
  names_eq := by rw [h'.names_eq]; exact h.names_eq
  ids_eq := by rw [h'.ids_eq]; exact h.ids_eq
  numMB_eq := by rw [h'.numMB_eq, h.numMB_eq]
  pageSize_eq := h'.pageSize_eq.trans h.pageSize_eq

theorem Published.of_grown (hg : bd.Grown bd') (h : bd'.Published bd'' args slot) :
    bd.Published bd'' args slot where
  slot_lt := h.slot_lt
  wasFree := by rw [← hg.mme_eq]; exact h.wasFree
  inUse := h.inUse
  name_eq := h.name_eq
  clUniqueID_eq := h.clUniqueID_eq
  others := fun j hj => by rw [h.others j hj, hg.mme_eq]
  names_eq := by rw [← hg.names_eq]; exact h.names_eq
  ids_eq := by rw [← hg.ids_eq]; exact h.ids_eq
  numMB_eq := by rw [h.numMB_eq, hg.numMB_eq]
  pageSize_eq := h.pageSize_eq.trans hg.pageSize_eq

theorem Published.inUse_iff (h : bd.Published bd' args slot) (j : ℕ) :
    bd'.InUse j ↔ j = slot ∨ bd.InUse j := by
  rw [InUse]
  by_cases hj : j = slot
  · subst hj
    exact ⟨fun _ => .inl rfl, fun _ => ⟨h.slot_lt, h.inUse⟩⟩
  · rw [h.others j hj, InUse]
    exact (or_iff_right hj).symm

theorem Published.not_inUse (h : bd.Published bd' args slot) : ¬ bd.InUse slot := fun hu => by
  have := not_inUse_of_isFree h.wasFree
  rw [hu.2] at this
  cases this

theorem CatalogOk.sameCatalog (h : bd.CatalogOk) (hc : bd.SameCatalog bd' i) : bd'.CatalogOk := by
  have hname : ∀ j, (bd'.mme j).collectionName = (bd.mme j).collectionName ∧
      (bd'.mme j).clUniqueID = (bd.mme j).clUniqueID := by
    intro j
    by_cases hj : j = i
    · rw [hj, hc.block]
      exact ⟨rfl, rfl⟩
    · rw [hc.others j hj]
      exact ⟨rfl, rfl⟩
  refine ⟨fun name j => ?_, fun id j hid => ?_⟩
  · rw [hc.names_eq, h.name_iff, hc.inUse_iff, (hname j).1]
  · rw [hc.ids_eq, h.id_iff id j hid, hc.inUse_iff, (hname j).2]

theorem CatalogOk.published (h : bd.CatalogOk) (hp : bd.Published bd' args slot)
    (hname : bd.collectionNameMap args.name = none)
    (hid : isValidCLUniqueID args.clUniqueID = true →
      bd.collectionIDMap args.clUniqueID = none) : bd'.CatalogOk := by
  have hne : ∀ j, bd.InUse j → j ≠ slot := fun j hj hjs => hp.not_inUse (hjs ▸ hj)
  refine ⟨fun name j => ?_, fun id j hv => ?_⟩
  · rw [hp.names_eq, hp.inUse_iff]
    split
    next heq =>
      subst heq
      rw [Option.some_inj]
      constructor
      · rintro rfl
        exact ⟨.inl rfl, hp.name_eq⟩
      rintro ⟨hj | hj, hjn⟩
      · exact hj.symm
      · rw [hp.others j (hne j hj)] at hjn
        exact absurd ((h.name_iff _ j).mpr ⟨hj, hjn⟩) (by rw [hname]; simp)
    next hneq =>
      rw [h.name_iff]
      constructor
      · rintro ⟨hj, hjn⟩
        exact ⟨.inr hj, by rw [hp.others j (hne j hj)]; exact hjn⟩
      rintro ⟨hj | hj, hjn⟩
      · subst hj
        exact absurd (hp.name_eq.symm.trans hjn).symm hneq
      · exact ⟨hj, by rwa [hp.others j (hne j hj)] at hjn⟩
  · rw [hp.ids_eq, hp.inUse_iff]
    split
    next heq =>
      obtain ⟨hval, rfl⟩ := heq
      rw [Option.some_inj]
      constructor
      · rintro rfl
        exact ⟨.inl rfl, hp.clUniqueID_eq⟩
      rintro ⟨hj | hj, hjn⟩
      · exact hj.symm
      · rw [hp.others j (hne j hj)] at hjn
        exact absurd ((h.id_iff _ j hv).mpr ⟨hj, hjn⟩) (by rw [hid hval]; simp)
    next hneq =>
      rw [h.id_iff id j hv]
      constructor
      · rintro ⟨hj, hjn⟩
        exact ⟨.inr hj, by rw [hp.others j (hne j hj)]; exact hjn⟩
      rintro ⟨hj | hj, hjn⟩
      · subst hj
        have heq := hp.clUniqueID_eq.symm.trans hjn
        exact absurd ⟨heq ▸ hv, heq.symm⟩ hneq
      · exact ⟨hj, by rwa [hp.others j (hne j hj)] at hjn⟩

end Catalog

/-! ## Entering a collection -/

def bare (mbEx : ℕ) : Owned := ⟨mbEx, [], fun _ => 0, fun _ => [], fun _ => [], fun _ => [],
    fun _ => []⟩

section Publish
variable {bd bd' : BlockData} {args : AddArgs} {slot n mbEx : ℕ} {owned : ℕ → Owned}

theorem newSlot_ok (h : bd.newSlot args = .ok slot) :
    slot < mmeSlots ∧ (bd.mme slot).isFree = true ∧ bd.header.numMB < mmeSlots ∧
      bd.collectionNameLookup args.name = invalidMBID ∧
      bd.collectionIdLookup args.clUniqueID = invalidMBID := by
  unfold newSlot at h
  split at h
  · cases h
  next hname =>
    split at h
    · cases h
    next hid =>
      split at h
      · cases h
      next hnum =>
        split at h
        · cases h
        next i hfind =>
          cases h
          have hfree := find?_some hfind
          exact ⟨mem_range.mp (mem_of_find?_eq_some hfind), hfree,
            Nat.lt_of_not_le hnum, not_not.mp hname, not_not.mp hid⟩

theorem Grown.newSlot_eq (h : bd.Grown bd') (args : AddArgs) : bd'.newSlot args = bd.newSlot args := by
  rw [newSlot, newSlot, collectionNameLookup, collectionIdLookup, h.names_eq, h.ids_eq, h.numMB_eq,
    h.mme_eq, collectionNameLookup, collectionIdLookup]

theorem newSlot_error {rc : Rc} (h : bd.newSlot args = .error rc) : rc ≠ .ok := by
  unfold newSlot at h
  split_ifs at h
  · cases h
    decide
  · cases h
    decide
  · cases h
    decide
  split at h
  · cases h
    decide
  · cases h

theorem CatalogOk.name_eq_none (h : bd.CatalogOk) {name : CStr}
    (hl : bd.collectionNameLookup name = invalidMBID) : bd.collectionNameMap name = none := by
  cases hm : bd.collectionNameMap name with
  | none => rfl
  | some i =>
    have hi := ((h.name_iff name i).mp hm).1.1
    rw [collectionNameLookup, hm] at hl
    have hlt : mmeSlots < invalidMBID := by decide
    exact absurd hl (ne_of_lt (hi.trans hlt))

theorem CatalogOk.id_eq_none (h : bd.CatalogOk) {id : ℕ} (hv : isValidCLUniqueID id = true)
    (hl : bd.collectionIdLookup id = invalidMBID) : bd.collectionIDMap id = none := by
  cases hm : bd.collectionIDMap id with
  | none => rfl
  | some i =>
    have hi := ((h.id_iff id i hv).mp hm).1.1
    rw [collectionIdLookup, if_pos hv, hm] at hl
    have hlt : mmeSlots < invalidMBID := by decide
    exact absurd hl (ne_of_lt (hi.trans hlt))

theorem published_enter (hnew : bd.newSlot args = .ok slot)
    (hcheck : dmsCheckCLName args.name args.sysCollection = .ok) (mbEx addr : ℕ) :
    bd.Published ((bd.enterCollection args slot).enterMetaExtent slot mbEx addr) args slot := by
  obtain ⟨hlt, hfree, hnum, -, -⟩ := newSlot_ok hnew
  have hmax : mmeSlots < invalidMBID := by decide
  have hinv : slot ≠ invalidMBID := ne_of_lt (hlt.trans hmax)
  have hflag : (bd.mme slot).flag = 0 := by simpa [MB.isFree] using hfree
  have hslots : mmeSlots < 2 ^ 32 := by decide
  refine ⟨hlt, hfree, ?_, ?_, ?_, fun j hj => ?_, fun _ => rfl, fun _ => rfl,
    u32_of_lt (by omega), rfl⟩
  · simp [enterMetaExtent, enterCollection, collectionInsert, MB.reset, MB.inUse, hinv, hflag]
  · simp [enterMetaExtent, enterCollection, collectionInsert, MB.reset,
      take_of_dmsCheckCLName hcheck]
  · simp [enterMetaExtent, enterCollection, collectionInsert, MB.reset]
  · simp [enterMetaExtent, enterCollection, collectionInsert, hj]

/-- The pages from `page` on are mapped and reserved, and nobody owns one. -/
structure Unowned (bd : BlockData) (owned : ℕ → Owned) (page k : ℕ) : Prop where
  within : page + k ≤ bd.mappedPages
  reserved : ∀ p, page ≤ p → p < page + k → ¬ bd.smeMgr.sme.Free p
  apart : ∀ j, bd.InUse j → ∀ p, page ≤ p → p < page + k → ¬ (owned j).Has p

/-- **A collection is entered** with pages for its meta extent that nobody owns. -/
theorem StoreOk.enter (h : bd.StoreOk n owned) (hs : bd.Synced) (hnew : bd.newSlot args = .ok slot)
    (hcheck : dmsCheckCLName args.name args.sysCollection = .ok) (hun : bd.Unowned owned mbEx 9)
    (hbd : bd' =
      (bd.enterCollection args slot).enterMetaExtent slot mbEx (mbEx * bd.pageSize.bytes)) :
    bd'.StoreOk n (Function.update owned slot (bare mbEx)) ∧ bd'.Synced := by
  have hpub : bd.Published bd' args slot := hbd ▸ published_enter hnew hcheck _ _
  have hmme : bd'.mme slot = { (bd.mme slot).reset args.name args.clUniqueID slot
      bd.header.mbhwm args.attributes with mbExExtentID := some mbEx } := by
    simp [hbd, enterMetaExtent, enterCollection, collectionInsert, MB.reset]
  have hstat : bd'.mbStatInfo = Function.update bd.mbStatInfo slot
      { startLID := bd.header.mbhwm } := by rw [hbd]; rfl
  have hdata : bd'.data = MetaExtent.init bd.data (mbEx * bd.pageSize.bytes)
      bd.pageSize.mbExSize slot bd.pageSize.maxSegmentNum := by rw [hbd]; rfl
  have hsme : bd'.smeMgr = bd.smeMgr := by rw [hbd]; rfl
  have hpages : bd'.mappedPages = bd.mappedPages := by rw [hbd]; rfl
  have hagr : bd'.Agrees n := by
    have ha := h.agrees
    rw [hbd]
    exact ⟨⟨ha.header.eyeCatcher, ha.header.version, ha.header.pageSize_eq, ha.header.pageNum_le,
      ha.header.size_sub, ha.header.name⟩, ha.pageNum_eq, ha.current, ha.size_le, ha.segmentSize_eq,
      ha.mapped, ha.maxSegID_eq, ha.mgr, ha.segmentNum_eq⟩
  have hfp : bd'.smeMgr.freePos ≤ n := hsme ▸ h.freePos_le
  clear hbd
  have hbare : ∀ p, (bare mbEx).Has p ↔ mbEx ≤ p ∧ p < mbEx + 9 := fun p => by
    simp [bare, Owned.Has]
  refine ⟨⟨hagr, hfp, fun j hj => ?_, fun j k hj hk hjk => ?_⟩, fun j hj => ?_⟩
  · by_cases hjs : j = slot
    · subst hjs
      rw [update_self]
      have hcol : (bd'.col j).mb = bd'.mme j := rfl
      have hid : (bd'.mme j).blockID = j := by rw [hmme]; rfl
      have hnone : ∀ {P : ℕ → Prop}, ∀ e ∈ (bare mbEx).added, P e := fun e he =>
        absurd he not_mem_nil
      refine ⟨⟨?_, ?_, hnone, hnone, hnone, hnone, hnone, hnone, fun s _ => ?_, fun _ _ => ?_,
        fun _ _ rid => ?_⟩, hid, ?_, ?_, fun p hp => ?_⟩
      · have hinit : (bd'.col j).data = MetaExtent.init bd.data ((bd'.col j).addr mbEx)
            (bd'.col j).pageSize.mbExSize j (bd'.col j).pageSize.maxSegmentNum := by
          change bd'.data = MetaExtent.init bd.data (mbEx * bd'.pageSize.bytes) bd'.pageSize.mbExSize j
            bd'.pageSize.maxSegmentNum
          rw [hdata, hpub.pageSize_eq]
        refine Col.chainOk_nil ?_ ?_ hagr.mappedPages_le ?_ ?_ hinit
        · rw [hcol, hmme]
          rfl
        · rw [PageSize.mbExSize_eq]
          change mbEx + 9 ≤ bd'.mappedPages
          rw [hpages]
          exact hun.within
        · rw [hcol, hmme]
          rfl
        · rw [hcol, hmme]
          rfl
      · rw [hcol, hid]
        exact hpub.slot_lt
      · rw [hcol, hmme]
        exact rfl
      · exact nodup_nil
      · simp [bare]
      · rw [hstat, update_self]
        exact ⟨rfl, rfl, rfl, fun _ => rfl⟩
      · rw [hstat, update_self]
      · rw [hsme]
        rw [hbare] at hp
        exact hun.reserved p hp.1 hp.2
    · rw [update_of_ne hjs]
      have hju : bd.InUse j := ((hpub.inUse_iff j).mp hj).resolve_left hjs
      have hslot := h.slot j hju
      refine hslot.congr hpub.pageSize_eq hpages.ge hagr.mappedPages_le (by rw [hpub.others j hjs])
        (by rw [hstat, update_of_ne hjs]) (hsme ▸ hslot.reserved) fun a k hk hown => ?_
      have hout := Owned.outside (o := bare mbEx) (c := bd.col j)
          (fun e he => absurd he not_mem_nil) hk fun p h1 h2 hp => by
        rw [hbare] at hp
        exact hun.apart j hju p hp.1 hp.2 (hown p h1 h2)
      have hle := bd.pageSize.le_bytes
      rw [hdata]
      refine MetaExtent.sameOn_init _ _ (hout.1.imp_right fun hge => ?_)
      rw [PageSize.maxSegmentNum_eq]
      change mbEx * bd.pageSize.bytes + 9 * bd.pageSize.bytes ≤ (bd.col j).addr a at hge
      omega
  · rw [hpub.inUse_iff] at hj hk
    intro p
    by_cases hjs : j = slot
    · subst hjs
      rw [update_self, update_of_ne hjk.symm, hbare]
      exact fun hp => hun.apart k (hk.resolve_left hjk.symm) p hp.1 hp.2
    have hju := hj.resolve_left hjs
    rw [update_of_ne hjs]
    by_cases hks : k = slot
    · subst hks
      rw [update_self, hbare]
      exact fun hown hp => hun.apart j hju p hp.1 hp.2 hown
    · rw [update_of_ne hks]
      exact h.apart j k hju (hk.resolve_left hks) hjk p
  · by_cases hjs : j = slot
    · subst hjs
      rw [hmme, hstat, update_self]
      rfl
    · rw [hpub.others j hjs, hstat, update_of_ne hjs]
      exact hs j (((hpub.inUse_iff j).mp hj).resolve_left hjs)

end Publish

/-! ## What `addCollection` does -/

/-- The collection has been entered into the slot, with what `o` says; no page is reserved for
anything else. -/
structure Entered (bd bd' : BlockData) (n : ℕ) (owned : ℕ → Owned) (args : AddArgs) (slot : ℕ)
    (o : Owned) : Prop where
  store : bd'.StoreOk n (update owned slot o)
  synced : bd'.Synced
  catalog : bd'.CatalogOk
  published : bd.Published bd' args slot
  fills : bd.Fills bd' o

section Add
variable {bd bd' : BlockData} {args : AddArgs} {slot n mbEx : ℕ} {owned : ℕ → Owned}

section
variable (h : bd.StoreOk n owned)
include h

theorem StoreOk.unowned {n' k page : ℕ} (hf : bd.Found bd' n' k page) :
    bd'.Unowned owned page k where
  within := by
    rw [hf.agrees.mappedPages_eq, hf.grown.pageSize_eq]
    exact hf.within
  reserved := fun p h1 h2 => by
    rw [hf.sme_eq, SME.free_setRange]
    exact fun hfree => hfree.2 ⟨h1, h2⟩
  apart := fun j hj p h1 h2 hown => by
    rw [InUse, hf.grown.mme_eq] at hj
    exact (h.slot j hj).reserved p hown (hf.free p h1 h2)

theorem StoreOk.found {n' k page : ℕ} (hf : bd.Found bd' n' k page)
    (hle : n ≤ n') : bd'.StoreOk n' owned :=
  h.grown hf.grown hf.agrees hle hf.freePos_le fun p hp => by
    rw [hf.sme_eq, SME.free_setRange] at hp
    exact hp.1

theorem StoreOk.releaseSpace {n' k page : ℕ}
    (hf : bd.Found bd' n' k page) (hle : n ≤ n') (h0 : 0 < k) :
    bd.Kept (bd'.releaseSpace page k) n' owned := by
  have hlen : bd'.smeMgr.segments.length = n' := hf.agrees.segmentNum_eq
  have hps := hf.grown.pageSize_eq
  have hun := h.unowned hf
  have hrel : SMEMgr.InRange bd'.pageSize.layout bd'.smeMgr page k ∧
      ¬ SMEMgr.TouchesFree bd'.smeMgr page k := by
    obtain ⟨j, hj, hlo, hhi⟩ := hf.segment
    refine ⟨⟨j, hlen.symm ▸ hj, ?_⟩, fun ⟨p, h1, h2, hp⟩ => hun.reserved p (by omega) (by omega) hp⟩
    rw [PageSize.layout_segmentPages, hps]
    omega
  have hhint := SMEMgr.freePos_releasePages hf.agrees.mgr page k
  rcases SMEMgr.releasePages_spec hf.agrees.mgr page k with
    ⟨-, m, heq, hinv, hsme, hlen'⟩ | ⟨hbad, -⟩
  · rw [heq] at hhint
    rw [BlockData.releaseSpace, heq]
    have hgrown := hf.grown.trans (bd'.grown_mgr m)
    have hfree : ∀ p, m.sme.Free p ↔ bd.smeMgr.sme.Free p := by
      intro p
      rw [hsme, SME.free_freeRange, hf.sme_eq, SME.free_setRange, Int.toNat_natCast]
      constructor
      · rintro (hp | hp)
        · exact hp.1
        · exact hf.free p hp.1 hp.2
      intro hp
      by_cases hin : page ≤ p ∧ p < page + k
      · exact .inr hin
      · exact .inl ⟨hp, hin⟩
    exact ⟨h.grown hgrown (hf.agrees.setMgr hinv (hlen'.trans hlen)) hle (hhint.trans hf.freePos_le)
      fun p => (hfree p).mp, hgrown, hfree⟩
  · exact absurd hrel hbad

/-- The collection can be entered: name and ID are good and new, a slot is free, and there are
pages. -/
structure Admits (bd : BlockData) (env : AddEnv) (args : AddArgs) (bd₁ : BlockData)
    (mbEx slot : ℕ) : Prop where
  check : dmsCheckCLName args.name args.sysCollection = .ok
  found : findFreeSpace env.osMeta 2 bd none bd.pageSize.mbExSize = some (.ok mbEx, none, bd₁)
  newSlot : bd₁.newSlot args = .ok slot

theorem StoreOk.enterFound (hs : bd.Synced) (hc : bd.CatalogOk)
    (hcheck : dmsCheckCLName args.name args.sysCollection = .ok) {n' : ℕ}
    (hf : bd.Found bd' n' 9 mbEx) (hle : n ≤ n') (hslot : bd'.newSlot args = .ok slot) :
    bd.Entered (((bd'.enterCollection args slot).enterMetaExtent slot mbEx
      (mbEx * bd'.pageSize.bytes)).markHeaderInvalid slot) n' owned args slot (bare mbEx) := by
  have hs' : bd'.Synced := fun i hi => by
    rw [InUse, hf.grown.mme_eq] at hi
    rw [hf.grown.mme_eq, hf.grown.stat_eq]
    exact hs i hi
  obtain ⟨hstore, hsync⟩ := (h.found hf hle).enter hs' hslot hcheck (h.unowned hf) rfl
  have hpub := published_enter hslot hcheck mbEx (mbEx * bd'.pageSize.bytes)
  have hgrown := hsync.grown_markHeaderInvalid slot
  have hpub' := (hpub.trans (hgrown.sameCatalog slot)).of_grown hf.grown
  have hsme : (((bd'.enterCollection args slot).enterMetaExtent slot mbEx
      (mbEx * bd'.pageSize.bytes)).markHeaderInvalid slot).smeMgr = bd'.smeMgr :=
    smeMgr_markHeaderInvalid ..
  obtain ⟨hstore', hsync'⟩ := hstore.markHeaderInvalid ⟨hpub.slot_lt, hpub.inUse⟩
  obtain ⟨-, -, -, hname, hid⟩ := newSlot_ok hslot
  have hc' := hc.sameCatalog (hf.grown.sameCatalog 0)
  refine ⟨hstore', hsync', hc.published hpub' ?_ fun hv => ?_, hpub', fun p hp => ?_⟩
  · rw [← hf.grown.names_eq]
    exact hc'.name_eq_none hname
  · rw [← hf.grown.ids_eq]
    exact hc'.id_eq_none hv hid
  · rw [hsme, hf.sme_eq, SME.free_setRange, not_and, not_not] at hp
    exact (Classical.em _).symm.imp id fun hfree => .inl (hp hfree)

/-- **The first part of `addCollection`** fails and leaves the unit, enters the collection, or
panics. -/
theorem StoreOk.addCollection_cases (hs : bd.Synced) (hc : bd.CatalogOk)
    (env : AddEnv) (args : AddArgs) :
    ((∀ bd₁ mbEx slot, ¬ bd.Admits env args bd₁ mbEx slot) ∧
      ∃ rc n' bd', bd.addCollection env args = some (rc, bd') ∧ rc ≠ .ok ∧ bd.Kept bd' n' owned ∧
        (dmsCheckCLName args.name args.sysCollection ≠ .ok ∨ (∀ slot, bd.newSlot args ≠ .ok slot) ∨
          bd.Stuck env.osMeta)) ∨
    (∃ bd₁ mbEx slot n' bd', bd.Admits env args bd₁ mbEx slot ∧ n' ≤ n + 1 ∧
      bd' = ((bd₁.enterCollection args slot).enterMetaExtent slot mbEx
        (mbEx * bd₁.pageSize.bytes)).markHeaderInvalid slot ∧
      bd.addCollection env args = bd'.addFirstExtent env args slot (bd'.mme slot).logicalID ∧
      bd.Entered bd' n' owned args slot (bare mbEx)) ∨
    (bd.addCollection env args = none ∧ bd.Stuck env.osMeta) := by
  unfold BlockData.addCollection
  by_cases hcheck : dmsCheckCLName args.name args.sysCollection = .ok
  swap
  · rw [if_pos hcheck]
    exact .inl ⟨fun _ _ _ ha => hcheck ha.check, _, n, bd, rfl, hcheck, ⟨h, .rfl, fun _ => .rfl⟩,
      .inl hcheck⟩
  rw [if_neg (not_not.mpr hcheck)]
  have h9 : bd.pageSize.mbExSize = 9 := bd.pageSize.mbExSize_eq
  have hsp : 9 ≤ bd.pageSize.segmentPages := by cases bd.pageSize <;> decide
  rcases h.agrees.findFreeSpace (k := bd.pageSize.mbExSize) h.freePos_le (by omega) (by omega)
      env.osMeta (fun c (hc : c ∈ (none : Option MBContext)) => by cases hc) with
    ⟨page, n', bd₁, heq, hf, hle, hle'⟩ | ⟨rc, bd₁, heq, hne, hst, hagr, hfp, hg, hsme⟩ | ⟨heq, hst⟩
  · rw [heq]
    dsimp only
    have hps := hf.grown.pageSize_eq
    cases hslot : bd₁.newSlot args with
    | error rc =>
      refine .inl ⟨fun bd₁' mbEx slot ha => ?_, rc, n', _, rfl, newSlot_error hslot, ?_,
        .inr (.inl fun slot hs' => ?_)⟩
      · have hfound := ha.found
        rw [heq] at hfound
        cases hfound
        cases hslot.symm.trans ha.newSlot
      · rw [hps]
        exact h.releaseSpace hf hle (by omega)
      · rw [← hf.grown.newSlot_eq, hslot] at hs'
        cases hs'
    | ok slot =>
      have hent := h.enterFound hs hc hcheck (h9 ▸ hf) hle hslot
      have haddr : (bd₁.enterCollection args slot).extentAddr (some page) =
          some (page * bd₁.pageSize.bytes) := by
        have hlt : page < (bd₁.col 0).pages := by
          change page < bd₁.mappedPages
          have := (h.unowned hf).within
          omega
        have hseg := hf.agrees.maxSegID_eq
        calc (bd₁.enterCollection args slot).extentAddr (some page)
            = bd₁.extentAddr (some page) := rfl
          _ = (bd₁.col 0).extentAddr (some page) := (extentAddr_col bd₁ 0 (by omega) _).symm
          _ = some (page * bd₁.pageSize.bytes) := (bd₁.col 0).extentAddr_of_lt hlt
      dsimp only
      rw [haddr]
      have hlid : ((((bd₁.enterCollection args slot).enterMetaExtent slot page
          (page * bd₁.pageSize.bytes)).markHeaderInvalid slot).mme slot).logicalID =
          bd₁.header.mbhwm := by
        obtain ⟨mme, msync, dirtyList, hmark, hmme, -⟩ := ((bd₁.enterCollection args
          slot).enterMetaExtent slot page (page * bd₁.pageSize.bytes)).markHeaderInvalid_eq slot
        rw [hmark]
        change (mme slot).logicalID = _
        rw [hmme]
        simp [enterMetaExtent, enterCollection, collectionInsert, MB.reset]
      exact .inr (.inl ⟨bd₁, page, slot, n', _, ⟨hcheck, heq, hslot⟩, hle', rfl, by rw [hlid], hent⟩)
  · rw [heq]
    have hfree : ∀ p, bd₁.smeMgr.sme.Free p ↔ bd.smeMgr.sme.Free p := fun p => by rw [hsme]
    refine .inl ⟨fun bd₁' mbEx slot ha => ?_, rc, n, bd₁, rfl, hne,
      ⟨h.grown hg hagr le_rfl hfp fun p => (hfree p).mp, hg, hfree⟩, .inr (.inr hst)⟩
    have hfound := ha.found
    rw [heq] at hfound
    simp at hfound
  · rw [heq]
    exact .inr (.inr ⟨rfl, hst⟩)

/-- **The second part of `addCollection`** fails and leaves the collections, may add an extent, or
panics. -/
theorem StoreOk.addFirstExtent (hs : bd.Synced) (hi : bd.InUse slot)
    (env : AddEnv) (args : AddArgs) :
    (∃ rc n' bd', bd.addFirstExtent env args slot (bd.mme slot).logicalID = some (rc, bd') ∧
      rc ≠ .ok ∧ bd.Kept bd' n' owned ∧ (env.alloc = false ∨
        args.initPages > bd.pageSize.segmentPages ∨ bd.Stuck env.os)) ∨
    (∃ n' o l bd', bd.addFirstExtent env args slot (bd.mme slot).logicalID = some (.ok, bd') ∧
      bd.Changed bd' n' owned slot o ∧ (owned slot).Grows o l ∧
      (args.initPages.val ≠ 0 → l ≠ []) ∧ n' ≤ n + 1) ∨
    (bd.addFirstExtent env args slot (bd.mme slot).logicalID = none ∧ bd.Stuck env.os) := by
  unfold BlockData.addFirstExtent
  have hkeep : Function.update owned slot (owned slot) = owned := update_eq_self ..
  rw [getMBContext_eq hi.1 hi.2]
  by_cases halloc : env.alloc = true
  swap
  · rw [if_neg halloc]
    exact .inl ⟨_, n, bd, rfl, by decide, ⟨h, .rfl, fun _ => .rfl⟩, .inl (by simpa using halloc)⟩
  rw [if_pos halloc]
  dsimp only
  by_cases h0 : args.initPages.val ≠ 0
  · rw [if_pos h0]
    have hvalid : (⟨slot, (bd.mme slot).logicalID, some .exclusive, none⟩ : MBContext).Valid bd.mme :=
      ⟨hi.1, hi.2, rfl, rfl⟩
    rcases h.allocateExtent hs hvalid env.os args.initPages with
      ⟨n', o, x, bd', heq, hch, hgrows, -, hle⟩ | ⟨rc, ctx', n', bd', heq, hne, hk, hwhy⟩ | ⟨heq, hst⟩
    · rw [heq]
      obtain ⟨m, hm⟩ := hch.synced.flushMeta_eq false []
      refine .inr (.inl ⟨n', o, [x], _, rfl, ?_, hgrows, fun _ => cons_ne_nil _ _, hle⟩)
      rw [hm]
      exact ⟨hch.store.setMsync m, hch.synced,
        hch.catalog.trans ((bd'.grown_msync m).sameCatalog slot), hch.fills⟩
    · rw [heq]
      have hwhy' : env.alloc = false ∨ args.initPages > bd.pageSize.segmentPages ∨ bd.Stuck env.os := by
        rcases hwhy with hbig | hzero | hst
        · exact .inr (.inl hbig)
        · omega
        · exact .inr (.inr hst)
      cases rc <;> first | exact absurd rfl hne | exact .inl ⟨_, n', bd', rfl, hne, hk, hwhy'⟩
    · rw [heq]
      exact .inr (.inr ⟨rfl, hst⟩)
  · rw [if_neg h0]
    obtain ⟨m, hm⟩ := hs.flushMeta_eq false []
    refine .inr (.inl ⟨n, owned slot, [], _, rfl, ?_, .rfl, fun hne => absurd hne h0, Nat.le_succ n⟩)
    rw [hm]
    exact ⟨by rw [hkeep]; exact h.setMsync m, hs, (bd.grown_msync m).sameCatalog slot,
      fun p hp => .inl hp⟩

end

end Add

end BlockData

end Novachains.Dms
