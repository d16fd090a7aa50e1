import Novachains.Dms.Collection
import Novachains.Dms.InsertRecord

/-!
# Runs of a storage unit

A unit that was just created is changed by any sequence of `addCollection`,
`_allocateExtent` and `insertRecord`.  Each step is one call, whatever it returns; a call
that panics has no next state.
-/

namespace Novachains.Dms

open Lib Oss Function

/-- How a call gets its context: the arguments of `getMBContext` and whether the context can be
allocated. -/
structure ContextArgs where
  mbID : ℕ
  clLID : ℕ
  lockType : Option Latch
  alloc : Bool

/-- The calls on a unit; `_allocateExtent` has the flags of all its callers. -/
inductive StoreOp
  | addCollection (env : AddEnv) (args : AddArgs)
  | allocateExtent (c : ContextArgs) (os : ℕ → GrowOs) (numPages : ℕ)
  | insertRecord (c : ContextArgs) (env : InsertEnv) (record : BSONObj) (mustOID : Bool)
      (position : ℤ)

def ContextArgs.call (c : ContextArgs) (bd : BlockData)
    (f : MBContext → Option (Rc × MBContext × BlockData)) : Option (Rc × BlockData) :=
  match bd.getMBContext c.mbID c.clLID c.lockType c.alloc with
  | .error rc => some (rc, bd)
  | .ok ctx => (f ctx).map fun r => (r.1, r.2.2)

/-- What a call returns and leaves; there is no result when the process panics. -/
def StoreOp.run (bd : BlockData) : StoreOp → Option (Rc × BlockData)
  | .addCollection env args => bd.addCollection env args
  | .allocateExtent c os numPages =>
    c.call bd fun ctx => bd.allocateExtent os ctx numPages true false
  | .insertRecord c env record mustOID position =>
    c.call bd fun ctx => bd.insertRecord env ctx record mustOID position

def BlockData.NewUnit (bd : BlockData) : Prop :=
  ∃ info img os, img.fileSize = 0 ∧ openStorage info img true os = .ok bd

/-- The runs whose calls all satisfy `P`, in the state they are made in. -/
def storeSystem (P : BlockData → StoreOp → Prop) : System BlockData where
  init := BlockData.NewUnit
  step := fun bd bd' => ∃ op rc, P bd op ∧ op.run bd = some (rc, bd')

namespace BlockData

structure Sound (bd : BlockData) (n : ℕ) (owned : ℕ → Owned) : Prop where
  store : bd.StoreOk n owned
  synced : bd.Synced
  catalog : bd.CatalogOk
  noLeak : bd.NoLeak owned

variable {bd : BlockData}

theorem openStorage_new {info : StorageInfo} {img : Image} {os : OpenOs}
    (h : openStorage info img true os = .ok bd) (h0 : img.fileSize = 0) :
    openStorage info (initializeStorageUnit info img) true os = .ok bd := by
  have hfill : ∀ img', fillIfEmpty info img true os = .ok img' →
      img' = initializeStorageUnit info img := by
    intro img' himg
    rw [fillIfEmpty, if_pos h0] at himg
    simp only [bind_eq_ok] at himg
    obtain ⟨_, -, _, -, _, -, himg⟩ := himg
    exact (Except.ok.inj himg).symm
  simp only [openStorage, bind_eq_ok] at h ⊢
  obtain ⟨u₁, h₁, u₂, h₂, u₃, h₃, img', himg, hrest⟩ := h
  obtain rfl := hfill img' himg
  exact ⟨u₁, h₁, u₂, h₂, u₃, h₃, _, fillIfEmpty_of_le info true os le_rfl, hrest⟩

theorem loadCollections_of_not_inUse (h : ∀ i, (bd.mme i).inUse = false) :
    bd.loadCollections = bd := by
  rw [loadCollections]
  generalize List.range mmeSlots = l
  induction l with
  | nil => rfl
  | cons i l ih =>
    rw [List.foldl_cons, loadCollection, h i]
    exact ih

theorem NewUnit.empty (h : bd.NewUnit) :
    bd.Agrees 0 ∧ bd.smeMgr.freePos = 0 ∧ bd.smeMgr.sme = SME.empty ∧
      (∀ i, bd.mme i = MB.free) ∧ (∀ name, bd.collectionNameMap name = none) ∧
      (∀ id, bd.collectionIDMap id = none) := by
  obtain ⟨info, img, os, h0, hopen⟩ := h
  have hnew := openStorage_new hopen h0
  have hsize : dataOffset ≤ (initializeStorageUnit info img).fileSize := le_rfl
  have hpn : (initializeStorageUnit info img).header.pageNum = 0 := rfl
  have hdvd : bd.pageSize.segmentPages ∣ (initializeStorageUnit info img).header.pageNum :=
    dvd_zero _
  have hagr := (agrees_openStorage hnew hsize hdvd).2.1
  rw [hpn, Nat.zero_div] at hagr
  obtain ⟨p, info', mgr, file, -, hm, -, dirty, hbd⟩ := openStorage_loaded hnew hsize
  have hfree : ∀ i, MB.inUse ((initializeStorageUnit info img).mme i) = false := fun _ => by
    change MB.free.inUse = false
    decide
  rw [loadCollections_of_not_inUse (by exact hfree)] at hbd
  subst hbd
  have hmgr : mgr.sme = SME.empty ∧ mgr.freePos = 0 := by
    rw [hpn] at hm
    rcases SMEMgr.init_spec p.layout (initializeStorageUnit info img).sme 0 os.smeAlloc
        (by omega) with ⟨m, heq, -, hsme, hfp, -⟩ | ⟨heq, -⟩
    · rw [zero_mul, hm] at heq
      cases heq
      exact ⟨hsme, hfp⟩
    · rw [zero_mul, hm] at heq
      cases heq
  exact ⟨hagr, hmgr.2, hmgr.1, fun _ => rfl, fun _ => rfl, fun _ => rfl⟩

theorem NewUnit.not_inUse (h : bd.NewUnit) (i : ℕ) : ¬ bd.InUse i := by
  rintro ⟨-, hu⟩
  rw [h.empty.2.2.2.1 i] at hu
  cases hu

theorem NewUnit.sound (h : bd.NewUnit) (owned : ℕ → Owned) : bd.Sound 0 owned := by
  obtain ⟨hagr, hfp, hsme, -, hnames, hids⟩ := h.empty
  refine ⟨⟨hagr, hfp.le, fun i hi => absurd hi (h.not_inUse i),
    fun i _ hi => absurd hi (h.not_inUse i)⟩, fun i hi => absurd hi (h.not_inUse i),
    ⟨fun name i => ?_, fun id i _ => ?_⟩, fun p hp => ?_⟩
  · rw [hnames]
    exact ⟨nofun, fun hi => absurd hi.1 (h.not_inUse i)⟩
  · rw [hids]
    exact ⟨nofun, fun hi => absurd hi.1 (h.not_inUse i)⟩
  · rw [hsme] at hp
    exact absurd (Bitmap.get_zero p) hp

/-! ## Steps -/

inductive Outcome (bd bd' : BlockData) (owned : ℕ → Owned) : StoreOp → Rc → (ℕ → Owned) → Prop
  /-- A call that fails and leaves the collections. -/
  | kept {op : StoreOp} {rc : Rc} (hrc : rc ≠ .ok) (hg : bd.Grown bd') :
    Outcome bd bd' owned op rc owned
  /-- A collection is entered, maybe with a first extent; the call may fail all the same. -/
  | entered {env : AddEnv} {args : AddArgs} {rc : Rc} {slot mbEx : ℕ} {o : Owned} {l : List ℕ}
      (hp : bd.Published bd' args slot) (hg : (bare mbEx).Grows o l) :
      Outcome bd bd' owned (.addCollection env args) rc (update owned slot o)
  /-- A collection gets an extent. -/
  | extended {c : ContextArgs} {os : ℕ → GrowOs} {numPages x : ℕ} {o : Owned}
      (hi : bd.InUse c.mbID) (hc : bd.SameCatalog bd' c.mbID) (hg : (owned c.mbID).Grows o [x]) :
      Outcome bd bd' owned (.allocateExtent c os numPages) .ok (update owned c.mbID o)
  /-- A collection gets a record. -/
  | inserted {c : ContextArgs} {env : InsertEnv} {record : BSONObj} {mustOID : Bool} {position : ℤ}
      {o o' : Owned} {l : List ℕ} {x : ℕ} {r : Rec} (hi : bd.InUse c.mbID)
      (hc : bd.SameCatalog bd' c.mbID) (hs : env.stored record mustOID = some (.ok r.data))
      (hg : (owned c.mbID).Grows o l) (hr : o.Gets o' x r) :
      Outcome bd bd' owned (.insertRecord c env record mustOID position) .ok
        (update owned c.mbID o')
  /-- A record is refused after a block has been taken for it. -/
  | lost {c : ContextArgs} {env : InsertEnv} {record : BSONObj} {mustOID : Bool} {position : ℤ}
      {o o' : Owned} {l : List ℕ} {x : ℕ} {f : Run} (hi : bd.InUse c.mbID)
      (hc : bd.SameCatalog bd' c.mbID)
      (hs : record.bytes.length < minRecordDataSz ∧ mustOID = false ∧ position < 0)
      (hg : (owned c.mbID).Grows o l) (hl : o.Loses o' x f) :
      Outcome bd bd' owned (.insertRecord c env record mustOID position) .invalidArg
        (update owned c.mbID o')

section Step
variable {bd bd' : BlockData} {n : ℕ} {owned : ℕ → Owned} {rc : Rc}
variable {n' : ℕ}

theorem Sound.kept (h : bd.Sound n owned) (hk : bd.Kept bd' n' owned) : bd'.Sound n' owned :=
  ⟨hk.store, hk.synced h.synced, h.catalog.sameCatalog (hk.grown.sameCatalog 0), h.noLeak.kept hk⟩

theorem Sound.changed (h : bd.Sound n owned) {i : ℕ} {o : Owned} (hi : bd.InUse i)
    (hc : bd.Changed bd' n' owned i o) (hgrow : ∀ p, (owned i).Has p → o.Has p) :
    bd'.Sound n' (update owned i o) :=
  ⟨hc.store, hc.synced, h.catalog.sameCatalog hc.catalog, h.noLeak.changed hi hc hgrow⟩

theorem Sound.entered (h : bd.Sound n owned) {slot : ℕ} {o : Owned} {args : AddArgs}
    (he : bd.Entered bd' n' owned args slot o) : bd'.Sound n' (update owned slot o) := by
  refine ⟨he.store, he.synced, he.catalog, fun p hp => ?_⟩
  rcases he.fills p hp with hold | hnew
  · obtain ⟨j, hj, hown⟩ := h.noLeak p hold
    have hne : j ≠ slot := fun hjs => he.published.not_inUse (hjs ▸ hj)
    exact ⟨j, (he.published.inUse_iff j).mpr (.inr hj), by rwa [update_of_ne hne]⟩
  · exact ⟨slot, (he.published.inUse_iff slot).mpr (.inl rfl), by rwa [update_self]⟩

theorem Sound.addCollection (h : bd.Sound n owned) {env : AddEnv} {args : AddArgs}
    (hrun : bd.addCollection env args = some (rc, bd')) :
    ∃ n' owned', bd'.Sound n' owned' ∧
      Outcome bd bd' owned (.addCollection env args) rc owned' := by
  rcases h.store.addCollection_cases h.synced h.catalog env args with
    ⟨-, rc', n', bd₁, heq, hne, hk, -⟩ | ⟨bd₁, mbEx, slot, n', bd₂, -, -, -, heq, hent⟩ | ⟨heq, -⟩
  · obtain ⟨rfl, rfl⟩ : rc' = rc ∧ bd₁ = bd' := by
      rw [hrun] at heq
      simpa [eq_comm] using heq
    exact ⟨n', owned, h.kept hk, .kept hne hk.grown⟩
  · have h₂ := h.entered hent
    have hi : bd₂.InUse slot := (hent.published.inUse_iff slot).mpr (.inl rfl)
    rw [hrun] at heq
    rcases hent.store.addFirstExtent hent.synced hi env args with
      ⟨rc', n'', bd₃, heq', -, hk, -⟩ | ⟨n'', o, l, bd₃, heq', hch, hgrows, -⟩ | ⟨heq', -⟩
    · obtain ⟨rfl, rfl⟩ : rc' = rc ∧ bd₃ = bd' := by
        rw [← heq] at heq'
        simpa [eq_comm] using heq'
      exact ⟨n'', _, h₂.kept hk, .entered (hent.published.trans (hk.grown.sameCatalog slot)) .rfl⟩
    · obtain ⟨-, rfl⟩ : Rc.ok = rc ∧ bd₃ = bd' := by
        rw [← heq] at heq'
        simpa [eq_comm] using heq'
      rw [update_self] at hgrows
      have h₃ := h₂.changed hi hch fun p hp => hgrows.has (by rwa [update_self] at hp)
      rw [update_idem] at h₃
      exact ⟨n'', _, h₃, .entered (hent.published.trans hch.catalog) hgrows⟩
    · rw [← heq] at heq'
      cases heq'
  · rw [hrun] at heq
    cases heq

theorem allocateExtent_dead {ctx : MBContext}
    (hdead : ∀ t, ctx.mbLock (bd.mme ctx.mbID) t = (.dmsNotExist, ctx)) (os : ℕ → GrowOs)
    (numPages : ℕ) :
    ∃ rc, bd.allocateExtent os ctx numPages true false = some (rc, ctx, bd) ∧ rc ≠ .ok := by
  unfold allocateExtent
  split
  · exact ⟨_, rfl, by decide⟩
  · rw [hdead]
    exact ⟨_, rfl, by decide⟩

theorem insertRecord_dead {ctx ctx' : MBContext}
    (hdead : ∀ t, ctx.mbLock (bd.mme ctx.mbID) t = (.dmsNotExist, ctx)) {env : InsertEnv}
    {record : BSONObj} {mustOID : Bool} {position : ℤ}
    (h : bd.insertRecord env ctx record mustOID position = some (rc, ctx', bd')) :
    rc ≠ .ok ∧ bd' = bd := by
  unfold insertRecord at h
  rcases hd : env.stored record mustOID with - | rc | data <;> rw [hd] at h
  · cases h
  · cases h
    exact ⟨env.stored_error hd, rfl⟩
  · dsimp only at h
    rw [allocRecordSpace, hdead] at h
    split_ifs at h <;> cases h <;> exact ⟨by decide, rfl⟩

variable {c : ContextArgs}

theorem call_eq_some {f : MBContext → Option (Rc × MBContext × BlockData)}
    (h : c.call bd f = some (rc, bd')) :
    (rc ≠ .ok ∧ bd' = bd) ∨ ∃ ctx ctx', ctx.mbID = c.mbID ∧ f ctx = some (rc, ctx', bd') ∧
      (ctx.Valid bd.mme ∨ ∀ t, ctx.mbLock (bd.mme ctx.mbID) t = (.dmsNotExist, ctx)) := by
  unfold ContextArgs.call at h
  split at h
  next rc' hctx =>
    cases h
    exact .inl ⟨getMBContext_error hctx, rfl⟩
  next ctx hctx =>
    obtain ⟨hid, hval⟩ := getMBContext_ok hctx
    obtain ⟨⟨rc', ctx', bd''⟩, hf, heq⟩ := Option.map_eq_some_iff.mp h
    cases heq
    exact .inr ⟨ctx, ctx', hid, hf, hval⟩

theorem Sound.allocateExtent (h : bd.Sound n owned) {os : ℕ → GrowOs} {numPages : ℕ}
    (hrun : (StoreOp.allocateExtent c os numPages).run bd = some (rc, bd')) :
    ∃ n' owned', bd'.Sound n' owned' ∧
      Outcome bd bd' owned (.allocateExtent c os numPages) rc owned' := by
  rcases call_eq_some hrun with ⟨hne, rfl⟩ | ⟨ctx, ctx', hid, hf, hvalid | hdead⟩
  · exact ⟨n, owned, h, .kept hne .rfl⟩
  · rcases h.store.allocateExtent h.synced hvalid os numPages with
      ⟨n', o, x, bd₁, heq, hch, hgrows, -⟩ | ⟨rc', ctx₁, n', bd₁, heq, hne, hk, -⟩ | ⟨heq, -⟩
    · rw [hf] at heq
      cases heq
      have hi : bd.InUse c.mbID := hid ▸ ⟨hvalid.mbID_lt, hvalid.inUse⟩
      rw [hid] at hch hgrows
      exact ⟨n', _, h.changed hi hch fun _ => hgrows.has, .extended hi hch.catalog hgrows⟩
    · rw [hf] at heq
      cases heq
      exact ⟨n', owned, h.kept hk, .kept hne hk.grown⟩
    · rw [hf] at heq
      cases heq
  · obtain ⟨rc', heq, hne⟩ := allocateExtent_dead hdead os numPages
    rw [hf] at heq
    cases heq
    exact ⟨n, owned, h, .kept hne .rfl⟩

theorem Sound.insertRecord (h : bd.Sound n owned) {env : InsertEnv} {record : BSONObj}
    {mustOID : Bool} {position : ℤ}
    (hrun : (StoreOp.insertRecord c env record mustOID position).run bd = some (rc, bd')) :
    ∃ n' owned', bd'.Sound n' owned' ∧
      Outcome bd bd' owned (.insertRecord c env record mustOID position) rc owned' := by
  rcases call_eq_some hrun with ⟨hne, rfl⟩ | ⟨ctx, ctx', hid, hf, hvalid | hdead⟩
  · exact ⟨n, owned, h, .kept hne .rfl⟩
  · have hi : bd.InUse c.mbID := hid ▸ ⟨hvalid.mbID_lt, hvalid.inUse⟩
    rcases h.store.insertRecord h.synced hvalid env record mustOID position with
      ⟨_, n', o, o', l, x, r, bd₁, heq, hst, hch, hgrows, hgets, -⟩ |
      ⟨rc', _, n', bd₁, heq, hne, hk, -⟩ |
      ⟨_, n', o, o', l, x, f, bd₁, heq, hshort, hch, hgrows, hloses⟩ | ⟨heq, -⟩
    · rw [hf] at heq
      cases heq
      rw [hid] at hch hgrows
      refine ⟨n', _, h.changed hi hch fun p hp => ?_, .inserted hi hch.catalog hst hgrows hgets⟩
      exact (Owned.has_congr hgets.mbEx_eq hgets.added_eq hgets.pages_eq p).mpr (hgrows.has hp)
    · rw [hf] at heq
      cases heq
      exact ⟨n', owned, h.kept hk, .kept hne hk.grown⟩
    · rw [hf] at heq
      cases heq
      rw [hid] at hch hgrows
      refine ⟨n', _, h.changed hi hch fun p hp => ?_, .lost hi hch.catalog hshort hgrows hloses⟩
      exact (Owned.has_congr hloses.mbEx_eq hloses.added_eq hloses.pages_eq p).mpr (hgrows.has hp)
    · rw [hf] at heq
      cases heq
  · obtain ⟨hne, rfl⟩ := insertRecord_dead hdead hf
    exact ⟨n, owned, h, .kept hne .rfl⟩

/-- **Every call keeps a unit sound.** -/
theorem Sound.run (h : bd.Sound n owned) {op : StoreOp} (hrun : op.run bd = some (rc, bd')) :
    ∃ n' owned', bd'.Sound n' owned' ∧ Outcome bd bd' owned op rc owned' := by
  cases op with
  | addCollection env args => exact h.addCollection hrun
  | allocateExtent c os numPages => exact h.allocateExtent hrun
  | insertRecord c env record mustOID position => exact h.insertRecord hrun

end Step

theorem sound_invariant (P : BlockData → StoreOp → Prop) :
    (storeSystem P).Invariant fun bd => ∃ n owned, bd.Sound n owned where
  init := fun _ h => ⟨0, fun _ => bare 0, h.sound _⟩
  step := by
    rintro bd bd' ⟨n, owned, h⟩ ⟨op, rc, -, hrun⟩
    obtain ⟨n', owned', h', -⟩ := h.run hrun
    exact ⟨n', owned', h'⟩

end BlockData

end Novachains.Dms
