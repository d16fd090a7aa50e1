import Novachains.Dms.Agreement
import Novachains.Dms.Col

/-!
# Contexts and the search for free pages

A call on a collection goes through a context, which remembers the collection and how its
metadata block is locked.  `_findFreeSpace` takes pages from the space manager and extends
the unit when there are none; it lets go of the lock meanwhile.
-/

namespace Novachains.Dms

open Lib Oss

/-- `_dmsMBContext`; the lock types `-1` are `none`. -/
structure MBContext where
  mbID : ℕ
  clLID : ℕ
  mbLockType : Option Latch
  resumeType : Option Latch
  deriving DecidableEq, Repr

namespace MBContext

/-- The latch is released and its mode kept. -/
def pause (ctx : MBContext) : MBContext :=
  { ctx with resumeType := ctx.mbLockType, mbLockType := none }

/-- `mbLock`, with the checks before and after the latch as one; `mb` is the block of the context.
-/
def mbLock (ctx : MBContext) (mb : MB) (lockType : Latch) : Rc × MBContext :=
  if ctx.mbLockType = some lockType then (.ok, ctx)
  else
    let ctx := if ctx.mbLockType ≠ none then ctx.pause else ctx
    if !mb.inUse then (.dmsNotExist, ctx)
    else if ctx.clLID ≠ mb.logicalID then (.dmsNotExist, ctx)
    else (.ok, { ctx with mbLockType := some lockType, resumeType := none })

def resume (ctx : MBContext) (mb : MB) : Rc × MBContext :=
  match ctx.resumeType with
  | none => (.ok, ctx)
  | some lockType => ({ ctx with resumeType := none } : MBContext).mbLock mb lockType

end MBContext

namespace BlockData

/-- `getMBContext`; `alloc` says whether a context can be allocated. -/
def getMBContext (bd : BlockData) (mbID clLID : ℕ) (lockType : Option Latch) (alloc : Bool) :
    Except Rc MBContext :=
  if mbID ≥ mmeSlots then .error .invalidArg
  else
    let clLID := if clLID = invalidCLID then (bd.mme mbID).logicalID else clLID
    if !alloc then .error .oom
    else
      let ctx : MBContext := ⟨mbID, clLID, none, none⟩
      match lockType with
      | none => .ok ctx
      | some lockType =>
        match ctx.mbLock (bd.mme mbID) lockType with
        | (.ok, ctx) => .ok ctx
        | (rc, _) => .error rc

end BlockData

structure MBContext.Valid (ctx : MBContext) (mme : ℕ → MB) : Prop where
  mbID_lt : ctx.mbID < mmeSlots
  inUse : (mme ctx.mbID).inUse = true
  clLID_eq : ctx.clLID = (mme ctx.mbID).logicalID
  resumeType_eq : ctx.resumeType = none

namespace MBContext
variable {ctx : MBContext} {mme : ℕ → MB}

theorem Valid.mbLock (h : ctx.Valid mme) (t : Latch) :
    ctx.mbLock (mme ctx.mbID) t = (.ok, { ctx with mbLockType := some t }) := by
  have hlid := h.clLID_eq
  have hr := h.resumeType_eq
  have huse := h.inUse
  obtain ⟨mbID, clLID, lock, resume⟩ := ctx
  dsimp only at hlid hr huse
  simp only [MBContext.mbLock, MBContext.pause, huse, hlid, hr]
  split_ifs <;> simp_all

theorem Valid.setLock (h : ctx.Valid mme) (t : Option Latch) :
    ({ ctx with mbLockType := t } : MBContext).Valid mme :=
  ⟨h.mbID_lt, h.inUse, h.clLID_eq, h.resumeType_eq⟩

abbrev exclusive (ctx : MBContext) : MBContext := { ctx with mbLockType := some .exclusive }

theorem Valid.forall_exclusive (h : ctx.Valid mme) : ∀ c ∈ some ctx.exclusive, c.Valid mme := by
  rintro c ⟨⟩
  exact h.setLock _

theorem Valid.resume_pause (h : ctx.Valid mme) : ctx.pause.resume (mme ctx.mbID) = (.ok, ctx) := by
  have hr := h.resumeType_eq
  cases hl : ctx.mbLockType with
  | none =>
    simp only [resume, pause, hl]
    cases ctx
    simp_all
  | some t =>
    have hun := (h.setLock none).mbLock t
    simp only [resume, pause, hl]
    cases ctx
    simp_all

end MBContext

variable {bd : BlockData} {mbID : ℕ}

theorem BlockData.getMBContext_eq (hlt : mbID < mmeSlots) (huse : (bd.mme mbID).inUse = true)
    (t : Latch) (alloc : Bool) : bd.getMBContext mbID (bd.mme mbID).logicalID (some t) alloc =
      if alloc then .ok ⟨mbID, (bd.mme mbID).logicalID, some t, none⟩ else .error .oom := by
  have hvalid : (⟨mbID, (bd.mme mbID).logicalID, none, none⟩ : MBContext).Valid bd.mme :=
    ⟨hlt, huse, rfl, rfl⟩
  have hlock := hvalid.mbLock t
  rw [getMBContext, if_neg (Nat.not_le.mpr hlt), ite_self]
  cases alloc with
  | false => rfl
  | true =>
    dsimp only
    rw [hlock]
    rfl

theorem BlockData.getMBContext_error {clLID : ℕ} {t : Option Latch} {alloc : Bool} {rc : Rc}
    (h : bd.getMBContext mbID clLID t alloc = .error rc) : rc ≠ .ok := by
  unfold getMBContext at h
  generalize (if clLID = invalidCLID then (bd.mme mbID).logicalID else clLID) = lid at h
  split_ifs at h
  · cases h
    decide
  · cases h
    decide
  cases t with
  | none => cases h
  | some t =>
    dsimp only at h
    split at h
    · cases h
    next hne _ =>
      cases h
      exact hne

theorem BlockData.getMBContext_ok {clLID : ℕ} {t : Option Latch} {alloc : Bool} {ctx : MBContext}
    (h : bd.getMBContext mbID clLID t alloc = .ok ctx) : ctx.mbID = mbID ∧
      (ctx.Valid bd.mme ∨ ∀ t, ctx.mbLock (bd.mme ctx.mbID) t = (.dmsNotExist, ctx)) := by
  unfold getMBContext at h
  generalize hcl : (if clLID = invalidCLID then (bd.mme mbID).logicalID else clLID) = lid at h
  split_ifs at h with hid halloc
  have hlt := Nat.lt_of_not_le hid
  by_cases hok : (bd.mme mbID).inUse = true ∧ lid = (bd.mme mbID).logicalID
  · have hvalid : (⟨mbID, lid, none, none⟩ : MBContext).Valid bd.mme := ⟨hlt, hok.1, hok.2, rfl⟩
    cases t with
    | none =>
      cases h
      exact ⟨rfl, .inl hvalid⟩
    | some t =>
      have hlock := hvalid.mbLock t
      dsimp only at hlock h
      rw [hlock] at h
      cases h
      exact ⟨rfl, .inl (hvalid.setLock _)⟩
  · have hdead : ∀ t, (⟨mbID, lid, none, none⟩ : MBContext).mbLock (bd.mme mbID) t =
        (.dmsNotExist, ⟨mbID, lid, none, none⟩) := by
      intro t
      by_cases huse : (bd.mme mbID).inUse = true
      · simp only [MBContext.mbLock, huse]
        simpa using fun hl => hok ⟨huse, hl⟩
      · simp [MBContext.mbLock, huse]
    cases t with
    | none =>
      cases h
      exact ⟨rfl, .inr hdead⟩
    | some t =>
      dsimp only at h
      rw [hdead t] at h
      cases h

/-! ## Finding pages -/

namespace BlockData

def pauseAndResume (bd : BlockData) : Option MBContext → Rc × Option MBContext
  | none => (.ok, none)
  | some ctx =>
    let (rc, ctx) := ctx.pause.resume (bd.mme ctx.mbID)
    (rc, some ctx)

/-- `_findFreeSpace` with `fuel` rounds and the outcomes `os`; there is no result in a panic. -/
def findFreeSpace (os : ℕ → GrowOs) :
    ℕ → BlockData → Option MBContext → ℕ → Option (Except Rc ℕ × Option MBContext × BlockData)
  | 0, _, _, _ => none
  | fuel + 1, bd, ctx, numPages =>
    match bd.smeMgr.reservePages numPages with
    | (.error rc, mgr) => some (.error rc, ctx, { bd with smeMgr := mgr })
    | (.ok (some foundPage), mgr) => some (.ok foundPage, ctx, { bd with smeMgr := mgr })
    | (.ok none, mgr) =>
      let bd := { bd with smeMgr := mgr }
      let ran := extendSegments bd 1 (os fuel)
      let bd := bd.performAll ran.effects
      match ran.rc with
      | none => none
      | some rc =>
        let (rc1, ctx) := bd.pauseAndResume ctx
        if rc ≠ .ok then some (.error rc, ctx, bd)
        else if rc1 ≠ .ok then some (.error rc1, ctx, bd)
        else findFreeSpace os fuel bd ctx numPages

/-- `bd'` differs from `bd` in the file, its mapping, the space manager and the figures that
go with them. -/
structure Grown (bd bd' : BlockData) : Prop where
  mme_eq : bd'.mme = bd.mme
  stat_eq : bd'.mbStatInfo = bd.mbStatInfo
  names_eq : bd'.collectionNameMap = bd.collectionNameMap
  ids_eq : bd'.collectionIDMap = bd.collectionIDMap
  data_eq : bd'.data = bd.data
  pageSize_eq : bd'.pageSize = bd.pageSize
  numMB_eq : bd'.header.numMB = bd.header.numMB

theorem Grown.rfl : bd.Grown bd :=
  ⟨.refl _, .refl _, .refl _, .refl _, .refl _, .refl _, .refl _⟩

theorem Grown.trans {bd' bd'' : BlockData} (h : bd.Grown bd') (h' : bd'.Grown bd'') :
    bd.Grown bd'' :=
  ⟨h'.mme_eq.trans h.mme_eq, h'.stat_eq.trans h.stat_eq, h'.names_eq.trans h.names_eq,
    h'.ids_eq.trans h.ids_eq, h'.data_eq.trans h.data_eq, h'.pageSize_eq.trans h.pageSize_eq,
    h'.numMB_eq.trans h.numMB_eq⟩

theorem grown_mgr (bd : BlockData) (mgr : SMEMgr) : bd.Grown { bd with smeMgr := mgr } :=
  ⟨rfl, rfl, rfl, rfl, rfl, rfl, rfl⟩

theorem grown_perform (bd : BlockData) (e : Effect) : bd.Grown (bd.perform e) := by
  cases e <;> exact ⟨rfl, rfl, rfl, rfl, rfl, rfl, rfl⟩

theorem grown_performAll (bd : BlockData) (es : List Effect) : bd.Grown (bd.performAll es) := by
  induction es generalizing bd with
  | nil => exact .rfl
  | cons e es ih => exact (bd.grown_perform e).trans (ih _)

/-- The `k` pages from `page` on were free and are reserved now; the unit has `n` segments. -/
structure Found (bd bd' : BlockData) (n k page : ℕ) : Prop where
  agrees : bd'.Agrees n
  freePos_le : bd'.smeMgr.freePos ≤ n
  grown : bd.Grown bd'
  segment : ∃ j < n, j * bd.pageSize.segmentPages ≤ page ∧
    page + k ≤ j * bd.pageSize.segmentPages + bd.pageSize.segmentPages
  free : ∀ p, page ≤ p → p < page + k → bd.smeMgr.sme.Free p
  sme_eq : bd'.smeMgr.sme = bd.smeMgr.sme.setRange page k

def Stuck (bd : BlockData) (os : ℕ → GrowOs) : Prop :=
  ∃ fp, (extendSegments { bd with smeMgr := { bd.smeMgr with freePos := fp } } 1 (os 1)).rc ≠ some .ok

section Find
variable {bd : BlockData} {n k : ℕ}

theorem Found.within {bd' : BlockData} {page : ℕ} (h : bd.Found bd' n k page) :
    page + k ≤ n * bd.pageSize.segmentPages := by
  obtain ⟨j, hj, -, hle⟩ := h.segment
  rw [← Nat.succ_mul] at hle
  exact hle.trans (Nat.mul_le_mul_right _ hj)

theorem Agrees.setMgr (h : bd.Agrees n) {mgr : SMEMgr} (hinv : mgr.Inv bd.pageSize.layout)
    (hlen : mgr.segments.length = n) : ({ bd with smeMgr := mgr } : BlockData).Agrees n :=
  ⟨h.header, h.pageNum_eq, h.current, h.size_le, h.segmentSize_eq, h.mapped, h.maxSegID_eq, hinv,
    hlen⟩

theorem Agrees.reserve (h : bd.Agrees n) (hfp : bd.smeMgr.freePos ≤ n) (h0 : 0 < k) :
    (∃ page mgr, bd.smeMgr.reservePages k = (.ok (some page), mgr) ∧
      bd.Found { bd with smeMgr := mgr } n k page) ∨
    (∃ fp ≤ n, bd.smeMgr.reservePages k = (.ok none, { bd.smeMgr with freePos := fp }) ∧
      ∀ j sp, bd.smeMgr.freePos ≤ j → bd.smeMgr.segments[j]? = some sp → largest sp.runs < k) := by
  have hlen : bd.smeMgr.segments.length = n := h.segmentNum_eq
  have hhint : (bd.smeMgr.reservePages k).2.freePos ≤ n :=
    (SMEMgr.freePos_reserveLoop h0 _ bd.smeMgr h.mgr bd.smeMgr.freePos rfl (hlen ▸ hfp)).trans hlen.le
  rcases SMEMgr.reservePages_spec h.mgr h0 with ⟨page, mgr, heq, hinv, htook⟩ | ⟨fp, heq, hall⟩
  · left
    refine ⟨page, mgr, heq, h.setMgr hinv (htook.length_eq.trans hlen), ?_, bd.grown_mgr mgr, ?_,
      htook.free, htook.sme_eq⟩
    · rwa [heq] at hhint
    · obtain ⟨j, hj, hseg⟩ := htook.segment
      rw [PageSize.layout_segmentPages] at hseg
      exact ⟨j, hlen ▸ hj, hseg⟩
  · right
    exact ⟨fp, by rwa [heq] at hhint, heq, hall⟩

theorem Agrees.le_largest (h : bd.Agrees (n + 1)) (hk : k ≤ bd.pageSize.segmentPages)
    (hfree : ∀ i < bd.pageSize.segmentPages,
      bd.smeMgr.sme.Free (n * bd.pageSize.segmentPages + i)) :
    ∃ sp, bd.smeMgr.segments[n]? = some sp ∧ k ≤ largest sp.runs := by
  have hlen : bd.smeMgr.segments.length = n + 1 := h.segmentNum_eq
  obtain ⟨sp, hsp⟩ : ∃ sp, bd.smeMgr.segments[n]? = some sp :=
    ⟨_, List.getElem?_eq_getElem (by omega)⟩
  have hok := h.mgr.segment n sp hsp
  have hstart := hok.startExtent_eq
  have hsize := hok.totalSize_eq
  rw [PageSize.layout_segmentPages] at hstart hsize
  refine ⟨sp, hsp, hk.trans (hok.wf.canonical.consecutive_le (x := 0) fun i hi => ?_)⟩
  rw [zero_add, ← hok.agrees i (hsize ▸ hi), hstart]
  exact hfree i hi

variable {ctx : Option MBContext}

theorem pauseAndResume_valid (hctx : ∀ c ∈ ctx, c.Valid bd.mme) :
    bd.pauseAndResume ctx = (.ok, ctx) := by
  cases ctx with
  | none => rfl
  | some c => rw [pauseAndResume, (hctx c rfl).resume_pause]

/-- **What `_findFreeSpace` does** in two rounds: it finds pages, fails and leaves the bitmap, or
panics. -/
theorem Agrees.findFreeSpace (h : bd.Agrees n) (hfp : bd.smeMgr.freePos ≤ n) (h0 : 0 < k)
    (hk : k ≤ bd.pageSize.segmentPages) (os : ℕ → GrowOs) (hctx : ∀ c ∈ ctx, c.Valid bd.mme) :
    (∃ page n' bd', findFreeSpace os 2 bd ctx k = some (.ok page, ctx, bd') ∧
      bd.Found bd' n' k page ∧ n ≤ n' ∧ n' ≤ n + 1) ∨
    (∃ rc bd', findFreeSpace os 2 bd ctx k = some (.error rc, ctx, bd') ∧ rc ≠ .ok ∧ bd.Stuck os ∧
      bd'.Agrees n ∧ bd'.smeMgr.freePos ≤ n ∧ bd.Grown bd' ∧ bd'.smeMgr.sme = bd.smeMgr.sme) ∨
    (findFreeSpace os 2 bd ctx k = none ∧ bd.Stuck os) := by
  rcases h.reserve hfp h0 with ⟨page, mgr, heq, hfound⟩ | ⟨fp, hfp', heq, -⟩
  · left
    exact ⟨page, n, _, by rw [BlockData.findFreeSpace, heq], hfound, le_rfl, Nat.le_succ n⟩
  rw [BlockData.findFreeSpace, heq]
  dsimp only
  have hgrown₁ := bd.grown_mgr { bd.smeMgr with freePos := fp }
  have hagr₁ : ({ bd with smeMgr := { bd.smeMgr with freePos := fp } } : BlockData).Agrees n :=
    h.setMgr (h.mgr.setFreePos fp) h.segmentNum_eq
  have hgrown₂ := grown_performAll { bd with smeMgr := { bd.smeMgr with freePos := fp } }
    (extendSegments { bd with smeMgr := { bd.smeMgr with freePos := fp } } 1 (os 1)).effects
  have hextend := hagr₁.extend (os 1)
  cases hrc : (extendSegments { bd with smeMgr := { bd.smeMgr with freePos := fp } } 1 (os 1)).rc with
  | none => exact .inr (.inr ⟨rfl, fp, by rw [hrc]; simp⟩)
  | some rc =>
    specialize hextend rc hrc
    dsimp only at hextend
    generalize BlockData.performAll _ _ = bd₂ at hextend hgrown₂ ⊢
    have hgrown := hgrown₁.trans hgrown₂
    have hresume : bd₂.pauseAndResume ctx = (.ok, ctx) :=
      pauseAndResume_valid (hgrown.mme_eq ▸ hctx)
    rw [hresume]
    dsimp only
    rcases hextend with ⟨rfl, hagr₂, hsme, hhint, hfree⟩ | ⟨hne, hagr₂, hmgr⟩
    · -- The second round finds the pages of the new segment.
      left
      rw [if_neg (not_not.mpr rfl), if_neg (not_not.mpr rfl)]
      have hps := hgrown.pageSize_eq
      rcases hagr₂.reserve (by omega) h0 with ⟨page, mgr, heq₂, hfound⟩ | ⟨fp₂, -, -, hall⟩
      · refine ⟨page, n + 1, _, by rw [BlockData.findFreeSpace, heq₂], ?_, Nat.le_succ n, le_rfl⟩
        refine ⟨hfound.agrees, hfound.freePos_le, hgrown.trans hfound.grown, hps ▸ hfound.segment,
          hsme ▸ hfound.free, hsme ▸ hfound.sme_eq⟩
      · obtain ⟨sp, hsp, hle⟩ := hagr₂.le_largest (hps ▸ hk) (by rw [hps, hsme]; exact hfree)
        exact absurd (hall n sp (by omega) hsp) (Nat.not_lt.mpr hle)
    · right
      left
      rw [if_pos hne]
      exact ⟨rc, bd₂, rfl, hne, ⟨fp, by rw [hrc]; simpa using hne⟩, hagr₂, by rw [hmgr]; exact hfp',
        hgrown, by rw [hmgr]⟩

end Find

end BlockData

end Novachains.Dms
