import Novachains.Dms.FreeSpace
import Novachains.Dms.NewExtent

/-!
# The collections of a storage unit

Every collection in use owns pages of the unit: its meta extent and its extents.  These
pages are reserved in the space manager and no two collections share one, so a call on one
collection leaves the others alone.
-/

namespace Novachains.Dms

open Lib Oss Function

variable (bd : BlockData)

namespace BlockData

def mappedPages : ℕ := (bd.maxSegID + 1 - bd.dataSegID) * bd.pageSize.segmentPages

/-- The part of the unit that the collection in slot `i` uses. -/
def col (i : ℕ) : Col where
  pageSize := bd.pageSize
  pages := bd.mappedPages
  data := bd.data
  mb := bd.mme i
  stat := bd.mbStatInfo i

/-- The unit after a change by the collection in slot `i`. -/
def setCol (i : ℕ) (c : Col) : BlockData :=
  { bd with
    data := c.data
    mme := update bd.mme i c.mb
    mbStatInfo := update bd.mbStatInfo i c.stat }

theorem extentAddr_col (i : ℕ) (hle : bd.dataSegID ≤ bd.maxSegID + 1)
    (extentID : Option ℕ) : (bd.col i).extentAddr extentID = bd.extentAddr extentID := by
  cases extentID with
  | none => rfl
  | some e =>
    have hdiv : e < bd.mappedPages ↔ e / bd.pageSize.segmentPages < bd.maxSegID + 1 - bd.dataSegID :=
      (Nat.div_lt_iff_lt_mul bd.pageSize.segmentPages_pos).symm
    rw [extentAddr_some, Col.extentAddr]
    change (if e < bd.mappedPages then _ else _) = _
    by_cases he : e < bd.mappedPages
    · rw [if_pos he, if_neg (by rw [hdiv] at he; omega)]
      rfl
    · rw [if_neg he, if_pos (by rw [hdiv] at he; omega)]

theorem Agrees.mappedPages_eq {bd : BlockData} {n : ℕ} (h : bd.Agrees n) :
    bd.mappedPages = n * bd.pageSize.segmentPages := by
  rw [mappedPages, h.maxSegID_eq, Nat.add_sub_cancel_left]

theorem Agrees.mappedPages_le {bd : BlockData} {n : ℕ} (h : bd.Agrees n) :
    bd.mappedPages ≤ maxPg := by
  rw [h.mappedPages_eq, ← h.pageNum_eq]
  exact h.header.pageNum_le

def InUse (i : ℕ) : Prop := i < mmeSlots ∧ (bd.mme i).inUse = true

end BlockData

structure Owned where
  mbEx : ℕ
  added : List ℕ
  contents : Contents

namespace Owned

def Has (o : Owned) (p : ℕ) : Prop :=
  (o.mbEx ≤ p ∧ p < o.mbEx + 9) ∨ ∃ e ∈ o.added, e ≤ p ∧ p < e + o.contents.pages e

end Owned

namespace BlockData

/-- The collection in slot `i` has what `o` says, and its pages are reserved. -/
structure SlotOk (bd : BlockData) (i : ℕ) (o : Owned) : Prop where
  col : (bd.col i).ColOk o.mbEx o.added o.contents
  blockID_eq : (bd.mme i).blockID = i
  counts : Col.CountsOk (bd.mbStatInfo i).totals o.added o.contents.recs
  isCrash_eq : (bd.mbStatInfo i).isCrash = false
  reserved : ∀ p, o.Has p → ¬ bd.smeMgr.sme.Free p

/-- Every collection in use is as `owned` says, and no two own the same page. -/
structure StoreOk (bd : BlockData) (n : ℕ) (owned : ℕ → Owned) : Prop where
  agrees : bd.Agrees n
  freePos_le : bd.smeMgr.freePos ≤ n
  slot : ∀ i, bd.InUse i → bd.SlotOk i (owned i)
  apart : ∀ i j, bd.InUse i → bd.InUse j → i ≠ j → ∀ p, (owned i).Has p → ¬ (owned j).Has p

def NoLeak (owned : ℕ → Owned) : Prop :=
  ∀ p, ¬ bd.smeMgr.sme.Free p → ∃ i, bd.InUse i ∧ (owned i).Has p

def Synced : Prop :=
  ∀ i, bd.InUse i → (bd.mme i).totals = (bd.mbStatInfo i).totals

end BlockData

theorem runs_apart {a k b l : ℕ} (hk : 0 < k) (hl : 0 < l)
    (h : ∀ p, a ≤ p → p < a + k → ¬ (b ≤ p ∧ p < b + l)) : a + k ≤ b ∨ b + l ≤ a := by
  by_contra hne
  exact h (max a b) (by omega) (by omega) ⟨by omega, by omega⟩

theorem Owned.outside {o : Owned} {c : Col} (hpos : ∀ e ∈ o.added, 0 < o.contents.pages e)
    {a k : ℕ} (hk : 0 < k) (hap : ∀ p, a ≤ p → p < a + k → ¬ o.Has p) :
    c.Outside o.mbEx o.added o.contents.pages (c.addr a) (k * c.pageSize.bytes) := by
  have hconv : ∀ {b l : ℕ}, a + k ≤ b ∨ b + l ≤ a →
      c.addr a + k * c.pageSize.bytes ≤ c.addr b ∨ c.addr b + l * c.pageSize.bytes ≤ c.addr a := by
    intro b l hbl
    rw [← c.addr_add, ← c.addr_add]
    exact hbl.imp c.addr_le c.addr_le
  refine ⟨hconv (runs_apart hk (by decide) fun p h1 h2 h3 => hap p h1 h2 (.inl h3)), fun e he =>
    hconv (runs_apart hk (hpos e he) fun p h1 h2 h3 => hap p h1 h2 (.inr ⟨e, he, h3⟩))⟩

/-! ## Calls on one collection -/

namespace BlockData
variable {bd bd' : BlockData} {n i : ℕ} {owned : ℕ → Owned} {c : Col} {o : Owned}

theorem col_setCol_self (hps : c.pageSize = bd.pageSize) (hpg : c.pages = bd.mappedPages) :
    (bd.setCol i c).col i = c := by
  obtain ⟨ps, pages, data, mb, stat⟩ := c
  obtain rfl : ps = bd.pageSize := hps
  obtain rfl : pages = bd.mappedPages := hpg
  simp only [col, setCol, update_self]
  rfl

theorem SlotOk.congr (h : bd.SlotOk i o) (hps : bd'.pageSize = bd.pageSize)
    (hpages : bd.mappedPages ≤ bd'.mappedPages) (hmax : bd'.mappedPages ≤ maxPg)
    (hmb : bd'.mme i = { bd.mme i with totals := (bd'.mme i).totals })
    (hstat : bd'.mbStatInfo i = bd.mbStatInfo i)
    (hsme : ∀ p, o.Has p → ¬ bd'.smeMgr.sme.Free p)
    (hsame : ∀ a k, 0 < k → (∀ p, a ≤ p → p < a + k → o.Has p) →
      bd.data.SameOn bd'.data ((bd.col i).addr a) (k * bd.pageSize.bytes)) : bd'.SlotOk i o where
  col := h.col.congr hps hpages hmax hmb
    (hsame o.mbEx 9 (by decide) fun p h1 h2 => .inl ⟨h1, h2⟩) fun e he =>
      hsame e _ (h.col.pages_pos e he) fun p h1 h2 => .inr ⟨e, he, h1, h2⟩
  blockID_eq := by rw [hmb, h.blockID_eq]
  counts := hstat ▸ h.counts
  isCrash_eq := hstat ▸ h.isCrash_eq
  reserved := hsme

/-- **A call on one collection** that touches only what it owns, or takes over reserved pages
that nobody owns. -/
theorem StoreOk.update (h : bd.StoreOk n owned) (hi : bd.InUse i)
    (htouch : (bd.col i).Touches c o.mbEx o.added o.contents.pages)
    (hok : c.ColOk o.mbEx o.added o.contents)
    (hcounts : Col.CountsOk c.stat.totals o.added o.contents.recs)
    (hnew : ∀ p, o.Has p → (owned i).Has p ∨ ¬ bd.smeMgr.sme.Free p ∧
      ∀ j, bd.InUse j → j ≠ i → ¬ (owned j).Has p) :
    (bd.setCol i c).StoreOk n (update owned i o) := by
  have hmine : ∀ p, o.Has p → ¬ bd.smeMgr.sme.Free p ∧
      ∀ j, bd.InUse j → j ≠ i → ¬ (owned j).Has p := by
    intro p hp
    rcases hnew p hp with hold | hfresh
    · exact ⟨(h.slot i hi).reserved p hold, fun j hj hne => h.apart i j hi hj hne.symm p hold⟩
    · exact hfresh
  have hmb : ∀ j, (bd.setCol i c).mme j = { bd.mme j with
      firstExtentID := ((bd.setCol i c).mme j).firstExtentID
      lastExtentID := ((bd.setCol i c).mme j).lastExtentID
      deleteList := ((bd.setCol i c).mme j).deleteList } := by
    intro j
    simp only [setCol]
    by_cases hij : j = i
    · subst hij
      rw [update_self]
      exact htouch.mb_eq
    · rw [update_of_ne hij]
  have huse : ∀ j, (bd.setCol i c).InUse j ↔ bd.InUse j := fun j => by
    rw [InUse, hmb j]
    rfl
  refine ⟨{ h.agrees with }, h.freePos_le, fun j hj => ?_, fun j k hj hk hjk => ?_⟩
  · rw [huse] at hj
    have hslot := h.slot j hj
    by_cases hji : j = i
    · subst hji
      rw [update_self]
      have hcol := col_setCol_self (i := j) htouch.pageSize_eq htouch.pages_eq
      have hstat : (bd.setCol j c).mbStatInfo j = c.stat := update_self ..
      refine ⟨by rw [hcol]; exact hok, by rw [hmb, hslot.blockID_eq], by rw [hstat]; exact hcounts, ?_,
        fun p hp => (hmine p hp).1⟩
      rw [hstat, htouch.stat_eq]
      exact hslot.isCrash_eq
    · rw [update_of_ne hji]
      refine hslot.congr rfl le_rfl h.agrees.mappedPages_le ?_ (update_of_ne hji ..)
        hslot.reserved fun a k hk hown => ?_
      · have hother : (bd.setCol i c).mme j = bd.mme j := update_of_ne hji ..
        rw [hother]
      · exact htouch.same _ _ (Owned.outside hok.pages_pos hk fun p h1 h2 hp =>
          (hmine p hp).2 j hj hji (hown p h1 h2))
  · rw [huse] at hj hk
    by_cases hji : j = i
    · subst hji
      rw [update_self, update_of_ne hjk.symm]
      exact fun p hp => (hmine p hp).2 k hk hjk.symm
    rw [update_of_ne hji]
    by_cases hki : k = i
    · subst hki
      rw [update_self]
      exact fun p hp hp' => (hmine p hp').2 j hj hji hp
    · rw [update_of_ne hki]
      exact h.apart j k hj hk hjk

theorem StoreOk.grown (h : bd.StoreOk n owned) {n' : ℕ} (hg : bd.Grown bd') (ha : bd'.Agrees n')
    (hle : n ≤ n') (hfp : bd'.smeMgr.freePos ≤ n')
    (hsme : ∀ p, bd'.smeMgr.sme.Free p → bd.smeMgr.sme.Free p) : bd'.StoreOk n' owned := by
  have huse : ∀ j, bd'.InUse j ↔ bd.InUse j := fun j => by rw [InUse, hg.mme_eq, InUse]
  have hpages : bd.mappedPages ≤ bd'.mappedPages := by
    rw [h.agrees.mappedPages_eq, ha.mappedPages_eq, hg.pageSize_eq]
    exact Nat.mul_le_mul_right _ hle
  refine ⟨ha, hfp, fun j hj => ?_, fun j k hj hk => ?_⟩
  · have hslot := h.slot j ((huse j).mp hj)
    refine hslot.congr hg.pageSize_eq hpages ha.mappedPages_le (by rw [hg.mme_eq])
      (by rw [hg.stat_eq]) (fun p hp hf => hslot.reserved p hp (hsme p hf)) fun a k _ _ => ?_
    rw [hg.data_eq]
    exact .rfl
  · rw [huse] at hj hk
    exact h.apart j k hj hk

theorem markHeaderInvalid_eq (bd : BlockData) (i : ℕ) :
    ∃ mme msync dirtyList, bd.markHeaderInvalid i =
        { bd with mme := mme, msync := msync, dirtyList := dirtyList } ∧
      (∀ j, mme j = { bd.mme j with totals := (mme j).totals }) ∧
      (∀ j, (bd.InUse j → (bd.mme j).totals = (bd.mbStatInfo j).totals) → mme j = bd.mme j) ∧
      (i < mmeSlots → (bd.mbStatInfo i).isCrash = false →
        ∀ j < mmeSlots, (mme j).inUse = true → (mme j).totals = (bd.mbStatInfo j).totals) := by
  have hsync : ∀ j, (bd.syncMemToMmap.mme j) =
      { bd.mme j with totals := (bd.syncMemToMmap.mme j).totals } := by
    intro j
    simp only [syncMemToMmap, syncTotals]
    split
    · split <;> rfl
    · rfl
  unfold markHeaderInvalid
  split
  next hc =>
    have hflush : (bd.flushMME false).2 = { bd with
        mme := bd.syncMemToMmap.mme
        msync := (bd.flushMME false).2.msync
        dirtyList := (bd.flushMME false).2.dirtyList } := by
      simp only [flushMME, flushSegment]
      split <;> rfl
    rw [hflush]
    refine ⟨_, _, _, rfl, hsync, fun j hs => ?_, fun _ _ j hj hu => ?_⟩
    · simp only [syncMemToMmap, syncTotals]
      split
      next hj =>
        split
        next hu => rw [← hs ⟨hj, hu⟩]
        next => rfl
      next => rfl
    · rw [hsync j] at hu
      have hu' : (bd.mme j).inUse = true := hu
      simp only [syncMemToMmap, syncTotals, if_pos hj, hu', if_true]
  next hc =>
    refine ⟨bd.mme, bd.msync, bd.dirtyList, rfl, fun _ => rfl, fun _ _ => rfl, fun hi hcr => ?_⟩
    exact absurd ⟨hi, by rw [hcr]; rfl⟩ hc

@[simp] theorem smeMgr_markHeaderInvalid (bd : BlockData) (i : ℕ) :
    (bd.markHeaderInvalid i).smeMgr = bd.smeMgr := by
  obtain ⟨mme, msync, dirtyList, heq, -⟩ := bd.markHeaderInvalid_eq i
  rw [heq]

theorem Synced.grown_markHeaderInvalid (hs : bd.Synced) (i : ℕ) :
    bd.Grown (bd.markHeaderInvalid i) := by
  obtain ⟨mme, msync, dirtyList, heq, -, hkeep, -⟩ := bd.markHeaderInvalid_eq i
  rw [heq]
  exact ⟨funext fun j => hkeep j (hs j), rfl, rfl, rfl, rfl, rfl, rfl⟩

theorem Synced.flushMeta_eq (hs : bd.Synced) (sync : Bool) (except : List ℕ) :
    ∃ msync, (bd.flushMeta sync except).2 = { bd with msync := msync } := by
  have hmme : bd.syncMemToMmap = bd := by
    have heq : bd.syncMemToMmap.mme = bd.mme := by
      funext j
      simp only [syncMemToMmap, syncTotals]
      split
      next hj =>
        split
        next hu => rw [← hs j ⟨hj, hu⟩]
        next => rfl
      next => rfl
    calc bd.syncMemToMmap = { bd with mme := bd.syncMemToMmap.mme } := rfl
      _ = bd := by rw [heq]
  rw [flushMeta, hmme]
  exact ⟨_, rfl⟩

theorem grown_msync (bd : BlockData) (m : Msync) : bd.Grown { bd with msync := m } :=
  ⟨rfl, rfl, rfl, rfl, rfl, rfl, rfl⟩

theorem StoreOk.setMsync (h : bd.StoreOk n owned) (m : Msync) :
    ({ bd with msync := m } : BlockData).StoreOk n owned :=
  h.grown (bd.grown_msync m)
    { h.agrees with } le_rfl h.freePos_le fun _ => id

theorem StoreOk.markHeaderInvalid (h : bd.StoreOk n owned) (hi : bd.InUse i) :
    (bd.markHeaderInvalid i).StoreOk n owned ∧ (bd.markHeaderInvalid i).Synced := by
  obtain ⟨mme, msync, dirtyList, heq, hmme, -, htot⟩ := bd.markHeaderInvalid_eq i
  rw [heq]
  have huse : ∀ j, ({ bd with mme := mme, msync := msync, dirtyList := dirtyList } :
      BlockData).InUse j ↔ bd.InUse j := fun j => by
    change j < mmeSlots ∧ (mme j).inUse = true ↔ _
    rw [hmme j]
    rfl
  refine ⟨⟨{ h.agrees with }, h.freePos_le, fun j hj => ?_, fun j k hj hk => ?_⟩,
    fun j hj => htot hi.1 (h.slot i hi).isCrash_eq j hj.1 hj.2⟩
  · have hslot := h.slot j ((huse j).mp hj)
    exact hslot.congr rfl le_rfl h.agrees.mappedPages_le (hmme j) rfl hslot.reserved
      fun _ _ _ _ => .rfl
  · rw [huse] at hj hk
    exact h.apart j k hj hk

end BlockData

end Novachains.Dms
