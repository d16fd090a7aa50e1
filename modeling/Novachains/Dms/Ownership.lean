import Novachains.Dms.Reading

/-!
# Who owns the pages

The pages that are allocated in the bitmap are those of the meta extents and of the extents on
the chains of the collections, each of them once.
-/

namespace Novachains.Dms

open Lib Oss

/-- What can own pages: the meta extent of a collection, or an extent on its chain. -/
inductive Owner
  | metaExtent (slot : ℕ)
  | extent (slot extentID : ℕ)
  deriving DecidableEq, Repr

/-- The page belongs to the owner; `chains` are the chains of the collections. -/
def Owner.Holds (bd : BlockData) (chains : ℕ → List ℕ) (page : ℕ) : Owner → Prop
  | .metaExtent i => bd.InUse i ∧ ∃ mbEx, (bd.mme i).mbExExtentID = some mbEx ∧ mbEx ≤ page ∧
      page < mbEx + bd.pageSize.mbExSize
  | .extent i e => bd.InUse i ∧ e ∈ chains i ∧ e ≤ page ∧
      page < e + Extent.blockSize bd.data (bd.addr e)

namespace BlockData
variable {bd : BlockData} {n : ℕ} {owned : ℕ → Owned}

theorem StoreOk.holds_meta_iff (h : bd.StoreOk n owned) {i page : ℕ} :
    Owner.Holds bd (bd.chains owned) page (.metaExtent i) ↔
      bd.InUse i ∧ (owned i).mbEx ≤ page ∧ page < (owned i).mbEx + 9 := by
  refine and_congr_right fun hi => ?_
  rw [show (bd.mme i).mbExExtentID = _ from (h.slot i hi).col.chain.mbEx_eq, PageSize.mbExSize_eq]
  simp

theorem StoreOk.holds_extent_iff (h : bd.StoreOk n owned) {i e page : ℕ} :
    Owner.Holds bd (bd.chains owned) page (.extent i e) ↔
      bd.InUse i ∧ e ∈ (owned i).added ∧ e ≤ page ∧ page < e + (owned i).contents.pages e := by
  refine and_congr_right fun hi => ?_
  rw [h.mem_chains hi]
  refine and_congr_right fun he => ?_
  have hsize : Extent.blockSize bd.data (bd.addr e) = (owned i).contents.pages e :=
    (h.body hi he).blockSize_eq
  rw [hsize]

theorem StoreOk.exists_holds_iff (h : bd.StoreOk n owned) (page : ℕ) :
    (∃ o : Owner, o.Holds bd (bd.chains owned) page) ↔ ∃ i, bd.InUse i ∧ (owned i).Has page := by
  constructor
  · rintro ⟨i | ⟨i, e⟩, ho⟩
    · rw [h.holds_meta_iff] at ho
      exact ⟨i, ho.1, .inl ho.2⟩
    · rw [h.holds_extent_iff] at ho
      exact ⟨i, ho.1, .inr ⟨e, ho.2⟩⟩
  · rintro ⟨i, hi, hp | ⟨e, he, hp⟩⟩
    · exact ⟨.metaExtent i, h.holds_meta_iff.mpr ⟨hi, hp⟩⟩
    · exact ⟨.extent i e, h.holds_extent_iff.mpr ⟨hi, he, hp⟩⟩

theorem StoreOk.owner_unique (h : bd.StoreOk n owned) {page : ℕ} {o o' : Owner}
    (ho : o.Holds bd (bd.chains owned) page) (ho' : o'.Holds bd (bd.chains owned) page) : o = o' := by
  -- Owners in different slots own different pages.
  have hslot : ∀ {i j}, bd.InUse i → bd.InUse j → (owned i).Has page → (owned j).Has page → i = j := by
    intro i j hi hj hpi hpj
    by_contra hij
    exact h.apart i j hi hj hij page hpi hpj
  rcases o with i | ⟨i, e⟩ <;> rcases o' with j | ⟨j, e'⟩
  · rw [h.holds_meta_iff] at ho ho'
    rw [hslot ho.1 ho'.1 (.inl ho.2) (.inl ho'.2)]
  · rw [h.holds_meta_iff] at ho
    rw [h.holds_extent_iff] at ho'
    obtain rfl := hslot ho.1 ho'.1 (.inl ho.2) (.inr ⟨e', ho'.2⟩)
    have hap := (h.slot i ho.1).col.mbEx_apart e' ho'.2.1
    rw [PageSize.mbExSize_eq] at hap
    omega
  · rw [h.holds_extent_iff] at ho
    rw [h.holds_meta_iff] at ho'
    obtain rfl := hslot ho.1 ho'.1 (.inr ⟨e, ho.2⟩) (.inl ho'.2)
    have hap := (h.slot i ho.1).col.mbEx_apart e ho.2.1
    rw [PageSize.mbExSize_eq] at hap
    omega
  · rw [h.holds_extent_iff] at ho ho'
    obtain rfl := hslot ho.1 ho'.1 (.inr ⟨e, ho.2⟩) (.inr ⟨e', ho'.2⟩)
    by_cases hee : e = e'
    · rw [hee]
    · have hap := (h.slot i ho.1).col.exts_apart e ho.2.1 e' ho'.2.1 hee
      omega

end BlockData

/-- **Page ownership.**  In every run the allocated pages are exactly those of the meta extents and
of the chains, each of one owner. -/
theorem pages_owned {bd : BlockData} (h : (storeSystem fun _ _ => True).Reachable bd) :
    ∃ chains : ℕ → List ℕ,
      (∀ i, bd.InUse i → bd.IsChain i (chains i)) ∧
      ∀ page, (bd.smeMgr.sme.getBitMask page = true ↔ ∃ o : Owner, o.Holds bd chains page) ∧
        ∀ o o' : Owner, o.Holds bd chains page → o'.Holds bd chains page → o = o' := by
  obtain ⟨n, owned, hs⟩ := (BlockData.sound_invariant _).reachable h
  refine ⟨bd.chains owned, fun i hi => hs.store.isChain hi, fun page => ⟨?_, fun o o' =>
    hs.store.owner_unique⟩⟩
  have hbit : bd.smeMgr.sme.getBitMask page = true ↔ ¬ bd.smeMgr.sme.Free page := by simp [SME.Free]
  rw [hbit, hs.store.exists_holds_iff]
  constructor
  · exact hs.noLeak page
  · rintro ⟨i, hi, hp⟩
    exact (hs.store.slot i hi).reserved page hp

/-- After a collection has been added, the pages of its meta extent and of its first extent. -/
theorem pages_owned_collection :
    ∃ bd : BlockData, (∃ slot, bd.InUse slot ∧ (bd.mme slot).firstExtentID ≠ none) ∧
      ∃ chains : ℕ → List ℕ,
        (∀ i, bd.InUse i → bd.IsChain i (chains i)) ∧
        ∀ page, (bd.smeMgr.sme.getBitMask page = true ↔ ∃ o : Owner, o.Holds bd chains page) ∧
          ∀ o o' : Owner, o.Holds bd chains page → o'.Holds bd chains page → o = o' := by
  obtain ⟨bd, slot, n, owned, hreach, hs, hi, hne, -⟩ :=
    exists_collection (P := fun _ _ => True) fun _ => trivial
  exact ⟨bd, ⟨slot, hi, fun hnone => hne ((hs.store.firstExtentID_eq_none_iff hi).mp hnone)⟩,
    pages_owned hreach⟩

end Novachains.Dms
