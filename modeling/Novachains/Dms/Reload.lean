import Novachains.Dms.Crash
import Novachains.Dms.Progress
import Novachains.Dms.SMEMgr.Runs

/-!
# Opening a unit again

The file that a closed unit leaves is opened again.  The space manager is loaded from the bitmap
and the catalog from the metadata blocks, and both are what they were in memory.
-/

namespace Novachains.Dms

open Lib Oss List

/-- The free runs, the largest of them and the number of free pages are the same. -/
structure SegmentSpace.Same (sp sp' : SegmentSpace) : Prop where
  runs_eq : sp'.runs = sp.runs
  maxNode_eq : sp'.maxNode = sp.maxNode
  startExtent_eq : sp'.startExtent = sp.startExtent
  totalSize_eq : sp'.totalSize = sp.totalSize
  totalFree_eq : sp'.totalFree = sp.totalFree

theorem SMEMgr.SegmentOk.same {g : Layout} {sme : SME} {k : ℕ} {sp sp' : SegmentSpace}
    (h : SegmentOk g sme k sp) (h' : SegmentOk g sme k sp') : sp.Same sp' := by
  have hstart := h'.startExtent_eq.trans h.startExtent_eq.symm
  have hsize := h'.totalSize_eq.trans h.totalSize_eq.symm
  have hcovers : ∀ i, Covers sp'.runs i ↔ Covers sp.runs i := by
    intro i
    by_cases hi : i < sp.totalSize
    · rw [← h.agrees i hi, ← h'.agrees i (hsize ▸ hi), hstart]
    · exact ⟨fun hc => absurd (h'.wf.lt_of_covers hc) (hsize ▸ hi),
        fun hc => absurd (h.wf.lt_of_covers hc) hi⟩
  have hruns : sp'.runs = sp.runs := h'.wf.canonical.ext h.wf.canonical hcovers
  refine ⟨hruns, ?_, hstart, hsize, ?_⟩
  · rw [h.wf.maxNode_eq, h'.wf.maxNode_eq, hruns]
  · rw [h.wf.totalFree_eq, h'.wf.totalFree_eq, hruns]

theorem SMEMgr.Inv.same {g : Layout} {m m' : SMEMgr} (h : m.Inv g) (h' : m'.Inv g)
    (hsme : m'.sme = m.sme) (hlen : m'.segments.length = m.segments.length) :
    List.Forall₂ SegmentSpace.Same m.segments m'.segments ∧ m'.totalFree = m.totalFree := by
  have hsame : List.Forall₂ SegmentSpace.Same m.segments m'.segments := by
    refine forall₂_iff_get.mpr ⟨hlen.symm, fun k hk hk' => ?_⟩
    have hok := h.segment k _ (getElem?_eq_getElem hk)
    have hok' := h'.segment k _ (getElem?_eq_getElem hk')
    rw [hsme] at hok'
    exact hok.same hok'
  refine ⟨hsame, ?_⟩
  have htotals : List.Forall₂ Eq (m.segments.map SegmentSpace.totalFree)
      (m'.segments.map SegmentSpace.totalFree) := by
    rw [forall₂_map_left_iff, forall₂_map_right_iff]
    exact hsame.imp fun _ _ hs => hs.totalFree_eq.symm
  rw [forall₂_eq_eq_eq] at htotals
  rw [h'.totalFree_eq, h.totalFree_eq, htotals]

theorem SMEMgr.Inv.congr {g : Layout} {m : SMEMgr} (h : m.Inv g) {sme : SME}
    (hsme : ∀ p, sme.Free p ↔ m.sme.Free p) : ({ m with sme := sme } : SMEMgr).Inv g :=
  ⟨fun k sp hsp => { h.segment k sp hsp with
    agrees := fun i hi => (hsme _).trans ((h.segment k sp hsp).agrees i hi) }, h.totalFree_eq,
      h.pages_le⟩

/-- **Pages given back leave no trace** in the bitmap, the free runs and the figures of a segment.
-/
theorem release_reserved (g : Layout) {m m' : SMEMgr} (hm : (spaceSystem g).Reachable m) {n page : ℕ}
    (hn : 1 ≤ n) (hres : m.reservePages n = (.ok (some page), m')) :
    ∃ m'', m'.releasePages g page n = (.ok, m'') ∧ (∀ p, m''.sme.Free p ↔ m.sme.Free p) ∧
      List.Forall₂ SegmentSpace.Same m.segments m''.segments ∧ m''.totalFree = m.totalFree := by
  have h := (SMEMgr.inv_invariant g).reachable hm
  rcases SMEMgr.reservePages_spec h hn with ⟨page', m₁, heq, hinv, ht⟩ | ⟨fp, heq, -⟩
  · cases hres.symm.trans heq
    obtain ⟨k, hk, hlo, hhi⟩ := ht.segment
    have hin : SMEMgr.InRange g m' page n :=
      ⟨k, ht.length_eq ▸ hk, by exact_mod_cast hlo, by push_cast; omega, by push_cast; omega⟩
    have hnf : ¬ SMEMgr.TouchesFree m' page n := by
      rintro ⟨p, hp, hp', hfree⟩
      rw [ht.sme_eq, SME.free_setRange] at hfree
      exact hfree.2 ⟨by omega, by omega⟩
    rcases SMEMgr.releasePages_spec hinv page n with ⟨-, m'', hrel, hinv', hsme, hlen⟩ | ⟨hno, -⟩
    · have hfree : ∀ p, m''.sme.Free p ↔ m.sme.Free p := by
        intro p
        have := ht.free p
        rw [hsme, SME.free_freeRange, ht.sme_eq, SME.free_setRange, Int.toNat_natCast]
        tauto
      obtain ⟨hsame, htotal⟩ := h.same (hinv'.congr fun p => (hfree p).symm) rfl
        (hlen.trans ht.length_eq)
      exact ⟨m'', hrel, hfree, hsame, htotal⟩
    · exact absurd ⟨hin, hnf⟩ hno
  · cases hres.symm.trans heq

theorem release_reserved_three : ∃ m m' m'' : SMEMgr, m.reservePages 3 = (.ok (some 0), m') ∧
    m'.releasePages ⟨2, by decide⟩ 0 3 = (.ok, m'') ∧ m''.totalFree = m.totalFree := by
  have h0 : (spaceSystem ⟨2, by decide⟩).Reachable
      ⟨⟨SME.empty, 4, 0⟩, [⟨[nodeSet 0 4], 4, 0, 4, 4⟩]⟩ :=
    .init ⟨SME.empty, 1, fun _ => true, by decide, rfl⟩
  obtain ⟨m'', h, -, -, ht⟩ := release_reserved _ h0 (n := 3) (by decide) rfl
  exact ⟨_, _, m'', rfl, h, ht⟩

/-! ## The catalog -/

namespace BlockData

theorem names_loadCollection (bd : BlockData) (i : ℕ) (name : CStr) :
    (bd.loadCollection i).collectionNameMap name =
      if (bd.mme i).inUse = true ∧ (bd.mme i).collectionName = name then some i
      else bd.collectionNameMap name := by
  unfold loadCollection
  by_cases hu : (bd.mme i).inUse = true
  · simp only [hu, if_true, collectionInsert, true_and]
    exact if_congr eq_comm rfl rfl
  · simp [hu]

theorem ids_loadCollection (bd : BlockData) (i : ℕ) {id : ℕ} (hid : isValidCLUniqueID id = true) :
    (bd.loadCollection i).collectionIDMap id =
      if (bd.mme i).inUse = true ∧ (bd.mme i).clUniqueID = id then some i
      else bd.collectionIDMap id := by
  unfold loadCollection
  by_cases hu : (bd.mme i).inUse = true
  · simp only [hu, if_true, collectionInsert, true_and]
    refine if_congr ⟨fun h => h.2.symm, fun h => ⟨?_, h.symm⟩⟩ rfl rfl
    rw [h]
    exact hid
  · simp [hu]

theorem mme_foldl_loadCollection (l : List ℕ) (bd : BlockData) :
    (l.foldl loadCollection bd).mme = bd.mme := by
  obtain ⟨names, ids, stats, h⟩ := foldl_loadCollection l bd
  rw [h]

theorem read_foldl_loadCollection (read : BlockData → Option ℕ) (key : MB → Bool)
    (hread : ∀ bd i, read (loadCollection bd i) =
      if (bd.mme i).inUse = true ∧ key (bd.mme i) = true then some i else read bd)
    (l : List ℕ) (bd : BlockData) :
    read (l.foldl loadCollection bd) =
      (l.reverse.find? fun i => (bd.mme i).inUse && key (bd.mme i)).or (read bd) := by
  induction l using List.reverseRecOn with
  | nil => rfl
  | append_singleton l i ih =>
    rw [foldl_append, foldl_cons, foldl_nil, hread, mme_foldl_loadCollection, ih,
      reverse_append, reverse_singleton, singleton_append, find?_cons]
    by_cases hp : (bd.mme i).inUse = true ∧ key (bd.mme i) = true
    · simp [hp.1, hp.2]
    · rw [if_neg hp, ← Bool.and_eq_true, Bool.not_eq_true] at *
      rw [hp]

theorem read_loadCollections {bd bd₀ : BlockData} (read : BlockData → Option ℕ) (key : MB → Bool)
    (hread : ∀ bd i, read (loadCollection bd i) =
      if (bd.mme i).inUse = true ∧ key (bd.mme i) = true then some i else read bd)
    (hmme : bd₀.mme = bd.mme) (hnone : read bd₀ = none) {r : Option ℕ}
    (hr : ∀ i, r = some i ↔ bd.InUse i ∧ key (bd.mme i) = true) : read bd₀.loadCollections = r := by
  rw [loadCollections, read_foldl_loadCollection read key hread, hnone, Option.or_none, hmme]
  cases hfind : (List.range mmeSlots).reverse.find? fun i => (bd.mme i).inUse && key (bd.mme i) with
  | none =>
    rw [find?_eq_none] at hfind
    refine (Option.eq_none_iff_forall_not_mem.mpr fun i hi => ?_).symm
    obtain ⟨hu, hkey⟩ := (hr i).mp hi
    exact hfind i (by simpa using hu.1) (by simp [hu.2, hkey])
  | some i =>
    have hp := find?_some hfind
    have hmem := mem_of_find?_eq_some hfind
    rw [Bool.and_eq_true] at hp
    exact ((hr i).mpr ⟨⟨by simpa using hmem, hp.1⟩, hp.2⟩).symm

theorem smeMgr_loadCollections (bd : BlockData) : bd.loadCollections.smeMgr = bd.smeMgr := by
  obtain ⟨names, ids, stats, h⟩ := foldl_loadCollection (List.range mmeSlots) bd
  rw [loadCollections, h]

theorem CatalogOk.loadCollections {bd bd₀ : BlockData} (h : bd.CatalogOk) (hmme : bd₀.mme = bd.mme)
    (hnames : ∀ name, bd₀.collectionNameMap name = none)
    (hids : ∀ id, bd₀.collectionIDMap id = none) :
    bd₀.loadCollections.collectionNameMap = bd.collectionNameMap ∧
      ∀ id, isValidCLUniqueID id = true →
        bd₀.loadCollections.collectionIDMap id = bd.collectionIDMap id := by
  refine ⟨funext fun name => ?_, fun id hid => ?_⟩
  · refine read_loadCollections (fun bd => bd.collectionNameMap name)
      (fun mb => mb.collectionName = name) (fun bd i => ?_) hmme (hnames name) fun i => ?_
    · simpa using bd.names_loadCollection i name
    · simpa using h.name_iff name i
  · refine read_loadCollections (fun bd => bd.collectionIDMap id)
      (fun mb => mb.clUniqueID = id) (fun bd i => ?_) hmme (hids id) fun i => ?_
    · simpa using bd.ids_loadCollection i hid
    · simpa using h.id_iff id i hid

structure Rebuilt (bd bd' : BlockData) : Prop where
  names_eq : bd'.collectionNameMap = bd.collectionNameMap
  ids_eq : ∀ id, isValidCLUniqueID id = true → bd'.collectionIDMap id = bd.collectionIDMap id
  segments : List.Forall₂ SegmentSpace.Same bd.smeMgr.segments bd'.smeMgr.segments
  totalFree_eq : bd'.smeMgr.totalFree = bd.smeMgr.totalFree

theorem Sound.rebuilt {bd bd₀ : BlockData} {n : ℕ} {owned : ℕ → Owned} (h : bd.Sound n owned)
    {alloc : ℕ → Bool} (hinit : SMEMgr.init bd.pageSize.layout bd.smeMgr.sme bd.header.pageNum alloc =
      .ok bd₀.smeMgr) (hmme : bd₀.mme = bd.mme) (hnames : ∀ name, bd₀.collectionNameMap name = none)
    (hids : ∀ id, bd₀.collectionIDMap id = none) : bd.Rebuilt bd₀.loadCollections := by
  have hagr := h.store.agrees
  obtain ⟨hnames', hids'⟩ := h.catalog.loadCollections hmme hnames hids
  have hlen : bd.smeMgr.segments.length = n := hagr.segmentNum_eq
  have hle := hagr.header.pageNum_le
  rw [hagr.pageNum_eq] at hle hinit
  rcases SMEMgr.init_spec bd.pageSize.layout bd.smeMgr.sme n alloc
      (by rwa [PageSize.layout_segmentPages]) with ⟨m, heq, hinv, hsme, -, hlen'⟩ | ⟨heq, -⟩
  · rw [PageSize.layout_segmentPages, hinit] at heq
    cases heq
    obtain ⟨hsame, htotal⟩ := hagr.mgr.same hinv hsme (hlen'.trans hlen.symm)
    have hmgr := bd₀.smeMgr_loadCollections
    rw [← hmgr] at hsame htotal
    exact ⟨hnames', hids', hsame, htotal⟩
  · rw [PageSize.layout_segmentPages, hinit] at heq
    cases heq

end BlockData

theorem HeaderOk.pageSize_unique {info info' : StorageInfo} {h : StorageUnitHeader}
    {p q : PageSize} (hp : HeaderOk info h p) (hq : HeaderOk info' h q) : p = q := by
  have heq : p.bytes = q.bytes := hp.pageSize_eq.symm.trans hq.pageSize_eq
  cases p <;> cases q <;> first | rfl | cases heq

/-- **Opening a unit again rebuilds what it had in memory**: every open that succeeds gives the
names, the valid IDs and, for every segment, the free runs and figures of before. -/
theorem reopen_rebuilds {bd : BlockData} (h : (storeSystem fun _ _ => True).Reachable bd) :
    (∀ m, ∃ bd', openStorage bd.info bd.image false (.allOk m) = .ok bd') ∧
      ∀ createNew os bd', openStorage bd.info bd.image createNew os = .ok bd' → bd.Rebuilt bd' := by
  obtain ⟨n, owned, hs⟩ := (BlockData.sound_invariant _).reachable h
  have hagr := hs.store.agrees
  have hsize : dataOffset ≤ bd.image.fileSize := by
    have hle := hagr.size_le
    rw [hagr.right_size] at hle
    exact (Nat.le_add_right _ _).trans hle
  refine ⟨fun m => ?_, fun createNew os bd' hopen => ?_⟩
  · have hv := (validateHeader_ok_iff bd.info bd.header bd.pageSize _).mpr ⟨hagr.header, rfl⟩
    obtain ⟨bd', hopen, -⟩ := openStorage_allOk bd.image m hsize hv
    exact ⟨bd', hopen⟩
  obtain ⟨p, info', mgr, file, hv, hm, -, dirty, hbd⟩ := openStorage_loaded hopen hsize
  have hp : p = bd.pageSize :=
    ((validateHeader_ok_iff _ _ _ _).mp hv).1.pageSize_unique hagr.header
  subst hp
  rw [hbd]
  exact hs.rebuilt hm rfl (fun _ => rfl) fun _ => rfl

/-- A unit with a collection. -/
theorem reopen_rebuilds_collection :
    ∃ bd : BlockData, (∃ slot, bd.InUse slot) ∧
      (∀ m, ∃ bd', openStorage bd.info bd.image false (.allOk m) = .ok bd') ∧
      ∀ createNew os bd', openStorage bd.info bd.image createNew os = .ok bd' → bd.Rebuilt bd' := by
  obtain ⟨bd, slot, -, -, hreach, -, hi, -⟩ :=
    exists_collection (P := fun _ _ => True) fun _ => trivial
  exact ⟨bd, ⟨slot, hi⟩, reopen_rebuilds hreach⟩

end Novachains.Dms
