import Novachains.Dms.Reload
import Novachains.Dms.RoundTrip

/-!
# The block unit

`_dmsBlockUnit` is the storage unit as the rest of the program sees it: documents are inserted under
the name of a collection.  The process may end after any call, and the file be opened again with
`createNew` off.  `_dmsBlockUnit::open` leaves it on, and so refuses a file that exists.
-/

namespace Novachains.Dms

open Lib Oss List Function

/-- `_dmsBlockUnit::insertRecord` without a context of the caller's: `getMBContext` finds the
collection by its name. -/
def BlockData.insertByName (bd : BlockData) (pName : CStr) (alloc : Bool) (env : InsertEnv)
    (record : BSONObj) (mustOID : Bool) (position : ℤ) : Option (Rc × BlockData) :=
  let mbID := bd.collectionNameLookup pName
  if mbID = invalidMBID then some (.dmsNotExist, bd)
  else ContextArgs.call ⟨mbID, (bd.mme mbID).logicalID, none, alloc⟩ bd fun ctx =>
    bd.insertRecord env ctx record mustOID position

/-- A unit with the documents of its collections. -/
abbrev LoggedData := BlockData × (ℕ → List (List UInt8))

inductive UnitStep : LoggedData → LoggedData → Prop
  /-- A call on the storage. -/
  | call {s t : LoggedData} : loggedSystem.step s t → UnitStep s t
  /-- An insert by name. -/
  | insert {s : LoggedData} {pName : CStr} {alloc : Bool} {env : InsertEnv} {record : BSONObj}
      {mustOID : Bool} {position : ℤ} {rc : Rc} {bd' : BlockData} :
      s.1.insertByName pName alloc env record mustOID position = some (rc, bd') →
      UnitStep s (bd', if rc = .ok then
        let mbID := s.1.collectionNameLookup pName
        update s.2 mbID (s.2 mbID ++ [env.document record mustOID]) else s.2)
  /-- The end of the process and an `openStorage` of its file. -/
  | restart {s : LoggedData} {info : StorageInfo} {os : OpenOs} {bd' : BlockData} :
      openStorage info s.1.image false os = .ok bd' → UnitStep s (bd', s.2)

def unitSystem : System LoggedData where
  init := loggedSystem.init
  step := UnitStep

/-! ## Opening again -/

namespace BlockData
variable {bd bd' : BlockData} {n i : ℕ} {owned : ℕ → Owned}

theorem stat_foldl_loadCollection (l : List ℕ) (bd : BlockData) (i : ℕ) :
    (l.foldl loadCollection bd).mbStatInfo i =
      if i ∈ l ∧ (bd.mme i).inUse = true then { bd.mbStatInfo i with
        totals := (bd.mme i).totals
        startLID := (bd.mme i).logicalID }
      else bd.mbStatInfo i := by
  induction l using List.reverseRecOn with
  | nil => simp
  | append_singleton l j ih =>
    rw [foldl_append, foldl_cons, foldl_nil, loadCollection, mme_foldl_loadCollection]
    by_cases hij : i = j
    · subst hij
      by_cases hu : (bd.mme i).inUse = true
      · simp only [hu, if_true, ih, mem_append, mem_singleton, or_true, and_true]
        split_ifs <;> rfl
      · simp [hu, ih]
    · by_cases hu : (bd.mme j).inUse = true <;> simp [hu, hij, ih]

theorem Agrees.dataOffset_le (h : bd.Agrees n) : dataOffset ≤ bd.image.fileSize :=
  (Nat.le_add_right ..).trans (h.right_size ▸ h.size_le)

/-- **A unit that is opened again is sound**, with the same collections. -/
theorem Sound.reopen (h : bd.Sound n owned) {info : StorageInfo} {os : OpenOs}
    (hopen : openStorage info bd.image false os = .ok bd') :
    bd'.Sound n owned ∧ ∀ i, bd'.InUse i ↔ bd.InUse i := by
  have hagr := h.store.agrees
  have hsize := hagr.dataOffset_le
  obtain ⟨p, info', mgr, file, hv, hm, -, dirty, hbd⟩ := openStorage_loaded hopen hsize
  obtain rfl : p = bd.pageSize :=
    ((validateHeader_ok_iff ..).mp hv).1.pageSize_unique hagr.header
  have hre : bd.Rebuilt bd' := hbd ▸ h.rebuilt hm rfl (fun _ => rfl) fun _ => rfl
  have hstat : ∀ i, bd.InUse i → (bd'.mbStatInfo i).totals = (bd.mme i).totals ∧
      (bd'.mbStatInfo i).isCrash = false := by
    intro i hi
    rw [hbd, loadCollections, stat_foldl_loadCollection, if_pos ⟨List.mem_range.mpr hi.1, hi.2⟩]
    exact ⟨rfl, rfl⟩
  obtain ⟨names, ids, stats, hl⟩ := foldl_loadCollection (List.range mmeSlots) _
  rw [loadCollections, hl] at hbd
  have hmme : bd'.mme = bd.mme := by rw [hbd]; rfl
  have hdata : ∀ a k, bd.data.SameOn bd'.data a k := by
    rw [hbd]
    exact fun _ _ => .rfl
  have hps : bd'.pageSize = bd.pageSize := by rw [hbd]
  have hmgr : bd'.smeMgr.sme = bd.smeMgr.sme ∧ bd'.smeMgr.freePos = 0 := by
    have hle := hagr.header.pageNum_le
    change SMEMgr.init _ _ bd.header.pageNum _ = _ at hm
    rw [hagr.pageNum_eq, ← PageSize.layout_segmentPages] at hle hm
    rw [hbd]
    rcases SMEMgr.init_spec _ bd.smeMgr.sme n os.smeAlloc hle with
      ⟨m, heq, -, hsme, hfp, -⟩ | ⟨heq, -⟩
    · cases hm.symm.trans heq
      exact ⟨hsme, hfp⟩
    · cases hm.symm.trans heq
  have hagr' : bd'.Agrees n := by
    have hpn : bd.image.header.pageNum = n * bd'.pageSize.segmentPages := by
      rw [hps]
      exact hagr.pageNum_eq
    have ha := (agrees_openStorage hopen hsize (Dvd.intro_left n hpn.symm)).2.1
    rwa [hpn, Nat.mul_div_cancel _ bd'.pageSize.segmentPages_pos] at ha
  have huse : ∀ i, bd'.InUse i ↔ bd.InUse i := fun i => by rw [InUse, hmme, InUse]
  have hpages : bd'.mappedPages = bd.mappedPages := by
    rw [hagr'.mappedPages_eq, hagr.mappedPages_eq, hps]
  refine ⟨⟨⟨hagr', hmgr.2 ▸ Nat.zero_le n, fun i hi => ?_, fun i j hi hj => ?_⟩, fun i hi => ?_,
    ⟨fun name i => ?_, fun id i hid => ?_⟩, fun p hp => ?_⟩, huse⟩
  · rw [huse] at hi
    have hslot := h.store.slot i hi
    refine ⟨hslot.col.congr hps hpages.ge hagr'.mappedPages_le (by simp only [col, hmme])
      (hdata _ _) (fun _ _ => hdata _ _), hmme ▸ hslot.blockID_eq, ?_, (hstat i hi).2,
      fun p hp => hmgr.1 ▸ hslot.reserved p hp⟩
    rw [(hstat i hi).1, h.synced i hi]
    exact hslot.counts
  · exact h.store.apart i j ((huse i).mp hi) ((huse j).mp hj)
  · rw [hmme, (hstat i ((huse i).mp hi)).1]
  · rw [hre.names_eq, h.catalog.name_iff, huse, hmme]
  · rw [hre.ids_eq id hid, h.catalog.id_iff id i hid, huse, hmme]
  · rw [hmgr.1] at hp
    obtain ⟨i, hi, hown⟩ := h.noLeak p hp
    exact ⟨i, (huse i).mpr hi, hown⟩

theorem unit_invariant : unitSystem.Invariant fun s =>
    ∃ n owned ents, s.1.LoggedUnit n owned s.2 ents where
  init := logged_invariant.init
  step := by
    intro s t hlog hst
    cases hst with
    | call hst => exact logged_invariant.step s t hlog hst
    | insert hins =>
      rw [insertByName] at hins
      split at hins
      · cases hins
        exact hlog
      · exact logged_invariant.step s _ hlog ⟨.insertRecord .., _, hins, rfl⟩
    | restart hopen =>
      obtain ⟨n, owned, ents, h⟩ := hlog
      obtain ⟨hs, huse⟩ := h.sound.reopen hopen
      exact ⟨n, owned, ents, hs, fun i hi => h.logged i ((huse i).mp hi),
        fun i hi => h.unused i (mt (huse i).mpr hi)⟩

end BlockData

/-- **Documents survive restarts**: the scans of a collection return all documents ever inserted,
each once. -/
theorem scan_after_restarts {s : LoggedData} (h : unitSystem.Reachable s) {i : ℕ}
    (hne : s.2 i ≠ []) :
    ∃ ents : List Entry, ents.map Entry.bytes = s.2 i ∧ ScanReturns s.1 i ents := by
  obtain ⟨n, owned, ents, hlog⟩ := BlockData.unit_invariant.reachable h
  have hi : s.1.InUse i := by
    by_contra hi
    exact hne (hlog.unused i hi).1
  have hdocs := (hlog.logged i hi).docs_eq
  obtain ⟨x, hx⟩ := exists_mem_of_ne_nil (ents i) fun hnil => hne (by rw [← hdocs, hnil, map_nil])
  exact ⟨ents i, hdocs, hlog.scanReturns hi (ne_nil_of_mem ((hlog.logged i hi).mem_added x hx))⟩

theorem unit_reachable {s : LoggedData} (h : loggedSystem.Reachable s) : unitSystem.Reachable s := by
  induction h with
  | init h0 => exact .init h0
  | step _ hst ih => exact ih.step (.call hst)

theorem scan_after_restarts_document : ∃ (s : LoggedData) (i : ℕ), unitSystem.Reachable s ∧
    s.2 i ≠ [] ∧ ∃ ents : List Entry, ents.map Entry.bytes = s.2 i ∧ ScanReturns s.1 i ents := by
  obtain ⟨bd, slot, n, owned, hreach, hs, hi, -, hroom⟩ :=
    exists_collection (P := fun _ _ => True) fun _ => trivial
  obtain ⟨bd', hrun, -⟩ := hs.insert_empty hroom hi
  obtain ⟨log, hlog⟩ := exists_logged hreach
  have hreach' : unitSystem.Reachable (bd', StoreOp.logAfter log .ok
      (.insertRecord (bd.contextArgs slot) .allOk emptyDocument true (-1))) :=
    unit_reachable (hlog.step ⟨_, _, hrun, rfl⟩)
  obtain ⟨_, _, _, ⟨⟨hagr, _⟩, _⟩, _⟩ := BlockData.unit_invariant.reachable hreach'
  obtain ⟨bd'', hopen, -⟩ := openStorage_allOk _ bd.msync hagr.dataOffset_le
    ((validateHeader_ok_iff ..).mpr ⟨hagr.header, rfl⟩)
  have hre := hreach'.step (.restart hopen)
  refine ⟨_, slot, hre, ?_, scan_after_restarts hre ?_⟩ <;>
    simp [StoreOp.logAfter, BlockData.contextArgs]

end Novachains.Dms
