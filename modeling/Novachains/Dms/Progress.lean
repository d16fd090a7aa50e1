import Novachains.Dms.StoreRuns

/-!
# Calls that succeed

A sound unit with room for another segment is not stuck when the system calls succeed, so that
`addCollection` and `insertRecord` do what they are asked for.
-/

namespace Novachains.Dms

open Lib Oss Function

namespace BlockData
variable {bd : BlockData} {n : ℕ} {owned : ℕ → Owned}

theorem StoreOk.has_lt (h : bd.StoreOk n owned) {i p : ℕ} (hi : bd.InUse i) (hp : (owned i).Has p) :
    p < n * bd.pageSize.segmentPages := by
  have hcol := (h.slot i hi).col
  have hpages : (bd.col i).pages = n * bd.pageSize.segmentPages := h.agrees.mappedPages_eq
  rcases hp with hp | ⟨e, he, hp⟩
  · have hle := hcol.chain.mbEx_le
    rw [hpages, PageSize.mbExSize_eq] at hle
    omega
  · have hle := hcol.within e he
    rw [hpages] at hle
    omega

theorem Sound.free_of_le (h : bd.Sound n owned) {p : ℕ} (hp : n * bd.pageSize.segmentPages ≤ p) :
    bd.smeMgr.sme.Free p := by
  by_contra hfree
  obtain ⟨i, hi, hown⟩ := h.noLeak p hfree
  exact absurd (h.store.has_lt hi hown) (Nat.not_lt.mpr hp)

theorem Sound.not_stuck (h : bd.Sound n owned) (hroom : (n + 1) * bd.pageSize.segmentPages ≤ maxPg)
    {os : ℕ → GrowOs} (hos : os 1 = .allOk) : ¬ bd.Stuck os := by
  rintro ⟨fp, hne⟩
  have hagr := h.store.agrees
  rw [hos] at hne
  exact hne ((hagr.setMgr (hagr.mgr.setFreePos fp) hagr.segmentNum_eq).extend_allOk hroom
    fun _ => h.free_of_le)

/-- **A collection that may be added is**, with a first extent if it is to have one. -/
theorem Sound.addCollection_ok (h : bd.Sound n owned)
    (hroom : (n + 2) * bd.pageSize.segmentPages ≤ maxPg) (env : AddEnv) (args : AddArgs)
    (hmeta : env.osMeta 1 = .allOk) (hos : env.os 1 = .allOk) (halloc : env.alloc = true)
    (hname : dmsCheckCLName args.name args.sysCollection = .ok)
    (hslot : ∃ slot, bd.newSlot args = .ok slot)
    (hpages : args.initPages ≤ bd.pageSize.segmentPages) :
    ∃ bd' slot n' o mbEx l, bd.addCollection env args = some (.ok, bd') ∧
      bd'.Sound n' (update owned slot o) ∧ bd.Published bd' args slot ∧
      (bare mbEx).Grows o l ∧ (args.initPages.val ≠ 0 → l ≠ []) ∧ n' ≤ n + 2 := by
  have hroom₁ : (n + 1) * bd.pageSize.segmentPages ≤ maxPg :=
    (Nat.mul_le_mul_right _ (Nat.le_succ _)).trans hroom
  rcases h.store.addCollection_cases h.synced h.catalog env args with
    ⟨-, rc, n', bd₁, -, -, -, hbad | hbad | hbad⟩ |
    ⟨bd₁, mbEx, slot, n', bd₂, -, hle, -, heq, hent⟩ | ⟨-, hbad⟩
  · exact absurd hname hbad
  · obtain ⟨slot, hslot⟩ := hslot
    exact absurd hslot (hbad slot)
  · exact absurd hbad (h.not_stuck hroom₁ hmeta)
  · have h₂ := h.entered hent
    have hps : bd₂.pageSize = bd.pageSize := hent.published.pageSize_eq
    have hi : bd₂.InUse slot := (hent.published.inUse_iff slot).mpr (.inl rfl)
    have hroom₂ : (n' + 1) * bd₂.pageSize.segmentPages ≤ maxPg :=
      hps ▸ (Nat.mul_le_mul_right _ (by omega)).trans hroom
    rcases hent.store.addFirstExtent hent.synced hi env args with
      ⟨rc, n'', bd₃, -, -, -, hbad | hbad | hbad⟩ |
      ⟨n'', o, l, bd₃, heq', hch, hgrows, hl, hle'⟩ | ⟨-, hbad⟩
    · rw [halloc] at hbad
      cases hbad
    · exact absurd (hps ▸ hpages) (Nat.not_le.mpr hbad)
    · exact absurd hbad (h₂.not_stuck hroom₂ hos)
    · rw [update_self] at hgrows
      have h₃ := h₂.changed hi hch fun p hp => hgrows.has (by rwa [update_self] at hp)
      rw [update_idem] at h₃
      exact ⟨bd₃, slot, n'', o, mbEx, l, heq.trans heq', h₃, hent.published.trans hch.catalog,
        hgrows, hl, by omega⟩
    · exact absurd hbad (h₂.not_stuck hroom₂ hos)
  · exact absurd hbad (h.not_stuck hroom₁ hmeta)

theorem NewUnit.newSlot (h : bd.NewUnit) (hnum : bd.header.numMB = 0) (args : AddArgs) :
    ∃ slot, bd.newSlot args = .ok slot := by
  obtain ⟨-, -, -, hmme, hnames, hids⟩ := h.empty
  have hfind : (List.range mmeSlots).find? (fun i => (bd.mme i).isFree) = some 0 := by
    rw [List.find?_eq_some_iff_getElem]
    exact ⟨by rw [hmme]; rfl, 0, by simp [mmeSlots], by simp, by simp⟩
  refine ⟨0, ?_⟩
  rw [BlockData.newSlot, collectionNameLookup, collectionIdLookup, hnames, hids, hnum, hfind]
  simp [mmeSlots]

end BlockData

theorem exists_newUnit : ∃ bd : BlockData, bd.NewUnit ∧ bd.pageSize = .k4 ∧ bd.header.numMB = 0 := by
  have hv : validateHeader unitInfo (initHeader unitInfo) = .ok (.k4, unitInfo) := by decide
  obtain ⟨bd, hopen, hps, -⟩ := openStorage_allOk ⟨dataOffset, _, SME.empty, fun _ => MB.free,
    fun _ => 0⟩ ⟨fun _ => true, []⟩ le_rfl hv
  obtain ⟨hhdr, -⟩ := agrees_openStorage hopen le_rfl (dvd_zero _)
  refine ⟨bd, ⟨_, ⟨0, initHeader unitInfo, SME.empty, fun _ => MB.free, fun _ => 0⟩, _, rfl, hopen⟩,
    hps, ?_⟩
  rw [hhdr]

def onePage : AddArgs := ⟨[97], 1, 0, ⟨1, by decide⟩, false⟩

def AddEnv.allOk : AddEnv := ⟨fun _ => .allOk, fun _ => .allOk, true⟩

theorem exists_collection {P : BlockData → StoreOp → Prop}
    (hP : ∀ bd, P bd (.addCollection .allOk onePage)) :
    ∃ bd slot n owned, (storeSystem P).Reachable bd ∧ bd.Sound n owned ∧ bd.InUse slot ∧
      (owned slot).added ≠ [] ∧ (n + 1) * bd.pageSize.segmentPages ≤ maxPg := by
  obtain ⟨bd, hnew, hps, hnum⟩ := exists_newUnit
  have hsound := hnew.sound fun _ => BlockData.bare 0
  obtain ⟨bd', slot, n, o, mbEx, l, hrun, hsound', hpub, hgrows, hl, hle⟩ :=
    hsound.addCollection_ok (by rw [hps]; decide) .allOk onePage rfl rfl rfl
      (by decide) (hnew.newSlot hnum _) (by rw [hps]; decide)
  refine ⟨bd', slot, n, _, .step (.init hnew) ⟨_, .ok, hP bd, hrun⟩, hsound',
    (hpub.inUse_iff slot).mpr (.inl rfl), ?_, ?_⟩
  · rw [update_self, hgrows.added_eq]
    exact List.append_ne_nil_of_right_ne_nil _ (hl (by decide))
  · rw [hpub.pageSize_eq, hps]
    exact (Nat.mul_le_mul_right _ (Nat.succ_le_succ hle)).trans (by decide)

end Novachains.Dms
