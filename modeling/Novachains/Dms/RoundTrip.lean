import Novachains.Dms.Scan
import Novachains.Dms.Tiling

/-!
# What was inserted is scanned

A run is accompanied by the documents whose insert succeeded.  A scan of a collection returns
these, each once, in each extent in the order in which they were inserted.
-/

namespace Novachains.Dms

open Lib Oss List Function

/-- A document as it is stored: with a new `_id` in front if it must have one and has none. -/
def InsertEnv.document (env : InsertEnv) (record : BSONObj) (mustOID : Bool) : List UInt8 :=
  match env.lib.getId record with
  | .ok .eoo =>
    if mustOID then
      encode 4 (17 + record.bytes.length) ++ idToInsert env.oid ++ record.bytes.drop 4
    else record.bytes
  | _ => record.bytes

def StoreOp.logAfter (log : ℕ → List (List UInt8)) (rc : Rc) : StoreOp → ℕ → List (List UInt8)
  | .insertRecord c env record mustOID _ =>
    if rc = .ok then update log c.mbID (log c.mbID ++ [env.document record mustOID])
    else log
  | _ => log

def loggedSystem : System (BlockData × (ℕ → List (List UInt8))) where
  init := fun s => s.1.NewUnit ∧ s.2 = fun _ => []
  step := fun s t => ∃ op rc, op.run s.1 = some (rc, t.1) ∧ t.2 = StoreOp.logAfter s.2 rc op

def loggedSystem.after (s : BlockData × (ℕ → List (List UInt8))) :
    System (BlockData × (ℕ → List (List UInt8))) :=
  { loggedSystem with init := fun t => t = s }

/-- The entries in the order of a chain, in each extent as they are in the list. -/
def inChain (chain : List ℕ) (ents : List Entry) : List Entry :=
  chain.flatMap (bucket (fun x => x.rid.extent) ents)

/-- Every scan of slot `i` returns its window of `ents` in the order of the chain, each once. -/
def ScanReturns (bd : BlockData) (i : ℕ) (ents : List Entry) : Prop :=
  ∃ chain, bd.IsChain i chain ∧ (inChain chain ents).Perm ents ∧ (ents.map Entry.rid).Nodup ∧
    ∀ (ctx : MBContext) (lock : Latch) (maxRecords skipNum : ℤ), ctx.Valid bd.mme → ctx.mbID = i →
      0 ≤ skipNum → ∃ calls, ∀ fuel ≥ calls, scan bd fuel ctx lock maxRecords skipNum =
        some (.ok (window skipNum maxRecords (inChain chain ents)))

theorem InsertEnv.stored_eq_document {env : InsertEnv} {record : BSONObj} {mustOID : Bool}
    {data : List UInt8} (h : env.stored record mustOID = some (.ok data)) :
    data = env.document record mustOID := by
  obtain ⟨heq, hne⟩ := stored_eq h
  rw [InsertEnv.document]
  split
  next heoo =>
    cases mustOID with
    | true => exact (heq.resolve_left (hne rfl heoo)).2.2.2
    | false => exact heq.resolve_right fun hor => absurd hor.1 (by simp)
  next heoo =>
    exact heq.resolve_right fun hor => heoo hor.2.1

/-! ## The documents of a collection -/

/-- The records of the collection are the entries `ents`, and these have the documents `docs`. -/
structure Logged (o : Owned) (docs : List (List UInt8)) (ents : List Entry) : Prop where
  docs_eq : ents.map Entry.bytes = docs
  nodup : (ents.map Entry.rid).Nodup
  mem_added : ∀ x ∈ ents, x.rid.extent ∈ o.added
  recs_eq : ∀ e ∈ o.added, (o.contents.recs e).map (Rec.entry e) =
    bucket (fun x => x.rid.extent) ents e
  whole : ∀ e ∈ o.added, ∀ r ∈ o.contents.recs e, r.Whole

theorem logged_bare (mbEx : ℕ) : Logged (BlockData.bare mbEx) [] [] :=
  ⟨rfl, nodup_nil, fun _ hx => absurd hx not_mem_nil,
    fun _ he => absurd he not_mem_nil, fun _ he => absurd he not_mem_nil⟩

section Step
variable {o o' : Owned} {docs : List (List UInt8)} {ents : List Entry} {l : List ℕ} {x : ℕ}

theorem Logged.grows (h : Logged o docs ents) (hg : o.Grows o' l) (hnd : o'.added.Nodup) :
    Logged o' docs ents where
  docs_eq := h.docs_eq
  nodup := h.nodup
  mem_added := fun x hx => by
    rw [hg.added_eq]
    exact mem_append_left _ (h.mem_added x hx)
  recs_eq := fun e he => by
    rw [hg.added_eq] at he hnd
    rcases mem_append.mp he with hold | hnew
    · rw [hg.recs_eq e hold, h.recs_eq e hold]
    rw [hg.recs_new e hnew, map_nil, eq_comm, eq_nil_iff_forall_not_mem]
    intro x hx
    obtain ⟨hx, hxe⟩ := mem_bucket.mp hx
    exact (nodup_append.mp hnd).2.2 _ (h.mem_added x hx) _ hnew hxe
  whole := fun e he r hr => by
    rw [hg.added_eq] at he
    rcases mem_append.mp he with hold | hnew
    · rw [hg.recs_eq e hold] at hr
      exact h.whole e hold r hr
    · rw [hg.recs_new e hnew] at hr
      cases hr

theorem Logged.gets (h : Logged o docs ents) {r : Rec} (hg : o.Gets o' x r) (hw : r.Whole)
    (hnd : ((o'.contents.recs x).map Rec.off).Nodup) :
    Logged o' (docs ++ [r.data]) (ents ++ [r.entry x]) where
  docs_eq := by
    rw [map_append, h.docs_eq]
    rfl
  nodup := by
    rw [map_append, map_singleton, nodup_append]
    refine ⟨h.nodup, nodup_singleton _, ?_⟩
    rintro rid hrid rid' hrid' rfl
    obtain rfl := mem_singleton.mp hrid'
    obtain ⟨y, hy, hyr⟩ := List.mem_map.mp hrid
    -- The entry would be a record at the same offset.
    have hmem : y ∈ (o.contents.recs x).map (Rec.entry x) := by
      rw [h.recs_eq x hg.mem]
      exact mem_bucket.mpr ⟨hy, congrArg RecordID.extent hyr⟩
    obtain ⟨r', hr', rfl⟩ := List.mem_map.mp hmem
    have hoff : r'.off = r.off := congrArg RecordID.offset hyr
    rw [hg.recs_eq, update_self, map_append, nodup_append] at hnd
    exact hnd.2.2 _ (List.mem_map_of_mem hr') r.off (by simp) hoff
  mem_added := fun y hy => by
    rw [hg.added_eq]
    rcases mem_append.mp hy with hold | hnew
    · exact h.mem_added y hold
    · rw [mem_singleton.mp hnew]
      exact hg.mem
  recs_eq := fun e he => by
    rw [hg.added_eq] at he
    rw [hg.recs_eq]
    by_cases hex : e = x
    · subst hex
      rw [update_self, map_append, h.recs_eq e he]
      have hb : bucket (fun x => x.rid.extent) (ents ++ [r.entry e]) e = _ := bucket_concat_of_eq rfl
      rw [hb, map_singleton]
    · rw [update_of_ne hex, h.recs_eq e he, bucket_concat_of_ne (Ne.symm hex)]
  whole := fun e he r' hr' => by
    rw [hg.added_eq] at he
    rw [hg.recs_eq] at hr'
    by_cases hex : e = x
    · subst hex
      rw [update_self] at hr'
      rcases mem_append.mp hr' with hold | hnew
      · exact h.whole e he r' hold
      · rw [mem_singleton.mp hnew]
        exact hw
    · rw [update_of_ne hex] at hr'
      exact h.whole e he r' hr'

theorem Logged.loses (h : Logged o docs ents) {f : Run} (hl : o.Loses o' x f) :
    Logged o' docs ents :=
  ⟨h.docs_eq, h.nodup, hl.added_eq ▸ h.mem_added, by rw [hl.added_eq, hl.recs_eq]; exact h.recs_eq,
    by rw [hl.added_eq, hl.recs_eq]; exact h.whole⟩

end Step

/-! ## Runs -/

namespace BlockData

/-- A sound unit, the documents of its collections, and the entries these are read as. -/
structure LoggedUnit (bd : BlockData) (n : ℕ) (owned : ℕ → Owned) (log : ℕ → List (List UInt8))
    (ents : ℕ → List Entry) : Prop where
  sound : bd.Sound n owned
  logged : ∀ i, bd.InUse i → Logged (owned i) (log i) (ents i)
  unused : ∀ i, ¬ bd.InUse i → log i = [] ∧ ents i = []

structure Keeps (bd bd' : BlockData) (owned owned' : ℕ → Owned) (ents ents' : ℕ → List Entry)
    (i : ℕ) : Prop where
  inUse : bd.InUse i → bd'.InUse i
  added : bd.InUse i → (owned i).added <+: (owned' i).added
  ents : ents i <+: ents' i

variable {bd bd' : BlockData} {n n' : ℕ} {owned : ℕ → Owned} {log : ℕ → List (List UInt8)}
  {ents : ℕ → List Entry} {i : ℕ}

theorem NewUnit.logged (h : bd.NewUnit) :
    bd.LoggedUnit 0 (fun _ => bare 0) (fun _ => []) fun _ => [] :=
  ⟨h.sound _, fun i hi => absurd hi (h.not_inUse i), fun _ _ => ⟨rfl, rfl⟩⟩

theorem LoggedUnit.update (h : bd.LoggedUnit n owned log ents) {o : Owned}
    {docs : List (List UInt8)} {es : List Entry} (hs : bd'.Sound n' (update owned i o))
    (huse : ∀ j, bd'.InUse j ↔ j = i ∨ bd.InUse j) (hl : Logged o docs es) :
    bd'.LoggedUnit n' (update owned i o) (update log i docs)
      (update ents i es) := by
  refine ⟨hs, fun j hj => ?_, fun j hj => ?_⟩
  · by_cases hji : j = i
    · subst hji
      simpa only [update_self] using hl
    · simp only [update_of_ne hji]
      exact h.logged j (((huse j).mp hj).resolve_left hji)
  · rw [huse, not_or] at hj
    simp only [update_of_ne hj.1]
    exact h.unused j hj.2

theorem keeps_update {o : Owned} {es : List Entry} (huse : ∀ j, bd'.InUse j ↔ j = i ∨ bd.InUse j)
    (hadd : bd.InUse i → (owned i).added <+: o.added) (hes : ents i <+: es) (j : ℕ) :
    bd.Keeps bd' owned (update owned i o) ents (update ents i es) j := by
  refine ⟨fun hj => (huse j).mpr (.inr hj), fun hj => ?_, ?_⟩
  · by_cases hji : j = i
    · subst hji
      rw [update_self]
      exact hadd hj
    · rw [update_of_ne hji]
  · by_cases hji : j = i
    · subst hji
      rwa [update_self]
    · rw [update_of_ne hji]

theorem logAfter_of_ne {rc : Rc} (h : rc ≠ .ok) (op : StoreOp) : op.logAfter log rc = log := by
  cases op with
  | insertRecord c env record mustOID position => exact if_neg h
  | addCollection env args => rfl
  | allocateExtent c os numPages => rfl

theorem SameCatalog.inUse_iff_or (h : bd.SameCatalog bd' i) (hi : bd.InUse i) (j : ℕ) :
    bd'.InUse j ↔ j = i ∨ bd.InUse j :=
  (h.inUse_iff j).trans (or_iff_right_of_imp fun hj => hj ▸ hi).symm

theorem Sound.nodup_added (h : bd.Sound n owned) (hi : bd.InUse i) : (owned i).added.Nodup :=
  (h.store.slot i hi).col.chain.nodup

/-- **One call**: the documents are those before and the one that was inserted, if any. -/
theorem LoggedUnit.run (h : bd.LoggedUnit n owned log ents) {op : StoreOp} {rc : Rc}
    (hrun : op.run bd = some (rc, bd')) :
    ∃ n' owned' ents', bd'.LoggedUnit n' owned' (op.logAfter log rc) ents' ∧
      ∀ j, bd.Keeps bd' owned owned' ents ents' j := by
  obtain ⟨n', owned', hs, hout⟩ := h.sound.run hrun
  cases hout with
  | kept hrc hg =>
    have huse := (hg.sameCatalog 0).inUse_iff
    rw [logAfter_of_ne hrc]
    exact ⟨n', owned, ents, ⟨hs, fun i hi => h.logged i ((huse i).mp hi),
      fun i hi => h.unused i fun hi' => hi ((huse i).mpr hi')⟩,
      fun j => ⟨(huse j).mpr, fun _ => prefix_rfl, prefix_rfl⟩⟩
  | @entered env args rc slot mbEx o l hp hg =>
    obtain ⟨hlog, hents⟩ := h.unused slot hp.not_inUse
    have hnd := hs.nodup_added ((hp.inUse_iff slot).mpr (.inl rfl))
    rw [update_self] at hnd
    have hup := h.update hs hp.inUse_iff ((logged_bare mbEx).grows hg hnd)
    rw [← hlog, update_eq_self] at hup
    exact ⟨n', _, _, hup, keeps_update hp.inUse_iff (fun hi => absurd hi hp.not_inUse)
      (hents ▸ prefix_rfl)⟩
  | @extended c os numPages x o hi hc hg =>
    have huse : ∀ j, bd'.InUse j ↔ j = c.mbID ∨ bd.InUse j := hc.inUse_iff_or hi
    have hnd := hs.nodup_added ((huse c.mbID).mpr (.inl rfl))
    rw [update_self] at hnd
    have hup := h.update hs huse ((h.logged c.mbID hi).grows hg hnd)
    rw [update_eq_self] at hup
    exact ⟨n', _, _, hup, keeps_update huse (fun _ => hg.added_eq ▸ prefix_append ..)
      prefix_rfl⟩
  | @inserted c env record mustOID position o o' l x r hi hc hst hg hr =>
    have huse : ∀ j, bd'.InUse j ↔ j = c.mbID ∨ bd.InUse j := hc.inUse_iff_or hi
    have hi' := (huse c.mbID).mpr (.inl rfl)
    have hnd := hs.nodup_added hi'
    rw [update_self, hr.added_eq] at hnd
    have hoff := (hs.store.body hi' (e := x) (by
      rw [update_self, hr.added_eq]
      exact hr.mem)).nodup_off
    rw [update_self] at hoff
    have hup := h.update hs huse
      (((h.logged c.mbID hi).grows hg hnd).gets hr (InsertEnv.stored_length hst) hoff)
    rw [InsertEnv.stored_eq_document hst] at hup
    refine ⟨n', _, _, hup, keeps_update huse (fun _ => ?_) (prefix_append ..)⟩
    rw [hr.added_eq, hg.added_eq]
    exact prefix_append ..
  | @lost c env record mustOID position o o' l x f hi hc hsh hg hl =>
    have huse : ∀ j, bd'.InUse j ↔ j = c.mbID ∨ bd.InUse j := hc.inUse_iff_or hi
    have hnd := hs.nodup_added ((huse c.mbID).mpr (.inl rfl))
    rw [update_self, hl.added_eq] at hnd
    have hup := h.update hs huse (((h.logged c.mbID hi).grows hg hnd).loses hl)
    rw [update_eq_self] at hup
    refine ⟨n', _, _, hup, keeps_update huse (fun _ => ?_) prefix_rfl⟩
    rw [hl.added_eq, hg.added_eq]
    exact prefix_append ..

theorem LoggedUnit.readable (h : bd.LoggedUnit n owned log ents) (hi : bd.InUse i) {e : ℕ}
    (he : e ∈ (owned i).added) : Readable bd i e ((owned i).contents.recs e) := by
  have hslot := h.sound.store.slot i hi
  have hbody := h.sound.store.body hi he
  refine ⟨?_, ?_, hbody.recordList, fun r hr => ⟨hbody.rec_ok r hr, (h.logged i hi).whole e he r hr⟩⟩
  · have hseg := h.sound.store.agrees.maxSegID_eq
    rw [← extentAddr_col bd i (by omega)]
    exact Col.extentAddr_of_lt _ (hslot.col.chain.mapped e he)
  · have hv := hbody.valid
    rwa [hslot.blockID_eq] at hv

theorem LoggedUnit.scanReturns (h : bd.LoggedUnit n owned log ents) (hi : bd.InUse i)
    (hne : (owned i).added ≠ []) : ScanReturns bd i (ents i) := by
  have hl := h.logged i hi
  have hperm := h.sound.store.perm_chains hi
  have hentries : entries (owned i).contents.recs (bd.chains owned i) =
      inChain (bd.chains owned i) (ents i) :=
    flatMap_congr fun e he => hl.recs_eq e (hperm.mem_iff.mp he)
  refine ⟨bd.chains owned i, h.sound.store.isChain hi, ?_, hl.nodup, ?_⟩
  · exact perm_flatMap_bucket (hperm.nodup_iff.mpr (h.sound.nodup_added hi))
      fun x hx => hperm.mem_iff.mpr (hl.mem_added x hx)
  rintro ctx lock maxRecords skipNum hctx rfl hskip
  refine ⟨scanCalls (owned ctx.mbID).contents.recs (bd.chains owned ctx.mbID),
    fun fuel hfuel => ?_⟩
  rw [← hentries]
  exact scan_eq hctx (h.sound.store.isChain hi) (fun hnil => hne (perm_nil.mp (hnil ▸ hperm).symm))
    (fun e he => h.readable hi (hperm.mem_iff.mp he)) lock maxRecords hskip hfuel

theorem logged_invariant : loggedSystem.Invariant fun s =>
    ∃ n owned ents, s.1.LoggedUnit n owned s.2 ents where
  init := by
    rintro ⟨bd, log⟩ ⟨hnew, rfl⟩
    exact ⟨_, _, _, hnew.logged⟩
  step := by
    rintro ⟨bd, log⟩ ⟨bd', log'⟩ ⟨n, owned, ents, h⟩ ⟨op, rc, hrun, rfl⟩
    obtain ⟨n', owned', ents', h', -⟩ := h.run hrun
    exact ⟨n', owned', ents', h'⟩

theorem LoggedUnit.after_invariant (h : bd.LoggedUnit n owned log ents) (hi : bd.InUse i)
    (hne : (owned i).added ≠ []) : (loggedSystem.after (bd, log)).Invariant fun s =>
      ∃ n' owned' ents', s.1.LoggedUnit n' owned' s.2 ents' ∧ s.1.InUse i ∧
        (owned' i).added ≠ [] ∧ ents i <+: ents' i where
  init := by
    rintro s rfl
    exact ⟨n, owned, ents, h, hi, hne, prefix_rfl⟩
  step := by
    rintro ⟨bd₁, log₁⟩ ⟨bd₂, log₂⟩ ⟨n₁, owned₁, ents₁, h₁, hi₁, hne₁, hpre⟩ ⟨op, rc, hrun, rfl⟩
    obtain ⟨n₂, owned₂, ents₂, h₂, hkeeps⟩ := h₁.run hrun
    have hk := hkeeps i
    exact ⟨n₂, owned₂, ents₂, h₂, hk.inUse hi₁, (hk.added hi₁).ne_nil hne₁, hpre.trans hk.ents⟩

end BlockData

/-- **What was inserted is scanned.**  In every run the scans return the documents whose insert
succeeded, and however it goes on, these same entries and the later ones. -/
theorem scan_round_trip {bd : BlockData} {log : ℕ → List (List UInt8)}
    (h : loggedSystem.Reachable (bd, log)) {i : ℕ} (hi : bd.InUse i)
    (hne : (bd.mme i).firstExtentID ≠ none) :
    ∃ ents : List Entry, ents.map Entry.bytes = log i ∧ ScanReturns bd i ents ∧
      ∀ s, (loggedSystem.after (bd, log)).Reachable s →
        ∃ ents', ents <+: ents' ∧ ents'.map Entry.bytes = s.2 i ∧ ScanReturns s.1 i ents' := by
  obtain ⟨n, owned, ents, hlog⟩ := BlockData.logged_invariant.reachable h
  have hadd : (owned i).added ≠ [] := fun hnil =>
    hne ((hlog.sound.store.firstExtentID_eq_none_iff hi).mpr hnil)
  refine ⟨ents i, (hlog.logged i hi).docs_eq, hlog.scanReturns hi hadd, fun s hs => ?_⟩
  obtain ⟨n', owned', ents', hlog', hi', hne', hpre⟩ := (hlog.after_invariant hi hadd).reachable hs
  exact ⟨ents' i, hpre, (hlog'.logged i hi').docs_eq, hlog'.scanReturns hi' hne'⟩

theorem exists_logged {bd : BlockData} (h : (storeSystem fun _ _ => True).Reachable bd) :
    ∃ log, loggedSystem.Reachable (bd, log) := by
  induction h with
  | init hnew => exact ⟨_, .init ⟨hnew, rfl⟩⟩
  | step _ hst ih =>
    obtain ⟨log, hlog⟩ := ih
    obtain ⟨op, rc, -, hrun⟩ := hst
    exact ⟨_, .step hlog ⟨op, rc, hrun, rfl⟩⟩

def emptyDocument : BSONObj := ⟨[5, 0, 0, 0, 0], by decide, by decide, by decide⟩

theorem BlockData.Sound.insert_empty {bd : BlockData} {n : ℕ} {owned : ℕ → Owned} {i : ℕ}
    (h : bd.Sound n owned) (hroom : (n + 1) * bd.pageSize.segmentPages ≤ maxPg) (hi : bd.InUse i) :
    ∃ bd', (StoreOp.insertRecord (bd.contextArgs i) .allOk emptyDocument true (-1)).run bd =
        some (.ok, bd') ∧ bd'.InUse i ∧ (bd'.mme i).firstExtentID ≠ none := by
  obtain ⟨rc, bd', n', o, o', x, hrun, hch, ⟨rfl, r, -, hgets⟩ | ⟨-, hfalse, -⟩⟩ :=
    h.insert_accepted hroom hi emptyDocument true ⟨_, rfl, by decide, by decide⟩
  · have hi' : bd'.InUse i := (hch.catalog.inUse_iff i).mpr hi
    refine ⟨bd', hrun, hi', fun hnone => ?_⟩
    have hnil := (hch.store.firstExtentID_eq_none_iff hi').mp hnone
    rw [update_self, hgets.added_eq] at hnil
    exact absurd hgets.mem (hnil ▸ not_mem_nil)
  · cases hfalse

/-- A run in which a document is inserted and scanned. -/
theorem scan_round_trip_document : ∃ (bd : BlockData) (log : ℕ → List (List UInt8)) (i : ℕ),
    loggedSystem.Reachable (bd, log) ∧ bd.InUse i ∧ (bd.mme i).firstExtentID ≠ none ∧ log i ≠ [] ∧
    ∃ ents : List Entry, ents.map Entry.bytes = log i ∧ ScanReturns bd i ents ∧
      ∀ s, (loggedSystem.after (bd, log)).Reachable s →
        ∃ ents', ents <+: ents' ∧ ents'.map Entry.bytes = s.2 i ∧ ScanReturns s.1 i ents' := by
  obtain ⟨bd, slot, n, owned, hreach, hs, hi, -, hroom⟩ :=
    exists_collection (P := fun _ _ => True) fun _ => trivial
  obtain ⟨bd', hrun, hi', hne⟩ := hs.insert_empty hroom hi
  obtain ⟨log, hlog⟩ := exists_logged hreach
  have hreach' : loggedSystem.Reachable (bd', StoreOp.logAfter log .ok
      (.insertRecord (bd.contextArgs slot) .allOk emptyDocument true (-1))) :=
    hlog.step ⟨_, _, hrun, rfl⟩
  refine ⟨bd', _, slot, hreach', hi', hne, ?_, scan_round_trip hreach' hi' hne⟩
  simp [StoreOp.logAfter, BlockData.contextArgs]

end Novachains.Dms
