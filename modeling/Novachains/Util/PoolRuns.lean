import Novachains.Util.PoolShrink
import Novachains.Lib.Lists
import Novachains.Lib.Transition

/-!
# Runs of a segment pool

The indices that have been acquired and not yet released are kept beside the pool.  Three calls can
break it.  `release` reads behind the last segment when it is given the index of an object that does
not exist.  In `shrink` the number of segments to keep can wrap around, and segments in use are
freed.  And in the last pool the last index looks like no index; it is given out only if segments
have one object.
-/

namespace Novachains.Util

open Lib List

inductive PoolOp
  | acquire (env : SegmentPool.AcquireEnv)
  | release (idx : UInt32)
  | releaseAddr (pT : ℕ)
  | shrink (freeSegToKeep : UInt32) (env : SegmentPool.ShrinkEnv)
  | setMaxObjects (maxNumberOfObjs : UInt32)

structure PoolState where
  pool : SegmentPool
  acquired : List ℕ
  deriving DecidableEq

namespace PoolOp

/-- The state after a call; there is none if the call reads outside an array. -/
def run (s : PoolState) : PoolOp → Option PoolState
  | .acquire env => (s.pool.acquire env).map fun r =>
    match r.1 with
    | .ok (idx, _) => ⟨r.2, idx :: s.acquired⟩
    | .error _ => ⟨r.2, s.acquired⟩
  | .release idx => (s.pool.release idx.toNat).map fun r =>
    ⟨r.2, if r.1 = .ok then s.acquired.erase idx.toNat else s.acquired⟩
  | .releaseAddr pT => (s.pool.releaseAddr pT).map fun r =>
    ⟨r.2, if r.1 = .ok then s.acquired.erase ((s.pool.getIndexByAddr pT).getD invalidObjIndex)
      else s.acquired⟩
  | .shrink freeSegToKeep env => (s.pool.shrink freeSegToKeep.toNat env).map fun r =>
    ⟨r.2.2, s.acquired⟩
  | .setMaxObjects maxNumberOfObjs =>
    some ⟨s.pool.setMaxObjects maxNumberOfObjs.toNat, s.acquired⟩

def Fresh (p : SegmentPool) : PoolOp → Prop
  | .acquire env => env.Fresh p
  | _ => True

/-- The call does not give out the index that looks like none or wrap the number of segments to
keep. -/
def Safe (p : SegmentPool) : PoolOp → Prop
  | .acquire _ => ¬ (p.poolId = 15 ∧ p.delta = 1 ∧ p.numOfObjs = 2 ^ 28 - 1)
  | .release idx => p.InRange idx.toNat
  | .releaseAddr pT => p.getIndexByAddr pT ≠ none
  | .shrink freeSegToKeep _ => p.begin = 0 ∨ p.segList.length + freeSegToKeep.toNat < 2 ^ 32
  | .setMaxObjects _ => True

end PoolOp

def PoolState.New (s : PoolState) : Prop :=
  s.acquired = [] ∧ ∃ objXSize poolId numberOfObjs maxNumberOfObjs hasHandler,
    objXHeaderSz < objXSize ∧
    (SegmentPool.new objXSize).init poolId numberOfObjs maxNumberOfObjs hasHandler = (.ok, s.pool)

/-- The runs whose calls all satisfy `P`, in the state they are made in. -/
def poolSystem (P : SegmentPool → PoolOp → Prop) : System PoolState where
  init := PoolState.New
  step := fun s t => ∃ op, P s.pool op ∧ op.Fresh s.pool ∧ op.run s = some t

/-- The free entries are distinct, and they and the acquired indices are all objects, each once. -/
structure PoolState.Partitioned (s : PoolState) : Prop where
  free_nodup : (s.pool.entries.drop s.pool.begin).Nodup
  acquired_nodup : s.acquired.Nodup
  acquired_pool : ∀ idx ∈ s.acquired, idx &&& segmentObjPoolMask = packedPoolID s.pool.poolId
  perm : (s.pool.entries.drop s.pool.begin ++
    s.acquired.map fun idx => idx &&& segmentObjIndexMask).Perm (List.range s.pool.numOfObjs)

/-- The objects `used` are acquired. -/
structure PoolState.Inv (s : PoolState) (used : List ℕ) : Prop where
  ok : s.pool.Ok used
  acquired_eq : s.acquired = used.map (packIndex s.pool.poolId)
  valid : invalidObjIndex ∉ s.acquired
  full : s.pool.delta = 1 → s.pool.begin = s.pool.numOfObjs

namespace PoolState.Inv
variable {s t : PoolState} {used : List ℕ} {i idx : ℕ}

theorem mem_acquired_iff (h : s.Inv used) (hi : i < 2 ^ 28) :
    packIndex s.pool.poolId i ∈ s.acquired ↔ i ∈ used := by
  rw [h.acquired_eq, List.mem_map]
  refine ⟨?_, fun hu => ⟨i, hu, rfl⟩⟩
  rintro ⟨j, hj, heq⟩
  have hj28 := (h.ok.lt_num hj).trans_le h.ok.num_le
  rwa [← (packIndex_inj h.ok.poolId_lt hj28 hi).mp heq]

theorem erase_acquired (h : s.Inv used) (hi : i ∈ used) :
    s.acquired.erase (packIndex s.pool.poolId i) =
      (used.erase i).map (packIndex s.pool.poolId) := by
  have h28 : ∀ j ∈ used, j < 2 ^ 28 := fun j hj => (h.ok.lt_num hj).trans_le h.ok.num_le
  rw [h.acquired_eq, map_erase_of_injOn hi]
  exact fun j hj heq => (packIndex_inj h.ok.poolId_lt (h28 j hj) (h28 i hi)).mp heq

theorem exists_used (h : s.Inv used) (hidx : idx ∈ s.acquired) :
    ∃ i ∈ used, packIndex s.pool.poolId i = idx := by
  rwa [h.acquired_eq, List.mem_map] at hidx

theorem ne_invalid (h : s.Inv used) (hi : i ∈ used) :
    packIndex s.pool.poolId i ≠ invalidObjIndex := by
  rintro heq
  refine h.valid ?_
  rw [← heq, h.acquired_eq]
  exact List.mem_map_of_mem hi

end PoolState.Inv

/-! ## Steps -/

/-- What a call does: it keeps the invariant, and the acquired objects stay where they are. -/
structure PoolState.Step (s t : PoolState) (used used' : List ℕ) : Prop where
  inv : t.Inv used'
  shape : s.pool.SameShape t.pool
  ptr_eq : ∀ i ∈ used, t.pool.getObjPtrByIndex i = s.pool.getObjPtrByIndex i

namespace PoolState
variable {s t : PoolState} {used : List ℕ} {i idx : ℕ}

theorem Inv.step_self (h : s.Inv used) : s.Step s used used := ⟨h, .rfl, fun _ _ => rfl⟩

theorem ptr_eq_of_prefix {p p' : SegmentPool} (hok : p.Ok used) (hshape : p.SameShape p')
    (hpre : p.addrs <+: p'.addrs) (hi : i < p.numOfObjs) :
    p'.getObjPtrByIndex i = p.getObjPtrByIndex i := by
  obtain ⟨rest, hrest⟩ := hpre
  refine hshape.getObjPtrByIndex_eq ?_
  rw [← hrest, getElem?_append_left]
  rw [SegmentPool.addrs, length_map]
  exact hok.segmentOf_lt hi

theorem Inv.acquired (h : s.Inv used) {env : SegmentPool.AcquireEnv}
    (hsafe : (PoolOp.acquire env).Safe s.pool) {p' : SegmentPool} {pT : ℕ}
    (ha : s.pool.Acquires p' used i pT) :
    packIndex s.pool.poolId i ≠ invalidObjIndex ∧
      s.Step ⟨p', packIndex s.pool.poolId i :: s.acquired⟩ used (i :: used) := by
  have hi28 : i < 2 ^ 28 := (ha.ok.lt_num mem_cons_self).trans_le ha.ok.num_le
  have hne : packIndex s.pool.poolId i ≠ invalidObjIndex := by
    intro heq
    obtain ⟨hpool, hlast⟩ := (packIndex_eq_invalid_iff h.ok.poolId_lt hi28).mp heq
    have hone := ha.last hlast
    exact hsafe ⟨hpool, hone, (ha.full hone (h.full hone)).2.symm.trans hlast⟩
  refine ⟨hne, ⟨ha.ok, ?_, ?_, ?_⟩, ha.shape, fun j hj =>
    ptr_eq_of_prefix h.ok ha.shape ha.addrs_prefix (h.ok.lt_num hj)⟩
  · rw [map_cons, ha.shape.poolId_eq, ← h.acquired_eq]
  · rw [mem_cons, not_or]
    exact ⟨hne.symm, h.valid⟩
  · intro hone
    rw [ha.shape.delta_eq] at hone
    exact (ha.full hone (h.full hone)).1

theorem Inv.released (h : s.Inv used) (hi : i ∈ used) (hlt : s.pool.begin < s.pool.numOfObjs)
    {p' : SegmentPool} (hr : s.pool.Releases p' used i) :
    s.Step ⟨p', s.acquired.erase (packIndex s.pool.poolId i)⟩ used (used.erase i) := by
  refine ⟨⟨hr.ok, ?_, fun hmem => h.valid (mem_of_mem_erase hmem), fun hone => ?_⟩, hr.shape,
    fun j _ => hr.shape.getObjPtrByIndex_eq (by rw [hr.addrs_eq])⟩
  · rw [h.erase_acquired hi, hr.shape.poolId_eq]
  · -- With segments of one object there is nothing to release.
    rw [hr.shape.delta_eq] at hone
    exact absurd (h.full hone) (ne_of_lt hlt)

theorem Inv.release_cases (h : s.Inv used) (hidx : idx < 2 ^ 32) (hrange : s.pool.InRange idx) :
    (∃ rc, s.pool.release idx = some (rc, s.pool) ∧ rc ≠ .ok) ∨
      ∃ i ∈ used, idx = packIndex s.pool.poolId i ∧ s.pool.begin < s.pool.numOfObjs ∧
        ∃ p', s.pool.release idx = some (.ok, p') ∧ s.pool.Releases p' used i := by
  by_cases hacq : idx ∈ s.acquired
  · obtain ⟨i, hi, rfl⟩ := h.exists_used hacq
    rcases lt_or_ge s.pool.begin s.pool.numOfObjs with hlt | hge
    · obtain ⟨p', hrel, hr⟩ := h.ok.release hi (h.ne_invalid hi) hlt
      exact .inr ⟨i, hi, rfl, hlt, p', hrel, hr⟩
    · exact .inl (h.ok.release_full hge _)
  · refine .inl (h.ok.release_refused hidx (fun i hi heq => hacq ?_) hrange)
    rw [← heq, h.acquired_eq]
    exact List.mem_map_of_mem hi

theorem Inv.step_release (h : s.Inv used) (hidx : idx < 2 ^ 32) (hrange : s.pool.InRange idx) :
    ∃ r used', s.pool.release idx = some r ∧
      s.Step ⟨r.2, if r.1 = .ok then s.acquired.erase idx else s.acquired⟩ used used' := by
  rcases h.release_cases hidx hrange with ⟨rc, hrel, hne⟩ | ⟨i, hi, rfl, hlt, p', hrel, hr⟩
  · refine ⟨_, used, hrel, ?_⟩
    rw [if_neg hne]
    exact h.step_self
  · refine ⟨_, used.erase i, hrel, ?_⟩
    rw [if_pos rfl]
    exact h.released hi hlt hr

/-- **One call** has a result and keeps the invariant. -/
theorem Inv.step (h : s.Inv used) {op : PoolOp} (hsafe : op.Safe s.pool) (hfresh : op.Fresh s.pool) :
    ∃ t used', op.run s = some t ∧ s.Step t used used' := by
  cases op with
  | acquire env =>
    rcases h.ok.acquire hfresh with ⟨rc, heq, -⟩ | ⟨i, pT, p', heq, ha⟩
    · exact ⟨s, used, by rw [PoolOp.run, heq]; rfl, h.step_self⟩
    · exact ⟨_, _, by rw [PoolOp.run, heq]; rfl, (h.acquired hsafe ha).2⟩
  | release idx =>
    obtain ⟨r, used', hrel, hstep⟩ := h.step_release idx.toNat_lt hsafe
    exact ⟨_, used', by rw [PoolOp.run, hrel]; rfl, hstep⟩
  | releaseAddr pT =>
    obtain ⟨idx, hidx⟩ := Option.ne_none_iff_exists'.mp hsafe
    rcases h.ok.exists_of_getIndexByAddr hidx with rfl | ⟨i, hi, rfl⟩
    · refine ⟨s, used, ?_, h.step_self⟩
      rw [PoolOp.run, SegmentPool.releaseAddr, hidx, Option.bind_some, if_neg (not_not.mpr rfl)]
      rfl
    have hi28 := hi.trans_le h.ok.num_le
    have hpack := packIndex_eq h.ok.poolId_lt hi28
    have hpool := h.ok.poolId_lt
    have hrange : s.pool.InRange (packIndex s.pool.poolId i) :=
      .inl (by rw [packIndex_and_indexMask hpool hi28]; exact hi)
    obtain ⟨r, used', hrel, hstep⟩ := h.step_release (by omega) hrange
    by_cases hinv : packIndex s.pool.poolId i = invalidObjIndex
    · refine ⟨s, used, ?_, h.step_self⟩
      rw [PoolOp.run, SegmentPool.releaseAddr, hidx, Option.bind_some, if_neg (not_not.mpr hinv)]
      rfl
    · refine ⟨_, used', ?_, hstep⟩
      rw [PoolOp.run, SegmentPool.releaseAddr, hidx, Option.bind_some, if_pos hinv, hrel]
      rfl
  | shrink k env =>
    obtain ⟨rc, c, p', heq, hs⟩ := h.ok.shrink hsafe
    refine ⟨⟨p', s.acquired⟩, used, by rw [PoolOp.run, heq]; rfl,
      ⟨⟨hs.ok, ?_, h.valid, ?_⟩, hs.shape, hs.ptr_eq⟩⟩
    · rw [hs.shape.poolId_eq]
      exact h.acquired_eq
    intro hone
    rw [hs.shape.delta_eq] at hone
    have hfull := h.full hone
    have hle := hs.ok.begin_le
    have hnum := hs.num_le
    have hbegin := hs.begin_eq
    dsimp only
    omega
  | setMaxObjects n =>
    exact ⟨⟨s.pool.setMaxObjects n.toNat, s.acquired⟩, used, rfl,
      ⟨⟨h.ok.setMaxObjects n.toNat, h.acquired_eq, h.valid, h.full⟩, ⟨rfl, rfl, rfl, rfl⟩,
        fun _ _ => rfl⟩⟩

theorem New.inv (h : s.New) : s.Inv [] := by
  obtain ⟨hacq, objXSize, poolId, num, max, handler, hsize, hinit⟩ := h
  have hok := SegmentPool.init_ok (Nat.zero_lt_of_lt hsize) hinit
  refine ⟨hok, hacq, hacq ▸ not_mem_nil, fun hone => ?_⟩
  have hnum : s.pool.numOfObjs = 0 ∧ s.pool.begin = 0 := by
    unfold SegmentPool.init at hinit
    by_cases hc : 0 < min num segmentObjMaxNum ∧ poolId < segmentMgrMaxPools
    · rw [if_pos hc] at hinit
      obtain heq := (Prod.mk.inj hinit).2
      exact ⟨heq ▸ rfl, heq ▸ rfl⟩
    · rw [if_neg hc] at hinit
      cases hinit
  rw [hnum.1, hnum.2]

theorem inv_invariant {P : SegmentPool → PoolOp → Prop} (hP : ∀ p op, P p op → op.Safe p) :
    (poolSystem P).Invariant fun s => ∃ used, s.Inv used where
  init := fun _ h => ⟨[], h.inv⟩
  step := by
    rintro s t ⟨used, h⟩ ⟨op, hop, hfresh, hrun⟩
    obtain ⟨t', used', hrun', hstep⟩ := h.step (hP _ _ hop) hfresh
    cases hrun'.symm.trans hrun
    exact ⟨used', hstep.inv⟩

theorem Inv.partitioned (h : s.Inv used) : s.Partitioned := by
  have h28 : ∀ i ∈ used, i < 2 ^ 28 := fun i hi => (h.ok.lt_num hi).trans_le h.ok.num_le
  have hpool := h.ok.poolId_lt
  refine ⟨(nodup_append.mp h.ok.stack.nodup).1, ?_, ?_, ?_⟩
  · rw [h.acquired_eq]
    exact h.ok.stack.nodup_used.map_on fun i hi j hj heq =>
      (packIndex_inj hpool (h28 i hi) (h28 j hj)).mp heq
  · intro idx hidx
    obtain ⟨i, hi, rfl⟩ := h.exists_used hidx
    exact packIndex_and_poolMask hpool (h28 i hi)
  have hmap : s.acquired.map (fun idx => idx &&& segmentObjIndexMask) = used := by
    rw [h.acquired_eq, List.map_map]
    refine (map_congr_left fun i hi => ?_).trans (List.map_id used)
    exact packIndex_and_indexMask hpool (h28 i hi)
  rw [hmap, ← h.ok.length_entries]
  exact h.ok.stack.perm

theorem Inv.exists_ptr (h : s.Inv used) (hidx : idx ∈ s.acquired) :
    ∃ i ∈ used, ∃ pT, packIndex s.pool.poolId i = idx ∧ s.pool.getObjPtrByIndex i = some pT ∧
      s.pool.getObjPtrByIndex idx = some pT ∧ s.pool.getIndexByAddr pT = some idx := by
  obtain ⟨i, hi, rfl⟩ := h.exists_used hidx
  have hin := h.ok.lt_num hi
  obtain ⟨pT, hpT⟩ := h.ok.exists_ptr hin
  refine ⟨i, hi, pT, rfl, hpT, ?_, h.ok.getIndexByAddr hin hpT⟩
  rw [← SegmentPool.getObjPtrByIndex_and,
    packIndex_and_indexMask h.ok.poolId_lt (hin.trans_le h.ok.num_le)]
  exact hpT

theorem Step.ptr_eq_index {used' : List ℕ} (h : s.Step t used used') (hs : s.Inv used)
    (hidx : idx ∈ s.acquired) : t.pool.getObjPtrByIndex idx = s.pool.getObjPtrByIndex idx := by
  obtain ⟨i, hi, rfl⟩ := hs.exists_used hidx
  have hmask := packIndex_and_indexMask hs.ok.poolId_lt ((hs.ok.lt_num hi).trans_le hs.ok.num_le)
  rw [← SegmentPool.getObjPtrByIndex_and, ← SegmentPool.getObjPtrByIndex_and s.pool, hmask]
  exact h.ptr_eq i hi

end PoolState

/-- **No object is given out twice.**  In every run of safe calls the free and the acquired indices
are all objects, each once; `acquire` returns a free one; the address of an acquired object leads
back to its index and stays; and an index that is not acquired is refused without effect. -/
theorem objects_acquired_once {s : PoolState} (h : (poolSystem fun p op => op.Safe p).Reachable s) :
    s.Partitioned ∧
    (∀ op : PoolOp, op.Safe s.pool → op.Fresh s.pool → ∃ t, op.run s = some t) ∧
    (∀ (env : SegmentPool.AcquireEnv) (idx pT : ℕ) (p' : SegmentPool),
      (PoolOp.acquire env).Safe s.pool → env.Fresh s.pool →
      s.pool.acquire env = some (.ok (idx, pT), p') →
      idx ∉ s.acquired ∧ idx ≠ invalidObjIndex ∧ p'.getObjPtrByIndex idx = some pT) ∧
    (∀ idx ∈ s.acquired, ∃ pT, s.pool.getObjPtrByIndex idx = some pT ∧
      s.pool.getIndexByAddr pT = some idx ∧
      ∀ t, (poolSystem fun p op => op.Safe p).step s t → idx ∈ t.acquired →
        t.pool.getObjPtrByIndex idx = some pT) ∧
    (∀ idx < 2 ^ 32, idx ∉ s.acquired → s.pool.InRange idx →
      ∃ rc, s.pool.release idx = some (rc, s.pool) ∧ rc ≠ .ok) := by
  obtain ⟨used, hinv⟩ := (PoolState.inv_invariant fun _ _ hop => hop).reachable h
  refine ⟨hinv.partitioned, fun op hsafe hfresh => ?_, fun env idx pT p' hsafe hfresh heq => ?_,
    fun idx hidx => ?_, fun idx hidx hnot hrange => ?_⟩
  · obtain ⟨t, -, hrun, -, -⟩ := hinv.step hsafe hfresh
    exact ⟨t, hrun⟩
  · rcases hinv.ok.acquire hfresh with ⟨rc, heq', -⟩ | ⟨i, pT', q, heq', ha⟩
    · rw [heq] at heq'
      cases heq'
    rw [heq] at heq'
    obtain ⟨⟨rfl, rfl⟩, rfl⟩ : (idx = packIndex s.pool.poolId i ∧ pT = pT') ∧ p' = q := by
      simpa using heq'
    have hi28 := (ha.ok.lt_num mem_cons_self).trans_le ha.ok.num_le
    refine ⟨?_, (hinv.acquired hsafe ha).1, ?_⟩
    · rw [hinv.mem_acquired_iff hi28]
      exact ha.not_mem
    · rw [← SegmentPool.getObjPtrByIndex_and, packIndex_and_indexMask hinv.ok.poolId_lt hi28]
      exact ha.ptr_eq
  · obtain ⟨i, hi, pT, -, -, hptr, hback⟩ := hinv.exists_ptr hidx
    refine ⟨pT, hptr, hback, ?_⟩
    rintro t ⟨op, hsafe, hfresh, hrun⟩ -
    obtain ⟨t', used', hrun', hstep⟩ := hinv.step hsafe hfresh
    cases hrun'.symm.trans hrun
    rw [hstep.ptr_eq_index hinv hidx]
    exact hptr
  · rcases hinv.release_cases hidx hrange with hrefused | ⟨i, hi, rfl, -⟩
    · exact hrefused
    · refine absurd ?_ hnot
      rw [hinv.acquired_eq]
      exact List.mem_map_of_mem hi

def pairs (list : Option (List ℕ)) (b n : ℕ) (segList : List Segment) (acquired : List ℕ) :
    PoolState :=
  ⟨{ objXSize := 16, list := list, begin := b, delta := 2, numOfObjs := n, maxNumOfObjs := 100,
     exponent := 1, poolId := 0, highWatermark := 4, isInitialized := true, segList := segList,
     hasHandler := false }, acquired⟩

/-- The two objects from the index `i` on, with their flags. -/
def pair (addr i : ℕ) (f g : ObjFlag) : Segment :=
  ⟨addr, [{ flag := f, index := i }, { flag := g, index := i + 1 }]⟩

def SegmentPool.AcquireEnv.ofAddr (addr : ℕ) : SegmentPool.AcquireEnv := ⟨true, some addr, true⟩

def SegmentPool.ShrinkEnv.allOk : SegmentPool.ShrinkEnv := ⟨true, .ok, true, fun _ => 0⟩

def twoAcquired : PoolState :=
  pairs (some [0, 1, 2, 3]) 2 4
    [pair 1000 0 .acquired .acquired, pair 2000 2 .released .released] [1, 0]

theorem twoAcquired_reachable {P : SegmentPool → PoolOp → Prop}
    (hP : ∀ p env, p.poolId = 0 → P p (.acquire env)) : (poolSystem P).Reachable twoAcquired := by
  have h0 : (poolSystem P).Reachable (pairs none 0 0 [] []) :=
    .init ⟨rfl, 16, 0, 2, 100, false, by decide, rfl⟩
  have h1 : (poolSystem P).Reachable
      (pairs (some [0, 1]) 1 2 [pair 1000 0 .acquired .released] [0]) :=
    .step h0 ⟨.acquire (.ofAddr 1000), hP _ _ rfl, fun _ _ b hb => absurd hb not_mem_nil, rfl⟩
  refine .step h1 ⟨.acquire (.ofAddr 2000), hP _ _ rfl, fun a ha b hb => ?_, rfl⟩
  obtain rfl : a = 2000 := (Option.some.inj ha).symm
  obtain rfl : b = 1000 := mem_singleton.mp hb
  exact .inl (by decide)

/-- The theorem in the state with two acquired objects. -/
theorem objects_acquired_once_two :
    twoAcquired.Partitioned ∧ twoAcquired.acquired = [1, 0] ∧
      (∀ idx < 2 ^ 32, idx ∉ twoAcquired.acquired → twoAcquired.pool.InRange idx →
        ∃ rc, twoAcquired.pool.release idx = some (rc, twoAcquired.pool) ∧ rc ≠ .ok) := by
  have hreach : (poolSystem fun p op => op.Safe p).Reachable twoAcquired :=
    twoAcquired_reachable fun p env h0 hbad => absurd (h0.symm.trans hbad.1) (by decide)
  obtain ⟨hpart, -, -, -, hrefused⟩ := objects_acquired_once hreach
  exact ⟨hpart, rfl, hrefused⟩

/-- The number of segments to keep wraps around, and the segment of an acquired object is freed. -/
theorem object_acquired_twice : ∃ (s : PoolState) (env : SegmentPool.AcquireEnv) (idx pT : ℕ)
    (p' : SegmentPool), (poolSystem fun _ _ => True).Reachable s ∧ idx ∈ s.acquired ∧
      env.Fresh s.pool ∧ s.pool.acquire env = some (.ok (idx, pT), p') := by
  have h2 := twoAcquired_reachable (P := fun _ _ => True) fun _ _ _ => trivial
  have h3 : (poolSystem fun _ _ => True).Reachable
      (pairs (some [0, 0, 2, 3]) 1 4
        [pair 1000 0 .released .acquired, pair 2000 2 .released .released] [1]) :=
    .step h2 ⟨.release 0, trivial, trivial, rfl⟩
  have h4 : (poolSystem fun _ _ => True).Reachable (pairs none 1 0 [] [1]) :=
    .step h3 ⟨.shrink 0xFFFFFFFF .allOk, trivial, trivial, rfl⟩
  exact ⟨_, .ofAddr 1000, 1, 1024, _, h4, mem_singleton_self 1,
    fun _ _ b hb => absurd hb not_mem_nil, rfl⟩

end Novachains.Util
