import Novachains.Util.PoolRuns

/-!
# `_utilSegmentManager`

A manager divides the objects over its pools.  `acquire` asks one pool after another, `release`
goes to the pool whose number the index carries, `shrink` goes through all pools.  What a run of
the manager does to one of its pools is a run of that pool.
-/

namespace Novachains.Util

open Lib SegmentPool List Function

/-- A segment manager.  `_pool` has `_SEGMENT_MGR_MAX_POOLS` entries. -/
structure SegmentManager where
  round : ℕ
  poolNum : ℕ
  pools : ℕ → SegmentPool

namespace SegmentManager

def new (objXSize : ℕ) : SegmentManager := ⟨0, 0, fun _ => SegmentPool.new objXSize⟩

/-- The loop of `init`, which stops at the first pool that fails. -/
def initPools (numberOfObjs maxNumberOfObjs : ℕ) (hasHandler : Bool) :
    List ℕ → (ℕ → SegmentPool) → Rc × (ℕ → SegmentPool)
  | [], pools => (.ok, pools)
  | i :: is, pools =>
    match (pools i).init i numberOfObjs maxNumberOfObjs hasHandler with
    | (.ok, p) => initPools numberOfObjs maxNumberOfObjs hasHandler is (update pools i p)
    | (rc, p) => (rc, update pools i p)

variable (m : SegmentManager)

def init (numberOfObjs maxNumberOfObjs poolNum : ℕ) (hasHandler : Bool) :
    Rc × SegmentManager :=
  let num := min (ossNextPowerOf2 poolNum).1 segmentMgrMaxPools
  let r := initPools (u32 (numberOfObjs / num)) (min (maxNumberOfObjs / num) segmentObjMaxNum)
    hasHandler (List.range num) m.pools
  (r.1, { m with poolNum := num, pools := r.2 })

/-- The tries of `acquire`.  The next pool is asked when one is up to its limit. -/
def acquireFrom (envs : ℕ → AcquireEnv) :
    ℕ → SegmentManager → Option (Except Rc (ℕ × ℕ) × SegmentManager)
  | 0, m => some (.error .ossUpToLimit, m)
  | tries + 1, m =>
    let pool := m.round &&& (m.poolNum - 1)
    ((m.pools pool).acquire (envs tries)).bind fun r =>
      let m' := { m with round := u32 (m.round + 1), pools := update m.pools pool r.2 }
      match r.1 with
      | .error .ossUpToLimit => acquireFrom envs tries m'
      | res => some (res, m')

def acquire (envs : ℕ → AcquireEnv) :
    Option (Except Rc (ℕ × ℕ) × SegmentManager) := acquireFrom envs (m.poolNum + 1) m

/-- `release`, by the index. -/
def release (idx : ℕ) : Option (Rc × SegmentManager) :=
  ((m.pools (unpackedPoolID idx)).release idx).map fun r =>
    (r.1, { m with pools := update m.pools (unpackedPoolID idx) r.2 })

/-- The loop of `shrink`, which stops at the first pool that fails. -/
def shrinkPools (freeSegToKeep : ℕ) (envs : ℕ → ShrinkEnv) :
    List ℕ → (ℕ → SegmentPool) → Option (Rc × (ℕ → SegmentPool))
  | [], pools => some (.ok, pools)
  | i :: is, pools =>
    ((pools i).shrink freeSegToKeep (envs i)).bind fun r =>
      if r.1 = .ok then shrinkPools freeSegToKeep envs is (update pools i r.2.2)
      else some (r.1, update pools i r.2.2)

def shrink (freeSegToKeep : ℕ) (envs : ℕ → ShrinkEnv) :
    Option (Rc × SegmentManager) :=
  (shrinkPools freeSegToKeep envs (List.range m.poolNum) m.pools).map fun r =>
    (r.1, { m with pools := r.2 })

def setMaxObjects (maxNumberOfObjs : ℕ) : SegmentManager :=
  { m with pools := fun i =>
      if i < m.poolNum then
        (m.pools i).setMaxObjects (min (maxNumberOfObjs / m.poolNum) segmentObjMaxNum)
      else m.pools i }

end SegmentManager

inductive MgrOp
  | acquire (envs : ℕ → AcquireEnv)
  | release (idx : UInt32)
  | shrink (freeSegToKeep : UInt32) (envs : ℕ → ShrinkEnv)
  | setMaxObjects (maxNumberOfObjs : UInt64)

structure MgrState where
  mgr : SegmentManager
  acquired : ℕ → List ℕ

def MgrState.pool (s : MgrState) (i : ℕ) : PoolState := ⟨s.mgr.pools i, s.acquired i⟩

namespace MgrOp

def run (s : MgrState) : MgrOp → Option MgrState
  | .acquire envs => (s.mgr.acquire envs).map fun r =>
    match r.1 with
    | .ok (idx, _) => ⟨r.2, update s.acquired (unpackedPoolID idx)
        (idx :: s.acquired (unpackedPoolID idx))⟩
    | .error _ => ⟨r.2, s.acquired⟩
  | .release idx => (s.mgr.release idx.toNat).map fun r =>
    ⟨r.2, if r.1 = .ok then update s.acquired (unpackedPoolID idx.toNat)
      ((s.acquired (unpackedPoolID idx.toNat)).erase idx.toNat) else s.acquired⟩
  | .shrink freeSegToKeep envs => (s.mgr.shrink freeSegToKeep.toNat envs).map fun r =>
    ⟨r.2, s.acquired⟩
  | .setMaxObjects n => some ⟨s.mgr.setMaxObjects n.toNat, s.acquired⟩

/-- The calls that this one may make on the pools all satisfy `P`. -/
def All (P : SegmentPool → PoolOp → Prop) (m : SegmentManager) : MgrOp → Prop
  | .acquire envs => ∀ i < m.poolNum, ∀ n, P (m.pools i) (.acquire (envs n))
  | .release idx => P (m.pools (unpackedPoolID idx.toNat)) (.release idx)
  | .shrink k envs => ∀ i < m.poolNum, P (m.pools i) (.shrink k (envs i))
  | .setMaxObjects n => ∀ i < m.poolNum, P (m.pools i)
      (.setMaxObjects (UInt32.ofNat (min (n.toNat / m.poolNum) segmentObjMaxNum)))

end MgrOp

def MgrState.New (s : MgrState) : Prop :=
  s.acquired = (fun _ => []) ∧ ∃ objXSize numberOfObjs maxNumberOfObjs poolNum hasHandler,
    objXHeaderSz < objXSize ∧ (SegmentManager.new objXSize).init numberOfObjs maxNumberOfObjs
      poolNum hasHandler = (.ok, s.mgr)

/-- The runs whose calls on the pools all satisfy `P`. -/
def managerSystem (P : SegmentPool → PoolOp → Prop) : System MgrState where
  init := MgrState.New
  step := fun s t => ∃ op : MgrOp, op.All P s.mgr ∧ op.All (fun p op => op.Fresh p) s.mgr ∧
    op.run s = some t

theorem unpackedPoolID_packIndex {pool i : ℕ} (hp : pool < 16) (hi : i < 2 ^ 28) :
    unpackedPoolID (packIndex pool i) = pool := by
  rw [unpackedPoolID, packIndex_and_poolMask hp hi, packedPoolID_eq hp, segmentObjPoolidShift,
    Nat.shiftRight_eq_div_pow, Nat.mul_div_cancel _ (by decide)]

namespace SegmentManager
variable {m m' : SegmentManager} {i : ℕ}

theorem initPools_ok {num max : ℕ} {handler : Bool} {is : List ℕ} {pools pools' : ℕ → SegmentPool}
    (hnd : is.Nodup) (h : initPools num max handler is pools = (.ok, pools')) :
    (∀ i ∈ is, (pools i).init i num max handler = (.ok, pools' i)) ∧
      ∀ i, i ∉ is → pools' i = pools i := by
  induction is generalizing pools with
  | nil =>
    obtain rfl : pools = pools' := by simpa [initPools] using h
    exact ⟨fun _ hi => absurd hi not_mem_nil, fun _ _ => rfl⟩
  | cons j is ih =>
    obtain ⟨hj, hnd⟩ := nodup_cons.mp hnd
    rw [initPools] at h
    split at h
    next p hp =>
      obtain ⟨hin, hout⟩ := ih hnd h
      refine ⟨fun i hi => ?_, fun i hi => ?_⟩
      · rcases mem_cons.mp hi with rfl | hi
        · rw [hp, hout i hj, update_self]
        · have hne : i ≠ j := ne_of_mem_of_not_mem hi hj
          have := hin i hi
          rwa [update_of_ne hne] at this
      · rw [mem_cons, not_or] at hi
        rw [hout i hi.2, update_of_ne hi.1]
    next rc p hne hp =>
      obtain ⟨rfl, -⟩ := Prod.mk.inj h
      exact absurd rfl hne

theorem acquireFrom_cases {envs : ℕ → AcquireEnv} (hpos : 0 < m.poolNum)
    (hok : ∀ i < m.poolNum, ∃ used, (m.pools i).Ok used)
    (hfresh : ∀ i < m.poolNum, ∀ n, (envs n).Fresh (m.pools i)) {tries : ℕ}
    {r : Except Rc (ℕ × ℕ)} (h : acquireFrom envs tries m = some (r, m')) :
    m'.poolNum = m.poolNum ∧ ((∃ rc, r = .error rc ∧ m'.pools = m.pools) ∨
      ∃ i < m.poolNum, ∃ n idx pT p', r = .ok (idx, pT) ∧
        (m.pools i).acquire (envs n) = some (.ok (idx, pT), p') ∧
        m'.pools = update m.pools i p') := by
  induction tries generalizing m with
  | zero =>
    obtain ⟨rfl, rfl⟩ : Except.error Rc.ossUpToLimit = r ∧ m = m' := by simpa [acquireFrom] using h
    exact ⟨rfl, .inl ⟨_, rfl, rfl⟩⟩
  | succ tries ih =>
    have hlt : m.round &&& (m.poolNum - 1) < m.poolNum := by
      have := Nat.and_le_right (n := m.round) (m := m.poolNum - 1)
      omega
    obtain ⟨used, hu⟩ := hok _ hlt
    rw [acquireFrom] at h
    rcases hu.acquire (hfresh _ hlt tries) with ⟨rc, heq, -⟩ | ⟨j, pT, p', heq, -⟩
    · rw [heq, Option.bind_some, update_eq_self] at h
      by_cases hrc : rc = .ossUpToLimit
      · subst hrc
        obtain ⟨hnum, hcases⟩ := ih (m := { m with round := u32 (m.round + 1) }) hpos hok hfresh h
        exact ⟨hnum, hcases⟩
      have hsome : some (Except.error rc, { m with round := u32 (m.round + 1) }) = some (r, m') := by
        cases rc with
        | ossUpToLimit => exact absurd rfl hrc
        | _ => exact h
      obtain ⟨rfl, rfl⟩ := Prod.mk.inj (Option.some.inj hsome)
      exact ⟨rfl, .inl ⟨rc, rfl, rfl⟩⟩
    · rw [heq, Option.bind_some] at h
      obtain ⟨rfl, rfl⟩ := Prod.mk.inj (Option.some.inj h)
      exact ⟨rfl, .inr ⟨_, hlt, tries, _, pT, p', rfl, heq, rfl⟩⟩

theorem shrinkPools_cases {k : ℕ} {envs : ℕ → ShrinkEnv} {is : List ℕ}
    {pools pools' : ℕ → SegmentPool} {rc : Rc} (hnd : is.Nodup)
    (h : shrinkPools k envs is pools = some (rc, pools')) (i : ℕ) :
    pools' i = pools i ∨
      i ∈ is ∧ ∃ rc c, (pools i).shrink k (envs i) = some (rc, c, pools' i) := by
  induction is generalizing pools i with
  | nil =>
    obtain ⟨-, rfl⟩ : Rc.ok = rc ∧ pools = pools' := by simpa [shrinkPools] using h
    exact .inl rfl
  | cons j is ih =>
    obtain ⟨hj, hnd⟩ := nodup_cons.mp hnd
    rw [shrinkPools, Option.bind_eq_some_iff] at h
    obtain ⟨⟨rc', c, p⟩, hp, h⟩ := h
    -- The pool of the head is not shrunk again.
    have hhead : pools' j = p → pools' i = update pools j p i ∨
        (i ∈ is ∧ ∃ rc c, (update pools j p i).shrink k (envs i) =
          some (rc, c, pools' i)) →
        pools' i = pools i ∨
          i ∈ j :: is ∧ ∃ rc c, (pools i).shrink k (envs i) = some (rc, c, pools' i) := by
      intro hpj hcase
      by_cases hij : i = j
      · subst hij
        exact .inr ⟨mem_cons_self, rc', c, hpj ▸ hp⟩
      · rw [update_of_ne hij] at hcase
        exact hcase.imp_right fun hc => ⟨mem_cons_of_mem j hc.1, hc.2⟩
    split_ifs at h with hrc
    · have hself : pools' j = update pools j p j :=
        (ih hnd h j).resolve_right fun hc => hj hc.1
      rw [update_self] at hself
      exact hhead hself (ih hnd h i)
    · obtain ⟨-, rfl⟩ := Prod.mk.inj (Option.some.inj h)
      exact hhead (update_self ..) (.inl rfl)

end SegmentManager

namespace MgrState
variable {P : SegmentPool → PoolOp → Prop} {s t : MgrState} {i : ℕ}

structure Inv (P : SegmentPool → PoolOp → Prop) (s : MgrState) : Prop where
  poolNum_pos : 0 < s.mgr.poolNum
  poolNum_le : s.mgr.poolNum ≤ 16
  reachable : ∀ i < s.mgr.poolNum, (poolSystem P).Reachable (s.pool i)
  poolId_eq : ∀ i < s.mgr.poolNum, (s.mgr.pools i).poolId = i
  unused : ∀ i, s.mgr.poolNum ≤ i → (s.mgr.pools i).poolId = 0

section
variable (hP : ∀ p op, P p op → op.Safe p)
include hP

theorem Inv.ok (h : s.Inv P) (hi : i < s.mgr.poolNum) :
    ∃ used, (s.pool i).Inv used := (PoolState.inv_invariant hP).reachable (h.reachable i hi)

theorem Inv.step_of_pools (h : s.Inv P)
    (hnum : t.mgr.poolNum = s.mgr.poolNum)
    (hstep : ∀ i < s.mgr.poolNum, t.pool i = s.pool i ∨ (poolSystem P).step (s.pool i) (t.pool i))
    (hrest : ∀ i, s.mgr.poolNum ≤ i → t.mgr.pools i = s.mgr.pools i) : t.Inv P := by
  refine ⟨hnum ▸ h.poolNum_pos, hnum ▸ h.poolNum_le, fun i hi => ?_, fun i hi => ?_, fun i hi => ?_⟩
  · rw [hnum] at hi
    rcases hstep i hi with heq | hst
    · rw [heq]
      exact h.reachable i hi
    · exact .step (h.reachable i hi) hst
  · rw [hnum] at hi
    rcases hstep i hi with heq | ⟨op, hop, hfresh, hrun⟩
    · rw [show t.mgr.pools i = s.mgr.pools i from congrArg PoolState.pool heq]
      exact h.poolId_eq i hi
    obtain ⟨used, hinv⟩ := h.ok hP hi
    obtain ⟨t', used', hrun', hst⟩ := hinv.step (hP _ _ hop) hfresh
    cases hrun'.symm.trans hrun
    exact hst.shape.poolId_eq.trans (h.poolId_eq i hi)
  · rw [hnum] at hi
    rw [hrest i hi]
    exact h.unused i hi

theorem Inv.step_of_pool (h : s.Inv P) {j : ℕ}
    (hj : j < s.mgr.poolNum) {m' : SegmentManager} {p' : SegmentPool} {acq : List ℕ}
    (hnum : m'.poolNum = s.mgr.poolNum) (hpools : m'.pools = update s.mgr.pools j p')
    (hst : (poolSystem P).step (s.pool j) ⟨p', acq⟩) :
    MgrState.Inv P ⟨m', update s.acquired j acq⟩ := by
  refine h.step_of_pools hP hnum (fun i _ => ?_) fun i hi => ?_
  · have hpool : MgrState.pool ⟨m', update s.acquired j acq⟩ i =
        ⟨m'.pools i, update s.acquired j acq i⟩ := rfl
    rw [hpool, hpools]
    by_cases hij : i = j
    · subst hij
      rw [update_self, update_self]
      exact .inr hst
    · rw [update_of_ne hij, update_of_ne hij]
      exact .inl rfl
  · dsimp only
    rw [hpools, update_of_ne (by omega)]

theorem Inv.acquire (h : s.Inv P) {envs : ℕ → AcquireEnv}
    (hall : (MgrOp.acquire envs).All P s.mgr)
    (hfresh : (MgrOp.acquire envs).All (fun p op => op.Fresh p) s.mgr)
    (hrun : (MgrOp.acquire envs).run s = some t) : t.Inv P := by
  obtain ⟨⟨r, m'⟩, hacq, rfl⟩ := Option.map_eq_some_iff.mp hrun
  have hok : ∀ i < s.mgr.poolNum, ∃ used, (s.mgr.pools i).Ok used := fun i hi => by
    obtain ⟨used, hinv⟩ := h.ok hP hi
    exact ⟨used, hinv.ok⟩
  obtain ⟨hnum, ⟨rc, rfl, hpools⟩ | ⟨j, hj, n, idx, pT, p', rfl, heq, hpools⟩⟩ :=
    SegmentManager.acquireFrom_cases h.poolNum_pos hok hfresh hacq
  · refine h.step_of_pools hP hnum (fun i _ => .inl ?_) fun i _ => congrFun hpools i
    rw [pool, hpools]
    rfl
  -- The index carries the number of the pool.
  have hidx : unpackedPoolID idx = j := by
    obtain ⟨used, hused⟩ := hok j hj
    rcases hused.acquire (hfresh j hj n) with ⟨rc, heq', -⟩ | ⟨i, pT', q, heq', ha⟩
    · rw [heq] at heq'
      cases heq'
    rw [heq] at heq'
    obtain ⟨⟨rfl, -⟩, -⟩ : (idx = packIndex (s.mgr.pools j).poolId i ∧ pT = pT') ∧ p' = q := by
      simpa using heq'
    rw [h.poolId_eq j hj, unpackedPoolID_packIndex (hj.trans_le h.poolNum_le)
      ((ha.ok.lt_num mem_cons_self).trans_le ha.ok.num_le)]
  dsimp only
  rw [hidx]
  refine h.step_of_pool hP hj hnum hpools ⟨.acquire (envs n), hall j hj n, hfresh j hj n, ?_⟩
  rw [PoolOp.run, show (s.pool j).pool.acquire (envs n) = _ from heq]
  rfl

end

theorem release_unused {p : SegmentPool} {idx : ℕ} (hp : p.poolId = 0)
    (hidx : unpackedPoolID idx ≠ 0) : p.release idx = some (.invalidArg, p) := by
  rw [SegmentPool.release, if_pos]
  rintro ⟨-, hpool⟩
  refine hidx ?_
  rw [unpackedPoolID, hpool, hp]
  rfl

theorem Inv.release (hP : ∀ p op, P p op → op.Safe p) (h : s.Inv P) {idx : UInt32}
    (hall : (MgrOp.release idx).All P s.mgr) (hrun : (MgrOp.release idx).run s = some t) :
    t.Inv P := by
  obtain ⟨⟨rc, m'⟩, hrel, rfl⟩ := Option.map_eq_some_iff.mp hrun
  obtain ⟨⟨rc', p'⟩, heq, hmk⟩ := Option.map_eq_some_iff.mp hrel
  obtain ⟨rfl, rfl⟩ := Prod.mk.inj hmk
  rcases lt_or_ge (unpackedPoolID idx.toNat) s.mgr.poolNum with hj | hge
  · have hst : (poolSystem P).step (s.pool (unpackedPoolID idx.toNat)) ⟨p', if rc' = .ok then
        (s.acquired (unpackedPoolID idx.toNat)).erase idx.toNat
        else s.acquired (unpackedPoolID idx.toNat)⟩ := by
      refine ⟨.release idx, hall, trivial, ?_⟩
      rw [PoolOp.run, show (s.pool _).pool.release idx.toNat = _ from heq]
      rfl
    have hnum : ({ s.mgr with pools := update s.mgr.pools (unpackedPoolID idx.toNat) p' } :
        SegmentManager).poolNum = s.mgr.poolNum := rfl
    have hnext := h.step_of_pool hP hj hnum rfl hst
    by_cases hrc : rc' = .ok
    · rw [if_pos hrc] at hnext
      rw [if_pos hrc]
      exact hnext
    · rw [if_neg hrc, update_eq_self] at hnext
      rw [if_neg hrc]
      exact hnext
  · have hpos := h.poolNum_pos
    rw [release_unused (h.unused _ hge) (by omega)] at heq
    obtain ⟨rfl, rfl⟩ := Prod.mk.inj (Option.some.inj heq)
    dsimp only
    rw [update_eq_self, if_neg (by decide)]
    exact h

theorem Inv.shrink (hP : ∀ p op, P p op → op.Safe p) (h : s.Inv P) {k : UInt32}
    {envs : ℕ → ShrinkEnv} (hall : (MgrOp.shrink k envs).All P s.mgr)
    (hrun : (MgrOp.shrink k envs).run s = some t) : t.Inv P := by
  obtain ⟨⟨rc, m'⟩, hshrink, rfl⟩ := Option.map_eq_some_iff.mp hrun
  obtain ⟨⟨rc', pools'⟩, heq, hmk⟩ := Option.map_eq_some_iff.mp hshrink
  obtain ⟨rfl, rfl⟩ := Prod.mk.inj hmk
  have hcases := SegmentManager.shrinkPools_cases nodup_range heq
  refine h.step_of_pools hP rfl (fun i hi => ?_) fun i hi => ?_
  · rcases hcases i with hsame | ⟨-, rc, c, hpool⟩
    · exact .inl (congrArg (PoolState.mk · (s.acquired i)) hsame)
    · refine .inr ⟨.shrink k (envs i), hall i hi, trivial, ?_⟩
      rw [PoolOp.run, show (s.pool i).pool.shrink k.toNat (envs i) = _ from hpool]
      rfl
  · exact (hcases i).resolve_right fun hc => by
      have := mem_range.mp hc.1
      omega

theorem Inv.setMaxObjects (hP : ∀ p op, P p op → op.Safe p) (h : s.Inv P) {n : UInt64}
    (hall : (MgrOp.setMaxObjects n).All P s.mgr) (hrun : (MgrOp.setMaxObjects n).run s = some t) :
    t.Inv P := by
  cases hrun
  refine h.step_of_pools hP rfl (fun i hi => .inr ?_) fun i hi => if_neg (by omega)
  refine ⟨_, hall i hi, trivial, ?_⟩
  have hlt : min (n.toNat / s.mgr.poolNum) segmentObjMaxNum < 2 ^ 32 :=
    (min_le_right ..).trans_lt (by decide)
  rw [PoolOp.run, UInt32.toNat_ofNat_of_lt' hlt]
  refine congrArg (fun p => some (PoolState.mk p (s.acquired i))) ?_
  exact (if_pos hi).symm

theorem New.inv (h : s.New) : s.Inv P := by
  obtain ⟨hacq, objXSize, num, max, poolNum, handler, hsize, hinit⟩ := h
  have hpools := (Prod.mk.inj hinit).1
  have hmgr := (Prod.mk.inj hinit).2
  obtain ⟨hin, hout⟩ := SegmentManager.initPools_ok nodup_range
    (Prod.ext hpools rfl : SegmentManager.initPools _ _ _ _ _ = (.ok, _))
  have hle : min (ossNextPowerOf2 poolNum).1 segmentMgrMaxPools ≤ 16 := min_le_right ..
  have hpos : 0 < min (ossNextPowerOf2 poolNum).1 segmentMgrMaxPools :=
    lt_min (Nat.two_pow_pos _) (by decide)
  obtain ⟨mgr, acquired⟩ := s
  obtain rfl := hmgr
  obtain rfl : acquired = fun _ => [] := hacq
  refine ⟨hpos, hle, fun i hi => .init ⟨rfl, objXSize, i, _, _, handler, hsize,
    hin i (mem_range.mpr hi)⟩, fun i hi => ?_, fun i hi => ?_⟩
  · exact SegmentPool.poolId_init (hin i (mem_range.mpr hi))
  · have hrest := hout i fun hmem => Nat.not_lt.mpr hi (mem_range.mp hmem)
    exact (congrArg SegmentPool.poolId hrest).trans rfl

/-- **What a run of the manager does to one of its pools is a run of that pool.** -/
theorem inv_invariant (hP : ∀ p op, P p op → op.Safe p) :
    (managerSystem P).Invariant fun s => s.Inv P where
  init := fun _ h => h.inv
  step := by
    rintro s t h ⟨op, hall, hfresh, hrun⟩
    cases op with
    | acquire envs => exact h.acquire hP hall hfresh hrun
    | release idx => exact h.release hP hall hrun
    | shrink k envs => exact h.shrink hP hall hrun
    | setMaxObjects n => exact h.setMaxObjects hP hall hrun

end MgrState

end Novachains.Util
