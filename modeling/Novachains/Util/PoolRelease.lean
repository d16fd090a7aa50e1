import Novachains.Util.SegmentManager

/-!
# Which acquired objects can be released

`release` refuses every index when all objects of the pool are acquired.  A pool whose segments have
one object is always in this state, and `shrink` leads to it when it frees the last segment with
free objects.  In every other state an acquired object can be released, and is the next one given
out.
-/

namespace Novachains.Util

open Lib SegmentPool

/-- `release` succeeds, and whatever the next `acquire` meets, it returns this index. -/
def PoolState.Releasable (s : PoolState) (idx : ℕ) : Prop :=
  ∃ p', s.pool.release idx = some (.ok, p') ∧
    ∀ env, ∃ pT p'', p'.acquire env = some (.ok (idx, pT), p'')

/-- The state of a pool in a run, on its own or as a pool of a manager, whose calls on the pool
all satisfy `P`. -/
def PoolState.OfRun (P : SegmentPool → PoolOp → Prop) (s : PoolState) : Prop :=
  (poolSystem P).Reachable s ∨
    ∃ (m : MgrState) (i : ℕ), (managerSystem P).Reachable m ∧ i < m.mgr.poolNum ∧ s = m.pool i

theorem PoolState.OfRun.reachable {P : SegmentPool → PoolOp → Prop}
    (hP : ∀ p op, P p op → op.Safe p) {s : PoolState} (h : s.OfRun P) :
    (poolSystem P).Reachable s := by
  rcases h with h | ⟨m, i, hm, hi, rfl⟩
  · exact h
  · exact ((MgrState.inv_invariant hP).reachable hm).reachable i hi

theorem SegmentPool.Ok.acquire_of_lt {p : SegmentPool} {used : List ℕ} (h : p.Ok used)
    (hlt : p.begin + 1 < p.numOfObjs) {i : ℕ} (hi : p.entries[p.begin]? = some i)
    (env : AcquireEnv) : ∃ pT p', p.acquire env = some (.ok (packIndex p.poolId i, pT), p') := by
  obtain ⟨j, pT, p', hj, hfree, -⟩ := h.acquireFree (by omega)
  obtain rfl : i = j := Option.some.inj (hi.symm.trans hj)
  refine ⟨pT, p', ?_⟩
  rw [SegmentPool.acquire, if_pos h.initialized, SegmentPool.prepareAcquire,
    if_neg fun hneed => absurd (h.needs_segment_iff.mp hneed) (Nat.not_le.mpr hlt)]
  exact hfree

namespace PoolState
variable {s : PoolState} {used : List ℕ} {idx : ℕ}

theorem Inv.releasable_iff_lt (h : s.Inv used) (hidx : idx ∈ s.acquired) :
    s.Releasable idx ↔ s.pool.begin < s.pool.numOfObjs := by
  obtain ⟨i, hi, rfl⟩ := h.exists_used hidx
  constructor
  · rintro ⟨p', hrel, -⟩
    by_contra hfull
    obtain ⟨rc, hrel', hne⟩ := h.ok.release_full (Nat.not_lt.mp hfull) (packIndex s.pool.poolId i)
    rw [hrel] at hrel'
    exact hne (Prod.mk.inj (Option.some.inj hrel')).1.symm
  · intro hlt
    obtain ⟨p', hrel, hr⟩ := h.ok.release hi (h.ne_invalid hi) hlt
    have hpos : 0 < s.pool.begin := h.ok.stack.length_used ▸ List.length_pos_of_mem hi
    refine ⟨p', hrel, fun env => ?_⟩
    have hroom : p'.begin + 1 < p'.numOfObjs := by
      rw [hr.begin_eq, hr.num_eq]
      omega
    obtain ⟨pT, p'', hacq⟩ := hr.ok.acquire_of_lt hroom hr.next env
    rw [hr.shape.poolId_eq] at hacq
    exact ⟨pT, p'', hacq⟩

end PoolState

theorem SegmentManager.release_ok_iff (m : SegmentManager) (idx : ℕ) :
    (∃ m', m.release idx = some (.ok, m')) ↔
      ∃ p', (m.pools (unpackedPoolID idx)).release idx = some (.ok, p') := by
  constructor
  · rintro ⟨m', h⟩
    obtain ⟨⟨rc, p'⟩, hrel, hmk⟩ := Option.map_eq_some_iff.mp h
    obtain ⟨rfl, -⟩ := Prod.mk.inj hmk
    exact ⟨p', hrel⟩
  · rintro ⟨p', h⟩
    exact ⟨_, by rw [SegmentManager.release, h]; rfl⟩

/-- **An acquired object can be released if and only if some object of its pool is free**, in every
run of safe calls on the pool or on its manager. -/
theorem acquired_releasable_iff {s : PoolState} (h : s.OfRun fun p op => op.Safe p) {idx : ℕ}
    (hidx : idx ∈ s.acquired) :
    (s.Releasable idx ↔ s.pool.begin < s.pool.numOfObjs) ∧
      ∀ m : MgrState, m.pool (unpackedPoolID idx) = s →
        ((∃ m', m.mgr.release idx = some (.ok, m')) ↔ s.pool.begin < s.pool.numOfObjs) := by
  obtain ⟨used, hinv⟩ :=
    (PoolState.inv_invariant fun _ _ hop => hop).reachable (h.reachable fun _ _ hop => hop)
  have hiff := hinv.releasable_iff_lt hidx
  refine ⟨hiff, ?_⟩
  rintro m rfl
  rw [SegmentManager.release_ok_iff, ← hiff]
  constructor
  · rintro ⟨p', hrel⟩
    by_contra hnot
    rw [hiff] at hnot
    obtain ⟨rc, hrel', hne⟩ := hinv.ok.release_full (Nat.not_lt.mp hnot) idx
    rw [show (m.pool (unpackedPoolID idx)).pool.release idx = _ from hrel] at hrel'
    exact hne (Prod.mk.inj (Option.some.inj hrel')).1.symm
  · rintro ⟨p', hrel, -⟩
    exact ⟨p', hrel⟩

/-- The object 0 of the pool with two acquired objects can be released. -/
theorem acquired_releasable_iff_two : twoAcquired.Releasable 0 := by
  have hreach : (poolSystem fun p op => op.Safe p).Reachable twoAcquired :=
    twoAcquired_reachable fun p env h0 hbad => absurd (h0.symm.trans hbad.1) (by decide)
  have hmem : 0 ∈ twoAcquired.acquired := by decide
  exact (acquired_releasable_iff (.inl hreach) hmem).1.mpr (by decide)

/-- An acquired object cannot be released: `shrink` has freed the only segment with free objects. -/
theorem acquired_not_releasable : ∃ (s : PoolState) (idx : ℕ),
    s.OfRun (fun p op => op.Safe p) ∧ idx ∈ s.acquired ∧
      s.pool.release idx = some (.sys, s.pool) := by
  have h2 : (poolSystem fun p op => op.Safe p).Reachable twoAcquired :=
    twoAcquired_reachable fun p env h0 hbad => absurd (h0.symm.trans hbad.1) (by decide)
  have h3 : (poolSystem fun p op => op.Safe p).Reachable
      (pairs (some [0, 0]) 2 2 [pair 1000 0 .acquired .acquired] [1, 0]) :=
    .step h2 ⟨.shrink 0 .allOk, .inr (by decide), trivial, rfl⟩
  exact ⟨_, 0, .inl h3, by decide, rfl⟩

end Novachains.Util
