import Novachains.Lib.Transition
import Novachains.Dms.SMEMgr.Init

/-!
# Runs of the space manager

The manager is loaded from a bitmap and then reserves and releases pages and takes
new segments, in any order.  In every state it passes through its free lists
describe the bitmap.
-/

namespace Novachains.Dms

open Lib

inductive SpaceOp
  | reserve (numPages : ℕ)
  | release (start : ℤ) (numPages : ℕ)
  | deposit (alloc : Bool)

namespace SpaceOp

/-- What the callers keep to: at least one page is reserved, and only the next, free segment
deposited. -/
def Allowed (g : Layout) (m : SMEMgr) : SpaceOp → Prop
  | reserve numPages => 1 ≤ numPages
  | release _ _ => True
  | deposit _ => SMEMgr.Depositable g m

def run (g : Layout) (m : SMEMgr) : SpaceOp → SMEMgr
  | reserve numPages => (m.reservePages numPages).2
  | release start numPages => (m.releasePages g start numPages).2
  | deposit alloc => (m.depositASegment g (m.segments.length * g.segmentPages : ℕ) alloc).2

end SpaceOp

def spaceSystem (g : Layout) : System SMEMgr where
  init m := ∃ sme q alloc, q * g.segmentPages ≤ maxPg ∧
    SMEMgr.init g sme (q * g.segmentPages) alloc = .ok m
  step m m' := ∃ op : SpaceOp, op.Allowed g m ∧ m' = op.run g m

namespace SMEMgr

theorem Inv.run {g : Layout} {m : SMEMgr} (h : m.Inv g) {op : SpaceOp} (hop : op.Allowed g m) :
    (op.run g m).Inv g := by
  cases op with
  | reserve n =>
    rcases reservePages_spec h hop with ⟨page, m', heq, hinv, -⟩ | ⟨fp, heq, -⟩
    · rw [SpaceOp.run, heq]; exact hinv
    · rw [SpaceOp.run, heq]; exact h.setFreePos fp
  | release start n =>
    rcases releasePages_spec h start n with ⟨-, m', heq, hinv, -⟩ | ⟨-, heq⟩
    · rw [SpaceOp.run, heq]; exact hinv
    · rw [SpaceOp.run, heq]; exact h
  | deposit alloc =>
    rcases depositASegment_spec h hop alloc with ⟨-, m', heq, hinv, -⟩ | ⟨-, heq⟩
    · rw [SpaceOp.run, heq]; exact hinv
    · rw [SpaceOp.run, heq]; exact h

theorem inv_invariant (g : Layout) : (spaceSystem g).Invariant (Inv g) where
  init := by
    rintro m ⟨sme, q, alloc, hq, hinit⟩
    rcases init_spec g sme q alloc hq with ⟨m', heq, hinv, -⟩ | ⟨heq, -⟩
    · rw [hinit] at heq
      cases heq
      exact hinv
    · rw [hinit] at heq
      simp at heq
  step := by
    rintro m _ h ⟨op, hop, rfl⟩
    exact h.run hop

/-- The lists of packed nodes describe the bitmap, and the counters the lists. -/
structure Represents (g : Layout) (m : SMEMgr) : Prop where
  /-- Strictly ascending starts, with at least one page between two nodes. -/
  ascending : ∀ sp ∈ m.segments, sp.freeSpaceList.Pairwise fun a b =>
    nodeGetStart a < nodeGetStart b ∧ nodeGetStart a + nodeGetSize a < nodeGetStart b
  /-- The pages of the nodes are the free pages of the segment. -/
  union : ∀ k sp, m.segments[k]? = some sp → ∀ p,
    (∃ node ∈ sp.freeSpaceList, sp.startExtent + nodeGetStart node ≤ p ∧
      p < sp.startExtent + nodeGetStart node + nodeGetSize node) ↔
    k * g.segmentPages ≤ p ∧ p < (k + 1) * g.segmentPages ∧ m.sme.Free p
  totalFree_eq : ∀ sp ∈ m.segments, sp.totalFree = (sp.freeSpaceList.map nodeGetSize).sum
  maxNode_eq : ∀ sp ∈ m.segments, sp.maxNode = (sp.freeSpaceList.map nodeGetSize).foldr max 0
  mgr_totalFree_eq : m.totalFree = (m.segments.map SegmentSpace.totalFree).sum

theorem Inv.represents {g : Layout} {m : SMEMgr} (h : m.Inv g) : m.Represents g := by
  have hseg : ∀ sp ∈ m.segments, sp.Wf := by
    intro sp hsp
    obtain ⟨k, hk⟩ := List.getElem?_of_mem hsp
    exact (h.segment k sp hk).wf
  refine ⟨?_, ?_, ?_, ?_, h.totalFree_eq⟩
  · intro sp hsp
    refine List.Pairwise.imp ?_ (List.pairwise_map.mp (hseg sp hsp).canonical.gaps)
    intro a b hab
    rw [Run.stop_eq, nodeRun_start, nodeRun_size, nodeRun_start] at hab
    omega
  · intro k sp hk p
    have hok := h.segment k sp hk
    have hstart := hok.startExtent_eq
    have hsize := hok.totalSize_eq
    have hcov : (∃ node ∈ sp.freeSpaceList, sp.startExtent + nodeGetStart node ≤ p ∧
        p < sp.startExtent + nodeGetStart node + nodeGetSize node) ↔
        sp.startExtent ≤ p ∧ Covers sp.runs (p - sp.startExtent) := by
      constructor
      · rintro ⟨node, hn, h1, h2⟩
        exact ⟨by omega, nodeRun node, List.mem_map_of_mem hn, by rw [nodeRun_start]; omega,
          by rw [nodeRun_start, nodeRun_size]; omega⟩
      rintro ⟨h1, r, hr, h2, h3⟩
      obtain ⟨node, hn, rfl⟩ := List.mem_map.mp hr
      rw [nodeRun_start] at h2 h3
      rw [nodeRun_size] at h3
      exact ⟨node, hn, by omega, by omega⟩
    rw [hcov, Nat.succ_mul]
    constructor
    · rintro ⟨h1, hc⟩
      have hlt := hok.wf.lt_of_covers hc
      have hf := (hok.agrees _ hlt).mpr hc
      rw [Nat.add_sub_cancel' h1] at hf
      exact ⟨by omega, by omega, hf⟩
    · rintro ⟨h1, h2, hf⟩
      refine ⟨by omega, (hok.agrees _ (by omega)).mp ?_⟩
      rw [Nat.add_sub_cancel' (by omega)]
      exact hf
  · intro sp hsp
    rw [(hseg sp hsp).totalFree_eq, total, SegmentSpace.runs, List.map_map]
    rfl
  · intro sp hsp
    rw [(hseg sp hsp).maxNode_eq, largest_eq_foldr, SegmentSpace.runs, List.map_map]
    rfl

/-- **The free lists describe the bitmap in every run.**  A reservation takes free pages of one
segment and no other bit; a release fails exactly when the pages do not lie in one segment or one is
free, and then nothing changes. -/
theorem space_represented (g : Layout) {m : SMEMgr} (hm : (spaceSystem g).Reachable m) :
    m.Represents g ∧
    (∀ n page m', 1 ≤ n → m.reservePages n = (.ok (some page), m') →
      (∃ k < m.segmentNum, k * g.segmentPages ≤ page ∧ page + n ≤ (k + 1) * g.segmentPages) ∧
      (∀ p, page ≤ p → p < page + n → m.sme.Free p ∧ ¬ m'.sme.Free p) ∧
      ∀ p, ¬ (page ≤ p ∧ p < page + n) → (m'.sme.Free p ↔ m.sme.Free p)) ∧
    ∀ start n rc m', m.releasePages g start n = (rc, m') →
      (rc ≠ .ok ↔ ¬ InRange g m start n ∨ TouchesFree m start n) ∧ (rc ≠ .ok → m' = m) := by
  have h := (inv_invariant g).reachable hm
  refine ⟨h.represents, ?_, ?_⟩
  · intro n page m' hn hres
    rcases reservePages_spec h hn with ⟨page', m'', heq, -, ht⟩ | ⟨fp, heq, -⟩
    · rw [hres] at heq
      cases heq
      obtain ⟨k, hk, h1, h2⟩ := ht.segment
      refine ⟨⟨k, hk, h1, by rw [Nat.succ_mul]; exact h2⟩, ?_, ?_⟩
      · intro p hlo hhi
        refine ⟨ht.free p hlo hhi, ?_⟩
        rw [ht.sme_eq, SME.free_setRange]
        exact fun hf => hf.2 ⟨hlo, hhi⟩
      · intro p hp
        rw [ht.sme_eq, SME.free_setRange, and_iff_left hp]
    · rw [hres] at heq
      simp at heq
  · intro start n rc m' hrel
    rcases releasePages_spec h start n with ⟨⟨hin, hnf⟩, m'', heq, -⟩ | ⟨hno, heq⟩
    · rw [hrel] at heq
      cases heq
      simp [hin, hnf]
    rw [hrel] at heq
    cases heq
    refine ⟨iff_of_true (by decide) ?_, fun _ => rfl⟩
    rwa [not_and_or, not_not] at hno

/-- A unit of one segment of four pages, three of which have been reserved. -/
theorem space_represented_four_pages :
    SMEMgr.Represents ⟨2, by decide⟩
      { sme := SME.empty.setRange 0 3, totalFree := 1, freePos := 0,
        segments := [⟨[nodeSet 3 1], 1, 0, 4, 1⟩] } := by
  have h0 : (spaceSystem ⟨2, by decide⟩).Reachable
      { sme := SME.empty, totalFree := 4, freePos := 0,
        segments := [⟨[nodeSet 0 4], 4, 0, 4, 4⟩] } :=
    .init ⟨SME.empty, 1, fun _ => true, by decide, rfl⟩
  exact (space_represented _ (.step h0 ⟨.reserve 3, by simp [SpaceOp.Allowed], rfl⟩)).1

end SMEMgr

end Novachains.Dms
