import Novachains.Dms.SMEMgr

/-!
# Loading the space manager from the bitmap

`_dmsSMEMgr::init` walks over the bits of all pages once, opens a segment space at
the first page of each segment, and releases every run of free pages into it.
-/

namespace Novachains.Dms

open Lib

namespace SMEMgr

/-- The closed segments, the one being filled, the manager's count and the run of free pages being
read. -/
structure InitState where
  closed : List SegmentSpace
  newspace : Option SegmentSpace
  cells : MgrCells
  inUse : Bool
  releaseBegin : ℕ

namespace InitState

def start (sme : SME) : InitState where
  closed := []
  newspace := none
  cells := { sme := sme, totalFree := 0, freePos := 0 }
  inUse := false
  releaseBegin := 0

/-- Release the run of free pages that ends before page `i`. -/
def releaseRun (st : InitState) (i : ℕ) : Except Rc InitState :=
  match st.newspace with
  | none => .ok st
  | some sp =>
    let (rc, sp, c) := sp.releasePages st.cells st.releaseBegin (i - st.releaseBegin) false
    if rc = .ok then
      .ok { st with
        newspace := some sp
        cells := { c with totalFree := u32 (c.totalFree + (i - st.releaseBegin)) } }
    else .error rc

def openSpace (st : InitState) (g : Layout) (i : ℕ) (alloc : Bool) : Except Rc InitState :=
  match if !st.inUse then st.releaseRun i else .ok st with
  | .error rc => .error rc
  | .ok st =>
    if !alloc then .error .oom
    else .ok { st with
      closed := st.closed ++ st.newspace.toList
      newspace := some (SegmentSpace.new i g.segmentPages)
      inUse := false
      releaseBegin := i }

def readBit (st : InitState) (i : ℕ) : Except Rc InitState :=
  if st.cells.sme.getBitMask i && !st.inUse then
    match st.releaseRun i with
    | .error rc => .error rc
    | .ok st => .ok { st with inUse := true }
  else if !st.cells.sme.getBitMask i && st.inUse then
    .ok { st with inUse := false, releaseBegin := i }
  else .ok st

def step (st : InitState) (g : Layout) (i : ℕ) (alloc : Bool) : Except Rc InitState :=
  match if i &&& (2 ^ g.segmentPagesSquare - 1) = 0 then st.openSpace g i alloc else .ok st with
  | .error rc => .error rc
  | .ok st => st.readBit i

/-- The loop over the `n` pages from `i` on; `alloc i` says whether the space of a segment can be
had. -/
def loop (g : Layout) (alloc : ℕ → Bool) : ℕ → ℕ → InitState → Except Rc InitState
  | 0, _, st => .ok st
  | n + 1, i, st =>
    match st.step g i (alloc i) with
    | .error rc => .error rc
    | .ok st => loop g alloc n (i + 1) st

end InitState

/-- `_dmsSMEMgr::init` on a newly constructed manager. -/
def init (g : Layout) (sme : SME) (pageNum : ℕ) (alloc : ℕ → Bool) : Except Rc SMEMgr :=
  match InitState.loop g alloc pageNum 0 (InitState.start sme) with
  | .error rc => .error rc
  | .ok st =>
    match if 0 < pageNum ∧ sme.Free (pageNum - 1) then st.releaseRun pageNum else .ok st with
    | .error rc => .error rc
    | .ok st => .ok { st.cells with segments := st.closed ++ st.newspace.toList }

section Init
variable {g : Layout} {sme : SME}

namespace InitState

/-- Free pages below the frontier are in the free list; those from it on are the run being read. -/
def frontier (st : InitState) (i : ℕ) : ℕ := if st.inUse then i else st.releaseBegin

/-- The state before page `i` is read, with `sp` the segment being filled. -/
structure Reading (g : Layout) (sme : SME) (i : ℕ) (st : InitState) (sp : SegmentSpace) :
    Prop where
  newspace_eq : st.newspace = some sp
  sme_eq : st.cells.sme = sme
  freePos_eq : st.cells.freePos = 0
  closed : ∀ k s, st.closed[k]? = some s → SegmentOk g sme k s
  wf : sp.Wf
  startExtent_eq : sp.startExtent = st.closed.length * g.segmentPages
  totalSize_eq : sp.totalSize = g.segmentPages
  covers_iff : ∀ x < g.segmentPages, Covers sp.runs x ↔
    sme.Free (sp.startExtent + x) ∧ sp.startExtent + x < st.frontier i
  frontier_ge : sp.startExtent ≤ st.frontier i
  frontier_le : st.frontier i ≤ i
  run_free : ∀ p, st.frontier i ≤ p → p < i → sme.Free p
  page_le : i ≤ sp.startExtent + g.segmentPages
  count_eq : st.cells.totalFree = (st.closed.map SegmentSpace.totalFree).sum + sp.totalFree
  count_le : st.cells.totalFree ≤ st.frontier i

variable {i : ℕ} {st : InitState} {sp : SegmentSpace}

section
variable (h : Reading g sme i st sp)
include h

theorem Reading.releaseRun (hi : i ≤ maxPg) (hu : st.inUse = false) :
    ∃ st' sp', st.releaseRun i = .ok st' ∧ st'.closed = st.closed ∧
      sp'.startExtent = sp.startExtent ∧ Reading g sme i { st' with inUse := true } sp' := by
  have hfr : st.frontier i = st.releaseBegin := by simp [frontier, hu]
  obtain ⟨_, hsme, hfp, hcl, hwf, hstart, hsize, hcov, hge, hle, hrun, hpage, hcnt, hcle⟩ := h
  rw [hfr] at hge hle hrun hcle hcov
  have hrel : sp.Releasable st.releaseBegin (i - st.releaseBegin) := by
    refine ⟨by omega, by omega, ?_⟩
    intro x h1 _ hx
    have hlt := hwf.lt_of_covers hx
    have := ((hcov x (by omega)).mp hx).2
    omega
  rcases SegmentSpace.releasePages_spec hwf st.cells st.releaseBegin (i - st.releaseBegin) false
    with ⟨-, sp', hwf', hr, heq⟩ | ⟨hno, -⟩
  · have hmax : maxPg < 2 ^ 31 := by decide
    have htf := hr.totalFree_eq
    refine ⟨{ st with
        newspace := some sp'
        cells := { st.cells with totalFree := st.cells.totalFree + (i - st.releaseBegin) } },
      sp', ?_, rfl, hr.startExtent_eq, ?_⟩
    · simp only [InitState.releaseRun, *, if_true, SegmentSpace.releaseCells, Bool.false_eq_true,
        if_false]
      rw [u32_of_lt (by omega)]
    refine ⟨rfl, hsme, hfp, hcl, hwf', hr.startExtent_eq.trans hstart,
      hr.totalSize_eq.trans hsize, ?_, ?_, le_rfl, ?_, ?_, ?_, ?_⟩
    · intro x hx
      rw [hr.covers_iff, hcov x hx, hr.startExtent_eq, Int.toNat_natCast]
      change _ ↔ _ ∧ _ < i
      constructor
      · rintro (⟨hf, hlt⟩ | ⟨h1, h2⟩)
        · exact ⟨hf, by omega⟩
        · exact ⟨hrun _ h1 (by omega), by omega⟩
      rintro ⟨hf, hlt⟩
      by_cases hb : sp.startExtent + x < st.releaseBegin
      · exact Or.inl ⟨hf, hb⟩
      · exact Or.inr (by omega)
    · change sp'.startExtent ≤ i
      rw [hr.startExtent_eq]
      omega
    · intro p h1 h2
      change i ≤ p at h1
      omega
    · rw [hr.startExtent_eq]
      exact hpage
    · change st.cells.totalFree + _ = (st.closed.map SegmentSpace.totalFree).sum + sp'.totalFree
      omega
    · change st.cells.totalFree + _ ≤ i
      omega
  · exact absurd hrel hno

theorem Reading.used (hu : st.inUse = true)
    (hi : i < sp.startExtent + g.segmentPages) (hbit : ¬ sme.Free i) :
    Reading g sme (i + 1) st sp := by
  have hfr : ∀ j, st.frontier j = j := by simp [frontier, hu]
  have hge := h.frontier_ge
  have hcle := h.count_le
  rw [hfr] at hge hcle
  refine ⟨h.newspace_eq, h.sme_eq, h.freePos_eq, h.closed, h.wf, h.startExtent_eq,
    h.totalSize_eq, ?_, ?_, ?_, ?_, hi, h.count_eq, ?_⟩
  · intro x hx
    rw [h.covers_iff x hx, hfr, hfr]
    apply and_congr_right
    intro hf
    have : sp.startExtent + x ≠ i := by intro he; exact hbit (he ▸ hf)
    omega
  · rw [hfr]; omega
  · rw [hfr]
  · intro p h1 h2
    rw [hfr] at h1
    omega
  · rw [hfr]; omega

theorem Reading.unused {b : ℕ} (hb : b = st.frontier i)
    (hi : i < sp.startExtent + g.segmentPages) (hbit : sme.Free i) :
    Reading g sme (i + 1) { st with inUse := false, releaseBegin := b } sp := by
  subst hb
  have hle := h.frontier_le
  refine ⟨h.newspace_eq, h.sme_eq, h.freePos_eq, h.closed, h.wf, h.startExtent_eq,
    h.totalSize_eq, h.covers_iff, h.frontier_ge, ?_, ?_, hi, h.count_eq, h.count_le⟩
  · change st.frontier i ≤ i + 1
    omega
  intro p h1 h2
  by_cases hp : p = i
  · exact hp ▸ hbit
  · exact h.run_free p h1 (by omega)

theorem Reading.readBit (hm : i ≤ maxPg)
    (hi : i < sp.startExtent + g.segmentPages) :
    ∃ st' sp', st.readBit i = .ok st' ∧ Reading g sme (i + 1) st' sp' ∧
      sp'.startExtent = sp.startExtent ∧ (st'.inUse = true ↔ ¬ sme.Free i) := by
  have hsme := h.sme_eq
  by_cases hbit : sme.Free i
  · have hget : st.cells.sme.getBitMask i = false := by rw [hsme]; exact hbit
    cases hu : st.inUse with
    | true =>
      refine ⟨{ st with inUse := false, releaseBegin := i }, sp, ?_,
        h.unused (by simp [frontier, hu]) hi hbit, rfl, by simp [hbit]⟩
      simp [InitState.readBit, hget, hu]
    | false =>
      refine ⟨st, sp, by simp [InitState.readBit, hget, hu], ?_, rfl, by simp [hbit, hu]⟩
      have hnext := h.unused (b := st.releaseBegin) (by simp [frontier, hu]) hi hbit
      rwa [← hu] at hnext
  · have hget : st.cells.sme.getBitMask i = true := by
      rw [hsme]; simpa [SME.Free] using hbit
    cases hu : st.inUse with
    | true =>
      exact ⟨st, sp, by simp [InitState.readBit, hget, hu], h.used hu hi hbit, rfl,
        by simp [hbit, hu]⟩
    | false =>
      obtain ⟨st', sp', hrel, -, hs, hread⟩ := h.releaseRun hm hu
      refine ⟨{ st' with inUse := true }, sp', by simp [InitState.readBit, hget, hu, hrel],
        hread.used rfl (by rw [hs]; exact hi) hbit, hs, by simp [hbit]⟩

theorem Reading.segmentOk (hu : st.inUse = true)
    (hi : i = sp.startExtent + g.segmentPages) : SegmentOk g sme st.closed.length sp := by
  refine ⟨h.wf, ?_, h.startExtent_eq, h.totalSize_eq⟩
  intro x hx
  have hfr : st.frontier i = i := by simp [frontier, hu]
  rw [h.totalSize_eq] at hx
  rw [h.covers_iff x hx, hfr, and_iff_left]
  omega

theorem Reading.close (hi : i ≤ maxPg) :
    ∃ st' sp', (if !st.inUse then st.releaseRun i else .ok st) = .ok st' ∧
      st'.closed = st.closed ∧ sp'.startExtent = sp.startExtent ∧
      Reading g sme i { st' with inUse := true } sp' := by
  cases hu : st.inUse with
  | true =>
    refine ⟨st, sp, rfl, rfl, rfl, ?_⟩
    rw [← hu]
    exact h
  | false => exact h.releaseRun hi hu

end

theorem reading_openSpace {l : List SegmentSpace} {c : MgrCells}
    (hl : ∀ k s, l[k]? = some s → SegmentOk g sme k s) (hi : i = l.length * g.segmentPages)
    (hsme : c.sme = sme) (hfp : c.freePos = 0)
    (hcnt : c.totalFree = (l.map SegmentSpace.totalFree).sum) (hcle : c.totalFree ≤ i) :
    Reading g sme i
      { closed := l, newspace := some (SegmentSpace.new i g.segmentPages), cells := c,
        inUse := false, releaseBegin := i } (SegmentSpace.new i g.segmentPages) := by
  have hP := g.segmentPages_le
  have hsize : (SegmentSpace.new i g.segmentPages).totalSize = g.segmentPages :=
    u16_of_lt (by omega)
  refine ⟨rfl, hsme, hfp, hl, SegmentSpace.wf_new _ _ hP, hi, hsize, ?_, le_rfl, le_rfl, ?_,
    Nat.le_add_right _ _, hcnt, hcle⟩
  · intro x _
    simp only [SegmentSpace.new, SegmentSpace.runs, List.map_nil, not_covers_nil, false_iff]
    rintro ⟨-, hlt⟩
    change i + x < i at hlt
    omega
  · intro p h1 h2
    change i ≤ p at h1
    omega

/-- Before page `i` is read: nothing has happened, or page `i - 1` belongs to the segment being
filled. -/
inductive Loaded (g : Layout) (sme : SME) : ℕ → InitState → Prop
  | start : Loaded g sme 0 (start sme)
  | reading {i : ℕ} {st : InitState} {sp : SegmentSpace} (h : Reading g sme (i + 1) st sp)
      (hlo : sp.startExtent ≤ i) (hu : st.inUse = true ↔ ¬ sme.Free i) : Loaded g sme (i + 1) st

theorem Loaded.step (h : Loaded g sme i st) (hi : i ≤ maxPg) (alloc : Bool) :
    (∃ st', st.step g i alloc = .ok st' ∧ Loaded g sme (i + 1) st') ∨
    (st.step g i alloc = .error .oom ∧ alloc = false) := by
  have hmod : i &&& (2 ^ g.segmentPagesSquare - 1) = i % g.segmentPages :=
    Nat.and_two_pow_sub_one_eq_mod i _
  have hP := g.segmentPages_pos
  -- Once the page's segment is being read its bit is read into it.
  have hread : ∀ (st : InitState) (sp : SegmentSpace), Reading g sme i st sp →
      sp.startExtent ≤ i → i < sp.startExtent + g.segmentPages →
      ∃ st', st.readBit i = .ok st' ∧ Loaded g sme (i + 1) st' := by
    intro st sp hr hlo hhi
    obtain ⟨st', sp', heq, hr', hs, hu⟩ := hr.readBit hi hhi
    exact ⟨st', heq, .reading hr' (by omega) hu⟩
  rw [InitState.step, hmod]
  cases h with
  | start =>
    rw [Nat.zero_mod, if_pos rfl]
    cases alloc with
    | false => exact Or.inr ⟨rfl, rfl⟩
    | true =>
      obtain ⟨st', heq, hl⟩ := hread _ _ (reading_openSpace (l := [])
        (c := (InitState.start sme).cells) (by simp) (by simp) rfl rfl rfl (Nat.zero_le _))
        le_rfl (Nat.lt_add_of_pos_right hP)
      exact Or.inl ⟨st', heq, hl⟩
  | @reading i st sp hr hlo hu =>
    have hstart := hr.startExtent_eq
    have hpage := hr.page_le
    by_cases hm : (i + 1) % g.segmentPages = 0
    · -- The last segment is complete.
      have hend : i + 1 = sp.startExtent + g.segmentPages := by
        obtain ⟨q, hq⟩ := Nat.dvd_of_mod_eq_zero hm
        rw [hstart] at hlo hpage ⊢
        rw [mul_comm] at hq
        rw [hq, ← Nat.succ_mul] at hpage ⊢
        have h1 := Nat.le_of_mul_le_mul_right hpage hP
        have h2 : st.closed.length < q := by
          apply Nat.lt_of_mul_lt_mul_right (a := g.segmentPages)
          omega
        congr 1
        omega
      obtain ⟨st1, sp1, hcl, hclosed, hs1, hr1⟩ := hr.close hi
      rw [if_pos hm, openSpace, hcl]
      have hok := hr1.segmentOk rfl (by rw [hs1]; exact hend)
      cases alloc with
      | false => exact Or.inr ⟨rfl, rfl⟩
      | true =>
        have hns : st1.newspace = some sp1 := hr1.newspace_eq
        have hopen := reading_openSpace (l := st1.closed ++ [sp1]) (c := st1.cells)
          (i := i + 1) (forall_getElem?_concat hr1.closed hok)
          (by rw [hend, hstart, hclosed, List.length_append, List.length_singleton, Nat.succ_mul])
          hr1.sme_eq hr1.freePos_eq (by simpa using hr1.count_eq) hr1.count_le
        obtain ⟨st', heq, hl⟩ := hread _ _ hopen le_rfl (Nat.lt_add_of_pos_right hP)
        refine Or.inl ⟨st', ?_, hl⟩
        simp only [Bool.not_true, Bool.false_eq_true, if_false, hns, Option.toList_some]
        exact heq
    · rw [if_neg hm]
      refine Or.inl (hread st sp hr (by omega) ?_)
      rcases lt_or_eq_of_le hpage with hlt | heq
      · exact hlt
      · rw [heq, hstart, ← Nat.succ_mul, Nat.mul_mod_left] at hm
        exact absurd rfl hm

theorem Loaded.loop {n : ℕ} (alloc : ℕ → Bool) (h : Loaded g sme i st) (hi : i + n ≤ maxPg) :
    (∃ st', loop g alloc n i st = .ok st' ∧ Loaded g sme (i + n) st') ∨
    (loop g alloc n i st = .error .oom ∧ ∃ j, alloc j = false) := by
  induction n generalizing i st with
  | zero => exact Or.inl ⟨st, rfl, h⟩
  | succ n ih =>
    rcases h.step (by omega) (alloc i) with ⟨st', heq, h'⟩ | ⟨heq, hno⟩
    · rcases ih h' (by omega) with ⟨st'', heq', h''⟩ | ⟨heq', hno⟩
      · rw [Nat.succ_add_eq_add_succ] at h''
        exact Or.inl ⟨st'', by rw [InitState.loop, heq]; exact heq', h''⟩
      · exact Or.inr ⟨by rw [InitState.loop, heq]; exact heq', hno⟩
    · exact Or.inr ⟨by rw [InitState.loop, heq], i, hno⟩

end InitState

theorem init_of_alloc (g : Layout) (sme : SME) {n : ℕ} (hn : n ≤ maxPg) :
    ∃ m, init g sme n (fun _ => true) = .ok m ∧ m.sme = sme := by
  have hst : InitState.Loaded g sme 0 (InitState.start sme) := .start
  rcases hst.loop (fun _ => true) (by omega : 0 + n ≤ maxPg) with ⟨st, hloop, hld⟩ | ⟨-, j, hno⟩
  · rw [init, hloop]
    rw [zero_add] at hld
    cases hld with
    | start => exact ⟨_, rfl, rfl⟩
    | @reading i _ sp hr hlo hu =>
      by_cases hf : sme.Free i
      · have hu' : st.inUse = false := by simpa [hf] using hu
        obtain ⟨st1, sp1, hrel, -, -, hr1⟩ := hr.releaseRun hn hu'
        have hcond : 0 < i + 1 ∧ sme.Free (i + 1 - 1) := ⟨Nat.succ_pos i, hf⟩
        simp only [if_pos hcond, hrel]
        exact ⟨_, rfl, hr1.sme_eq⟩
      · have hcond : ¬ (0 < i + 1 ∧ sme.Free (i + 1 - 1)) := fun h => hf h.2
        simp only [if_neg hcond]
        exact ⟨_, rfl, hr.sme_eq⟩
  · simp at hno

theorem init_spec (g : Layout) (sme : SME) (q : ℕ) (alloc : ℕ → Bool)
    (hq : q * g.segmentPages ≤ maxPg) :
    (∃ m, init g sme (q * g.segmentPages) alloc = .ok m ∧ m.Inv g ∧ m.sme = sme ∧
      m.freePos = 0 ∧ m.segments.length = q) ∨
    (init g sme (q * g.segmentPages) alloc = .error .oom ∧ ∃ j, alloc j = false) := by
  have hP := g.segmentPages_pos
  have hst : InitState.Loaded g sme 0 (InitState.start sme) := .start
  rcases hst.loop (n := q * g.segmentPages) alloc (by omega) with ⟨st, hloop, hld⟩ | ⟨hloop, hno⟩
  · left
    rw [init, hloop]
    rw [zero_add] at hld
    generalize hn : q * g.segmentPages = n at *
    cases hld with
    | start =>
      have hq0 : q = 0 := by
        rcases eq_zero_or_pos q with h | h
        · exact h
        · have := mul_pos h hP
          omega
      exact ⟨_, rfl, ⟨by simp [InitState.start], rfl, by simp [InitState.start]⟩, rfl, rfl,
        hq0.symm⟩
    | @reading i _ sp hr hlo hu =>
      have hstart := hr.startExtent_eq
      have hpage := hr.page_le
      -- The unit ends with a segment, so the last one is complete.
      have hlen : st.closed.length + 1 = q := by
        rw [hstart] at hlo hpage
        rw [← hn, ← Nat.succ_mul] at hpage
        have h1 := Nat.le_of_mul_le_mul_right hpage hP
        have h2 : st.closed.length < q := by
          apply Nat.lt_of_mul_lt_mul_right (a := g.segmentPages)
          omega
        omega
      have hend : i + 1 = sp.startExtent + g.segmentPages := by
        rw [hstart, ← hn, ← hlen, Nat.succ_mul]
      have hcond : (if 0 < i + 1 ∧ sme.Free (i + 1 - 1) then st.releaseRun (i + 1)
          else .ok st) = (if !st.inUse then st.releaseRun (i + 1) else .ok st) := by
        by_cases hf : sme.Free i
        · have hu' : st.inUse = false := by simpa [hf] using hu
          simp [hf, hu']
        · simp [hf, hu.mpr hf]
      obtain ⟨st1, sp1, hcl, hclosed, hs1, hr1⟩ := hr.close hq
      have hok := hr1.segmentOk rfl (by rw [hs1]; exact hend)
      have hns : st1.newspace = some sp1 := hr1.newspace_eq
      simp only [hcond, hcl, hns, Option.toList_some]
      refine ⟨_, rfl, ⟨?_, ?_, ?_⟩, hr1.sme_eq, hr1.freePos_eq, ?_⟩
      · have hsme : st1.cells.sme = sme := hr1.sme_eq
        rw [hsme]
        exact forall_getElem?_concat hr1.closed hok
      · simpa using hr1.count_eq
      · simpa [hclosed, hlen, hn] using hq
      · simpa [hclosed] using hlen
  · exact Or.inr ⟨by rw [init, hloop], hno⟩

end Init

end SMEMgr

end Novachains.Dms
