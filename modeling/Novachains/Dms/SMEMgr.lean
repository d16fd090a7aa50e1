import Novachains.Lib.Lists
import Novachains.Dms.SegmentSpace
import Mathlib.Tactic.Linarith
import Mathlib.Tactic.Positivity

/-!
# The space manager

`_dmsSMEMgr` keeps one `_dmsSegmentSpace` for each segment of the storage unit.
A reservation walks the segments from the free-position hint on; a release goes to
the segment that owns the pages and then lowers the hint to it.
-/

namespace Novachains.Dms

open Lib List

/-- A segment has `2 ^ segmentPagesSquare` pages, few enough for the 16-bit fields of
a segment space. -/
structure Layout where
  segmentPagesSquare : ℕ
  square_le : segmentPagesSquare ≤ 15

namespace Layout

def segmentPages (g : Layout) : ℕ := 2 ^ g.segmentPagesSquare

theorem segmentPages_pos (g : Layout) : 0 < g.segmentPages := Nat.two_pow_pos _

theorem segmentPages_le (g : Layout) : g.segmentPages ≤ 2 ^ 15 :=
  Nat.pow_le_pow_right (by omega) g.square_le

theorem page_not_mem (g : Layout) {k j i : ℕ} (hkj : k ≠ j) (hi : i < g.segmentPages) :
    ¬ (j * g.segmentPages ≤ k * g.segmentPages + i ∧
      k * g.segmentPages + i < j * g.segmentPages + g.segmentPages) := by
  rintro ⟨h1, h2⟩
  rcases lt_or_gt_of_ne hkj with h | h
  · have := Nat.mul_le_mul_right g.segmentPages h
    rw [Nat.succ_mul] at this
    omega
  · have := Nat.mul_le_mul_right g.segmentPages h
    rw [Nat.succ_mul] at this
    omega

end Layout

structure SMEMgr extends MgrCells where
  segments : List SegmentSpace

namespace SMEMgr

def segmentNum (m : SMEMgr) : ℕ := m.segments.length

def setSegment (m : SMEMgr) (pos : ℕ) (sp : SegmentSpace) (c : MgrCells) : SMEMgr where
  toMgrCells := c
  segments := m.segments.set pos sp

@[simp] theorem setSegment_segments (m : SMEMgr) (pos : ℕ) (sp : SegmentSpace) (c : MgrCells) :
    (m.setSegment pos sp c).segments = m.segments.set pos sp := rfl
@[simp] theorem setSegment_toMgrCells (m : SMEMgr) (pos : ℕ) (sp : SegmentSpace) (c : MgrCells) :
    (m.setSegment pos sp c).toMgrCells = c := rfl

/-- The work of `reservePages` on the segment at `pos`. -/
def reserveAt (m : SMEMgr) (numPages pos : ℕ) : Except Rc ℕ × SMEMgr :=
  match m.segments[pos]? with
  | none => (.error .sys, m)
  | some sp =>
    let (r, sp, c) := sp.reservePages m.toMgrCells numPages pos
    (r, m.setSegment pos sp c)

/-- The loop of `reservePages`, for the segments from `pos` on. -/
def reserveLoop (numPages : ℕ) : ℕ → SMEMgr → ℕ → Except Rc (Option ℕ) × SMEMgr
  | 0, m, _ => (.ok none, m)
  | rest + 1, m, pos =>
    match m.reserveAt numPages pos with
    | (.ok foundPage, m) => (.ok (some foundPage), m)
    | (.error .dmsNoSpc, m) => reserveLoop numPages rest m (pos + 1)
    | (.error rc, m) => (.error rc, m)

/-- `_dmsSMEMgr::reservePages`; `none` is `DMS_INVALID_EXTENT`. -/
def reservePages (m : SMEMgr) (numPages : ℕ) : Except Rc (Option ℕ) × SMEMgr :=
  reserveLoop numPages (m.segments.length - m.freePos) m m.freePos

/-- The segment `releasePages` and `depositASegment` go to, as a `UINT32`. -/
def segmentID (g : Layout) (start : ℤ) : ℕ := (start / 2 ^ g.segmentPagesSquare % 2 ^ 32).toNat

/-- The work of `releasePages` on the segment that owns the pages. -/
def releaseAt (m : SMEMgr) (g : Layout) (start : ℤ) (numPages : ℕ) : Rc × SMEMgr :=
  match m.segments[segmentID g start]? with
  | none => (.sys, m)
  | some sp =>
    let (rc, sp, c) := sp.releasePages m.toMgrCells start numPages true
    (rc, m.setSegment (segmentID g start) sp c)

/-- `_freePos.swapLesserThan( segmentID )`. -/
def swapLesserThan (m : SMEMgr) (segmentID : ℕ) : SMEMgr :=
  if segmentID < m.freePos then { m with freePos := segmentID } else m

/-- The hint is lowered only afterwards. -/
def releasePages (m : SMEMgr) (g : Layout) (start : ℤ) (numPages : ℕ) : Rc × SMEMgr :=
  match m.releaseAt g start numPages with
  | (.ok, m) => (.ok, m.swapLesserThan (segmentID g start))
  | (rc, m) => (rc, m)

/-- `_dmsSMEMgr::depositASegment`; `alloc` says whether the new segment space can be
allocated. -/
def depositASegment (m : SMEMgr) (g : Layout) (start : ℤ) (alloc : Bool) : Rc × SMEMgr :=
  let segmentPages := u16 g.segmentPages
  if segmentID g start ≠ m.segments.length then (.sys, m)
  else if !alloc then (.oom, m)
  else
    let newspace := SegmentSpace.new start.toNat segmentPages
    let (rc, newspace, c) := newspace.releasePages m.toMgrCells start segmentPages false
    let m : SMEMgr := { c with segments := m.segments ++ [newspace] }
    if rc = .ok then (.ok, { m with totalFree := u32 (m.totalFree + segmentPages) })
    else (rc, m)

/-! ## The invariant -/

/-- The `k`-th segment has its place in the unit and describes the bitmap there. -/
structure SegmentOk (g : Layout) (sme : SME) (k : ℕ) (sp : SegmentSpace) : Prop where
  wf : sp.Wf
  agrees : sp.Agrees sme
  startExtent_eq : sp.startExtent = k * g.segmentPages
  totalSize_eq : sp.totalSize = g.segmentPages

/-- Every segment describes its part of the bitmap, and the manager's count is the sum of theirs. -/
structure Inv (g : Layout) (m : SMEMgr) : Prop where
  segment : ∀ k sp, m.segments[k]? = some sp → SegmentOk g m.sme k sp
  totalFree_eq : m.totalFree = (m.segments.map SegmentSpace.totalFree).sum
  pages_le : m.segments.length * g.segmentPages ≤ maxPg

variable {m : SMEMgr}

theorem Inv.totalFree_le {g : Layout} (h : m.Inv g) : m.totalFree ≤ maxPg := by
  rw [h.totalFree_eq]
  refine le_trans (sum_map_le _ fun sp hsp => ?_) h.pages_le
  obtain ⟨k, hk⟩ := getElem?_of_mem hsp
  have hok := h.segment k sp hk
  exact hok.totalSize_eq ▸ hok.wf.totalFree_le

variable {sp : SegmentSpace}

theorem Inv.setSegment {g : Layout} (h : m.Inv g) {k : ℕ} {sp' : SegmentSpace} {c : MgrCells}
    (hk : m.segments[k]? = some sp) (hok : SegmentOk g c.sme k sp')
    (hsme : ∀ p, ¬ (k * g.segmentPages ≤ p ∧ p < k * g.segmentPages + g.segmentPages) →
      (c.sme.Free p ↔ m.sme.Free p))
    (hcount : c.totalFree + sp.totalFree = m.totalFree + sp'.totalFree) :
    (m.setSegment k sp' c).Inv g := by
  have hlen : k < m.segments.length := (List.getElem?_eq_some_iff.mp hk).1
  refine ⟨?_, ?_, by simpa using h.pages_le⟩
  · intro j sq hj
    rw [setSegment_segments, getElem?_set] at hj
    by_cases hkj : k = j
    · subst hkj
      rw [if_pos rfl, if_pos hlen] at hj
      cases hj
      exact hok
    · rw [if_neg hkj] at hj
      have hold := h.segment j sq hj
      refine ⟨hold.wf, ?_, hold.startExtent_eq, hold.totalSize_eq⟩
      intro i hi
      rw [← hold.agrees i hi]
      apply hsme
      rw [hold.startExtent_eq]
      exact g.page_not_mem (Ne.symm hkj) (hold.totalSize_eq ▸ hi)
  · have := sum_map_set SegmentSpace.totalFree (b := sp') hk
    have htot := h.totalFree_eq
    rw [setSegment_segments, setSegment_toMgrCells]
    omega

/-! ## What the operations do -/

theorem setSegment_self {k : ℕ} (hk : m.segments[k]? = some sp) :
    m.segments.set k sp = m.segments := by
  obtain ⟨hlen, rfl⟩ := List.getElem?_eq_some_iff.mp hk
  exact set_getElem_self hlen

/-- The `n` pages from `page` on, all of one segment and all free, have been taken. -/
structure Took (g : Layout) (m : SMEMgr) (n page : ℕ) (m' : SMEMgr) : Prop where
  segment : ∃ k < m.segments.length,
    k * g.segmentPages ≤ page ∧ page + n ≤ k * g.segmentPages + g.segmentPages
  free : ∀ p, page ≤ p → p < page + n → m.sme.Free p
  sme_eq : m'.sme = m.sme.setRange page n
  length_eq : m'.segments.length = m.segments.length

section Reserve
variable {g : Layout} {m : SMEMgr} {n : ℕ}

theorem reserveAt_ok (h : m.Inv g) (h0 : 0 < n) {pos : ℕ} (hsp : m.segments[pos]? = some sp)
    (hn : n ≤ largest sp.runs) :
    ∃ page m', m.reserveAt n pos = (.ok page, m') ∧ m'.Inv g ∧ Took g m n page m' ∧
      m'.freePos = m.freePos := by
  have hok := h.segment pos sp hsp
  obtain ⟨page, sp', c', hres, hwf, hr⟩ :=
    SegmentSpace.reservePages_ok hok.wf m.toMgrCells pos h0 hn
  have hstart := hok.startExtent_eq
  have hsize := hok.totalSize_eq
  have hlo := hr.start_le
  have hhi := hr.stop_le
  refine ⟨page, m.setSegment pos sp' c', by rw [reserveAt, hsp]; simp only [hres], ?_, ?_,
    hr.freePos_eq⟩
  · refine h.setSegment hsp ⟨hwf, ?_, hr.startExtent_eq.trans hstart, hr.totalSize_eq.trans hsize⟩
      ?_ ?_
    · intro i hi
      rw [hr.totalSize_eq] at hi
      rw [hr.sme_eq, SME.free_setRange, hr.startExtent_eq, hok.agrees i hi, hr.covers_iff]
    · intro p hp
      rw [hr.sme_eq, SME.free_setRange, and_iff_left]
      omega
    have hle := h.totalFree_le
    have hge : sp.totalFree ≤ m.totalFree := by
      have := h.totalFree_eq
      have := hr.totalFree_add
      have hmem := le_sum_of_mem (List.mem_map_of_mem (f := SegmentSpace.totalFree)
        (mem_of_getElem? hsp))
      omega
    have hmax : maxPg < 2 ^ 32 := by decide
    have := hr.totalFree_add
    rw [hr.mgrFree_eq, u32]
    omega
  · refine ⟨⟨pos, (List.getElem?_eq_some_iff.mp hsp).1, by omega, by omega⟩, ?_, hr.sme_eq, by simp⟩
    intro p h1 h2
    obtain ⟨i, rfl⟩ : ∃ i, p = sp.startExtent + i := ⟨p - sp.startExtent, by omega⟩
    exact (hok.agrees i (by omega)).mpr (hr.covered i h1 h2)

theorem reserveAt_noSpc (h : m.Inv g) {pos : ℕ} (hsp : m.segments[pos]? = some sp)
    (hn : largest sp.runs < n) : m.reserveAt n pos = (.error .dmsNoSpc,
      { m with freePos := if sp.totalFree = 0 ∧ m.freePos = pos then pos + 1 else m.freePos }) := by
  rw [reserveAt, hsp]
  simp only [SegmentSpace.reservePages_noSpc (h.segment pos sp hsp).wf m.toMgrCells pos hn]
  rw [setSegment, setSegment_self hsp, SegmentSpace.bumpFreePos]
  split <;> simp_all

theorem Inv.setFreePos (h : m.Inv g) (fp : ℕ) : ({ m with freePos := fp } : SMEMgr).Inv g :=
  ⟨h.segment, h.totalFree_eq, h.pages_le⟩

theorem reserveLoop_spec (h0 : 0 < n) (rest : ℕ) (m : SMEMgr) (h : m.Inv g) (pos : ℕ)
    (hrest : m.segments.length - pos = rest) :
    (∃ page m', reserveLoop n rest m pos = (.ok (some page), m') ∧ m'.Inv g ∧
      Took g m n page m') ∨
    (∃ fp, reserveLoop n rest m pos = (.ok none, { m with freePos := fp }) ∧
      ∀ k sp, pos ≤ k → m.segments[k]? = some sp → largest sp.runs < n) := by
  induction rest generalizing m pos with
  | zero =>
    refine Or.inr ⟨m.freePos, rfl, ?_⟩
    intro k sp hk hsp
    have := (List.getElem?_eq_some_iff.mp hsp).1
    omega
  | succ rest ih =>
    obtain ⟨sp, hsp⟩ : ∃ sp, m.segments[pos]? = some sp :=
      ⟨_, getElem?_eq_getElem (by omega)⟩
    by_cases hn : n ≤ largest sp.runs
    · obtain ⟨page, m', hres, hinv, htook, -⟩ := reserveAt_ok h h0 hsp hn
      exact Or.inl ⟨page, m', by rw [reserveLoop, hres], hinv, htook⟩
    rw [reserveLoop, reserveAt_noSpc h hsp (by omega)]
    -- The rest of the walk sees the same segments under another hint.
    generalize hm : (if sp.totalFree = 0 ∧ m.freePos = pos then pos + 1 else m.freePos) = fp
    rcases ih { m with freePos := fp } (h.setFreePos fp) (pos + 1) (by simpa using by omega) with
      ⟨page, m', hres, hinv, ht⟩ | ⟨fp', hres, hall⟩
    · exact Or.inl ⟨page, m', hres, hinv, ht.segment, ht.free, ht.sme_eq, ht.length_eq⟩
    refine Or.inr ⟨fp', hres, ?_⟩
    intro k sq hk hsq
    rcases Nat.eq_or_lt_of_le hk with rfl | hlt
    · obtain rfl : sp = sq := by rw [hsp] at hsq; simpa using hsq
      omega
    · exact hall k sq hlt hsq

theorem reservePages_spec (h : m.Inv g) (h0 : 0 < n) :
    (∃ page m', m.reservePages n = (.ok (some page), m') ∧ m'.Inv g ∧ Took g m n page m') ∨
    (∃ fp, m.reservePages n = (.ok none, { m with freePos := fp }) ∧
      ∀ k sp, m.freePos ≤ k → m.segments[k]? = some sp → largest sp.runs < n) :=
  reserveLoop_spec h0 _ m h _ rfl

theorem freePos_reserveLoop (h0 : 0 < n) (rest : ℕ) (m : SMEMgr) (h : m.Inv g) (pos : ℕ)
    (hrest : m.segments.length - pos = rest) (hfp : m.freePos ≤ m.segments.length) :
    (reserveLoop n rest m pos).2.freePos ≤ m.segments.length := by
  induction rest generalizing m pos with
  | zero => exact hfp
  | succ rest ih =>
    obtain ⟨sp, hsp⟩ : ∃ sp, m.segments[pos]? = some sp :=
      ⟨_, getElem?_eq_getElem (by omega)⟩
    by_cases hn : n ≤ largest sp.runs
    · obtain ⟨page, m', hres, -, -, heq⟩ := reserveAt_ok h h0 hsp hn
      rw [reserveLoop, hres]
      exact heq.trans_le hfp
    rw [reserveLoop, reserveAt_noSpc h hsp (by omega)]
    refine ih _ (h.setFreePos _) (pos + 1) (by simpa using by omega) ?_
    dsimp only
    split <;> omega

end Reserve

section Release
variable {g : Layout} {m : SMEMgr} {start : ℤ} {n : ℕ}

def InRange (g : Layout) (m : SMEMgr) (start : ℤ) (n : ℕ) : Prop :=
  ∃ k < m.segments.length, (k * g.segmentPages : ℕ) ≤ start ∧
    start < (k * g.segmentPages + g.segmentPages : ℕ) ∧
    start + n ≤ (k * g.segmentPages + g.segmentPages : ℕ)

def TouchesFree (m : SMEMgr) (start : ℤ) (n : ℕ) : Prop :=
  ∃ p : ℕ, start ≤ p ∧ p < start + n ∧ m.sme.Free p

theorem segmentID_eq (g : Layout) (start : ℤ) (k : ℕ) (hk : k < 2 ^ 32)
    (hlo : (k * g.segmentPages : ℕ) ≤ start)
    (hhi : start < (k * g.segmentPages + g.segmentPages : ℕ)) : segmentID g start = k := by
  have hpos : (0 : ℤ) < 2 ^ g.segmentPagesSquare := by positivity
  have hcast : ((g.segmentPages : ℕ) : ℤ) = 2 ^ g.segmentPagesSquare := by
    rw [Layout.segmentPages]; push_cast; rfl
  push_cast at hlo hhi
  rw [hcast] at hlo hhi
  have hdiv : start / 2 ^ g.segmentPagesSquare = k := by
    rw [Int.ediv_eq_iff_of_pos hpos]
    constructor <;> linarith
  rw [segmentID, hdiv]
  omega

theorem Inv.length_le (h : m.Inv g) : m.segments.length ≤ maxPg :=
  le_trans (Nat.le_mul_of_pos_right _ g.segmentPages_pos) h.pages_le

theorem releasable_iff (h : m.Inv g) :
    (∃ sp, m.segments[segmentID g start]? = some sp ∧ sp.Releasable start n) ↔
      InRange g m start n ∧ ¬ TouchesFree m start n := by
  have hlen := h.length_le
  have hmax : maxPg < 2 ^ 31 := by decide
  have hP := g.segmentPages_pos
  constructor
  · rintro ⟨sp, hsp, hlo, hhi, hun⟩
    have hok := h.segment _ sp hsp
    have hk := (List.getElem?_eq_some_iff.mp hsp).1
    have hstart := hok.startExtent_eq
    have hsize := hok.totalSize_eq
    -- No pages may be asked for just past the segment: that is the next one.
    have hne : start ≠ (segmentID g start * g.segmentPages + g.segmentPages : ℕ) := by
      intro heq
      have := segmentID_eq g start (segmentID g start + 1) (by omega)
        (by rw [Nat.succ_mul]; omega) (by rw [Nat.succ_mul]; omega)
      omega
    refine ⟨⟨segmentID g start, hk, by omega, by omega, by omega⟩, ?_⟩
    rintro ⟨p, h1, h2, hfree⟩
    obtain ⟨i, rfl⟩ : ∃ i, p = sp.startExtent + i := ⟨p - sp.startExtent, by omega⟩
    exact hun i (by omega) (by omega) ((hok.agrees i (by omega)).mp hfree)
  · rintro ⟨⟨k, hk, hlo, hmid, hhi⟩, hun⟩
    have hid := segmentID_eq g start k (by omega) hlo hmid
    obtain ⟨sp, hsp⟩ : ∃ sp, m.segments[k]? = some sp := ⟨_, getElem?_eq_getElem hk⟩
    have hok := h.segment k sp hsp
    have hstart := hok.startExtent_eq
    have hsize := hok.totalSize_eq
    refine ⟨sp, by rw [hid]; exact hsp, by omega, by omega, ?_⟩
    intro x h1 h2 hx
    exact hun ⟨sp.startExtent + x, by omega, by omega,
      (hok.agrees x (hok.wf.lt_of_covers hx)).mpr hx⟩

theorem releaseAt_spec (h : m.Inv g) (start : ℤ) (n : ℕ) :
    ((InRange g m start n ∧ ¬ TouchesFree m start n) ∧
      ∃ m', m.releaseAt g start n = (.ok, m') ∧ m'.Inv g ∧
        m'.sme = m.sme.freeRange start.toNat n ∧ m'.freePos = m.freePos ∧
        m'.segments.length = m.segments.length ∧ segmentID g start < m.segments.length) ∨
    (¬ (InRange g m start n ∧ ¬ TouchesFree m start n) ∧ m.releaseAt g start n = (.sys, m)) := by
  rw [← releasable_iff h]
  cases hsp : m.segments[segmentID g start]? with
  | none => exact Or.inr ⟨by simp, by rw [releaseAt, hsp]⟩
  | some sp =>
    have hok := h.segment _ sp hsp
    have hstart := hok.startExtent_eq
    have hsize := hok.totalSize_eq
    rcases SegmentSpace.releasePages_spec hok.wf m.toMgrCells start n true with
      ⟨hrel, sp', hwf, hr, heq⟩ | ⟨hrel, heq⟩
    · have hlo := hrel.1
      have hhi := hrel.2.1
      refine Or.inl ⟨⟨sp, rfl, hrel⟩, m.setSegment (segmentID g start) sp'
        (SegmentSpace.releaseCells m.toMgrCells start.toNat n true), ?_, ?_, rfl, rfl, by simp,
        (List.getElem?_eq_some_iff.mp hsp).1⟩
      · rw [releaseAt, hsp]
        simp only [heq]
      refine h.setSegment hsp ⟨hwf, ?_, hr.startExtent_eq.trans hstart,
        hr.totalSize_eq.trans hsize⟩ ?_ ?_
      · intro i hi
        rw [hr.totalSize_eq] at hi
        change (m.sme.freeRange start.toNat n).Free _ ↔ _
        rw [SME.free_freeRange, hr.startExtent_eq, hok.agrees i hi, hr.covers_iff]
      · intro p hp
        change (m.sme.freeRange start.toNat n).Free p ↔ _
        rw [SME.free_freeRange, or_iff_left]
        omega
      · have hle := h.totalFree_le
        have htf := hr.totalFree_eq
        have htsz := hok.wf.totalSize_le
        have hmax : maxPg < 2 ^ 31 := by decide
        change u32 (m.totalFree + n) + _ = _
        rw [u32_of_lt (by omega)]
        omega
    · refine Or.inr ⟨?_, ?_⟩
      · rintro ⟨sq, hsq, hrel'⟩
        cases hsq
        exact hrel hrel'
      · rw [releaseAt, hsp]
        simp only [heq]
        rw [setSegment, setSegment_self hsp]

theorem Inv.swapLesserThan (h : m.Inv g) (k : ℕ) : (m.swapLesserThan k).Inv g := by
  rw [SMEMgr.swapLesserThan]
  split
  · exact h.setFreePos k
  · exact h

theorem releasePages_spec (h : m.Inv g) (start : ℤ) (n : ℕ) :
    ((InRange g m start n ∧ ¬ TouchesFree m start n) ∧
      ∃ m', m.releasePages g start n = (.ok, m') ∧ m'.Inv g ∧
        m'.sme = m.sme.freeRange start.toNat n ∧ m'.segments.length = m.segments.length) ∨
    (¬ (InRange g m start n ∧ ¬ TouchesFree m start n) ∧
      m.releasePages g start n = (.sys, m)) := by
  rcases releaseAt_spec h start n with ⟨hrel, m', heq, hinv, hsme, -, hlen, -⟩ | ⟨hrel, heq⟩
  · refine Or.inl ⟨hrel, m'.swapLesserThan (segmentID g start), by rw [releasePages, heq],
      hinv.swapLesserThan _, ?_, ?_⟩
    · rw [← hsme, SMEMgr.swapLesserThan]; split <;> rfl
    · rw [← hlen, SMEMgr.swapLesserThan]; split <;> rfl
  · exact Or.inr ⟨hrel, by rw [releasePages, heq]⟩

theorem freePos_releasePages (h : m.Inv g) (start : ℤ) (n : ℕ) :
    (m.releasePages g start n).2.freePos ≤ m.freePos := by
  rcases releaseAt_spec h start n with ⟨-, m', heq, -, -, hfp, -⟩ | ⟨-, heq⟩
  · rw [releasePages, heq, ← hfp]
    change (m'.swapLesserThan _).freePos ≤ _
    rw [SMEMgr.swapLesserThan]
    split
    next hlt => exact hlt.le
    next => exact le_rfl
  · rw [releasePages, heq]

end Release

section Deposit
variable {g : Layout} {m : SMEMgr}

/-- The next segment may be deposited: its pages are free and the bitmap has bits for
them. -/
structure Depositable (g : Layout) (m : SMEMgr) : Prop where
  free : ∀ p, m.segments.length * g.segmentPages ≤ p →
    p < m.segments.length * g.segmentPages + g.segmentPages → m.sme.Free p
  pages_le : m.segments.length * g.segmentPages + g.segmentPages ≤ maxPg

theorem Inv.append (h : m.Inv g) (hok : SegmentOk g m.sme m.segments.length sp)
    (hle : m.segments.length * g.segmentPages + g.segmentPages ≤ maxPg) :
    ({ m with segments := m.segments ++ [sp], totalFree := m.totalFree + sp.totalFree } :
      SMEMgr).Inv g := by
  refine ⟨forall_getElem?_concat h.segment hok, ?_, ?_⟩
  · simp [h.totalFree_eq]
  · rw [List.length_append, length_singleton, Nat.succ_mul]
    exact hle

theorem depositASegment_spec (h : m.Inv g) (hd : Depositable g m) (alloc : Bool) :
    (alloc = true ∧ ∃ m', m.depositASegment g (m.segments.length * g.segmentPages : ℕ) alloc =
      (.ok, m') ∧ m'.Inv g ∧ m'.sme = m.sme ∧ m'.freePos = m.freePos ∧
      m'.segments.length = m.segments.length + 1 ∧
      ∀ k < m.segments.length, m'.segments[k]? = m.segments[k]?) ∨
    (alloc = false ∧
      m.depositASegment g (m.segments.length * g.segmentPages : ℕ) alloc = (.oom, m)) := by
  have hlen := h.length_le
  have hmax : maxPg < 2 ^ 31 := by decide
  have hP := g.segmentPages_pos
  have hP' := g.segmentPages_le
  have hid := segmentID_eq g (m.segments.length * g.segmentPages : ℕ) m.segments.length
    (by omega) le_rfl (by omega)
  have hu : u16 g.segmentPages = g.segmentPages := u16_of_lt (by omega)
  cases alloc with
  | false => exact Or.inr ⟨rfl, by rw [depositASegment, if_neg (not_not.mpr hid)]; rfl⟩
  | true =>
    refine Or.inl ⟨rfl, ?_⟩
    generalize hs : m.segments.length * g.segmentPages = s at *
    have hwf := SegmentSpace.wf_new s g.segmentPages hP'
    have hnew : (SegmentSpace.new s g.segmentPages).totalSize = g.segmentPages := hu
    rcases SegmentSpace.releasePages_spec hwf m.toMgrCells s g.segmentPages false with
      ⟨-, sp', hwf', hr, heq⟩ | ⟨hrel, -⟩
    · have hstart : sp'.startExtent = s := hr.startExtent_eq
      have hsize : sp'.totalSize = g.segmentPages := hr.totalSize_eq.trans hnew
      have htf : sp'.totalFree = g.segmentPages := by
        rw [hr.totalFree_eq]; simp [SegmentSpace.new]
      have hok : SegmentOk g m.sme m.segments.length sp' := by
        refine ⟨hwf', ?_, by rw [hstart, hs], hsize⟩
        intro i hi
        rw [hstart, iff_true_left (hd.free _ (by omega) (by omega)), hr.covers_iff]
        right
        change (s : ℤ).toNat ≤ s + i ∧ s + i < (s : ℤ).toNat + g.segmentPages
        omega
      have hle := h.totalFree_le
      have hinv := h.append hok hd.pages_le
      refine ⟨_, ?_, hinv, rfl, rfl, by simp, ?_⟩
      · rw [depositASegment, hid, hu]
        simp only [ne_eq, not_true_eq_false, if_false, Bool.not_true, Bool.false_eq_true,
          Int.toNat_natCast, heq, if_true]
        simp only [SegmentSpace.releaseCells, Bool.false_eq_true, if_false, htf]
        rw [u32_of_lt (by omega)]
      · intro k hk
        rw [getElem?_append_left hk]
    · refine absurd ⟨?_, ?_, ?_⟩ hrel
      · exact le_rfl
      · rw [hnew]; simp [SegmentSpace.new]
      · simp [SegmentSpace.new, SegmentSpace.runs]

theorem sme_depositASegment (m : SMEMgr) (g : Layout) (start : ℤ) (alloc : Bool) :
    (m.depositASegment g start alloc).2.sme = m.sme := by
  have hc := congrArg MgrCells.sme (SegmentSpace.cells_releasePages
    (SegmentSpace.new start.toNat (u16 g.segmentPages)) m.toMgrCells start (u16 g.segmentPages))
  simp only [depositASegment]
  split_ifs <;> first | rfl | exact hc

end Deposit

end SMEMgr

end Novachains.Dms
