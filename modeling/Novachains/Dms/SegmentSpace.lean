import Novachains.Lib.Runs
import Novachains.Dms.SME

/-!
# The free space of one segment

`_dmsSegmentSpace` keeps the free pages of one segment as a list of packed nodes,
the start in the upper and the size in the lower half of a 32-bit word.  It also
works on three fields of the manager it belongs to: the bitmap, the manager's
count of free pages, and the free-position hint.
-/

namespace Novachains.Dms

open Lib List

def nodeGetStart (x : ℕ) : ℕ := u16 (x >>> 16)

def nodeGetSize (x : ℕ) : ℕ := u16 (0xFFFF &&& x)

def nodeSetSize (x y : ℕ) : ℕ := u16 y ||| (0xFFFF0000 &&& x)

def nodeSet (y z : ℕ) : ℕ := u32 (y <<< 16) ||| (0xFFFF &&& z)

def nodeRun (x : ℕ) : Run := ⟨nodeGetStart x, nodeGetSize x⟩

private theorem and_mask16 (x : ℕ) : 0xFFFF &&& x = x % 2 ^ 16 := by
  rw [Nat.and_comm]; exact Nat.and_two_pow_sub_one_eq_mod x 16

private theorem pack_eq {s n : ℕ} (hn : n < 2 ^ 16) :
    (s * 2 ^ 16) ||| n = s * 2 ^ 16 + n := by
  rw [mul_comm]; exact (Nat.two_pow_add_eq_or_of_lt hn s).symm

theorem nodeGetSize_eq (x : ℕ) : nodeGetSize x = x % 2 ^ 16 := by
  rw [nodeGetSize, and_mask16, u16, Nat.mod_mod]

theorem nodeGetStart_eq (x : ℕ) : nodeGetStart x = x / 2 ^ 16 % 2 ^ 16 := by
  rw [nodeGetStart, u16, Nat.shiftRight_eq_div_pow]

variable {s n : ℕ}

theorem nodeSet_eq (hs : s < 2 ^ 16) (hn : n < 2 ^ 16) : nodeSet s n = s * 2 ^ 16 + n := by
  have hlt : s * 2 ^ 16 < 2 ^ 32 := by omega
  rw [nodeSet, and_mask16, Nat.mod_eq_of_lt hn, Nat.shiftLeft_eq, u32_of_lt hlt, pack_eq hn]

@[simp] theorem nodeRun_start (x : ℕ) : (nodeRun x).start = nodeGetStart x := rfl
@[simp] theorem nodeRun_size (x : ℕ) : (nodeRun x).size = nodeGetSize x := rfl

theorem nodeRun_nodeSet (hs : s < 2 ^ 16) (hn : n < 2 ^ 16) : nodeRun (nodeSet s n) = ⟨s, n⟩ := by
  rw [nodeRun, nodeGetStart_eq, nodeGetSize_eq, nodeSet_eq hs hn]
  congr 1 <;> omega

theorem nodeRun_nodeSetSize (x : ℕ) (hn : n < 2 ^ 16) :
    nodeRun (nodeSetSize x n) = ⟨nodeGetStart x, n⟩ := by
  have hmask : 0xFFFF0000 &&& x = x / 2 ^ 16 % 2 ^ 16 * 2 ^ 16 := by
    have hsplit : (0xFFFF0000 : ℕ) = (2 ^ 16 - 1) <<< 16 := by decide
    rw [hsplit]
    apply Nat.eq_of_testBit_eq
    intro i
    rw [mul_comm, Nat.testBit_and, Nat.testBit_two_pow_mul, Nat.testBit_mod_two_pow,
      Nat.testBit_div_two_pow, Nat.testBit_shiftLeft, Nat.testBit_two_pow_sub_one]
    by_cases hi : 16 ≤ i
    · simp [hi]
    · simp [hi]
  rw [nodeRun, nodeGetStart_eq, nodeGetSize_eq, nodeGetStart_eq, nodeSetSize, hmask, u16_of_lt hn,
    Nat.or_comm, pack_eq hn]
  congr 1 <;> omega

/-- The fields of `_dmsSMEMgr` that a segment works on: `_pSME`, `_totalFree` and
`_freePos`. -/
structure MgrCells where
  sme : SME
  totalFree : ℕ
  freePos : ℕ

structure SegmentSpace where
  freeSpaceList : List ℕ
  maxNode : ℕ
  startExtent : ℕ
  totalSize : ℕ
  totalFree : ℕ
  deriving DecidableEq, Repr

namespace SegmentSpace

def new (startExtent maxNode : ℕ) : SegmentSpace where
  freeSpaceList := []
  maxNode := 0
  startExtent := startExtent
  totalSize := u16 maxNode
  totalFree := 0

/-- `_resetMax`: the largest size of a node. -/
def resetMax (l : List ℕ) : ℕ :=
  l.foldl (fun maxNode node => if maxNode < nodeGetSize node then nodeGetSize node else maxNode) 0

/-- The loop of `reservePages`: the first node that is large enough gives its first pages. -/
def takeNode (numPages : ℕ) : List ℕ → Option (ℕ × ℕ × List ℕ)
  | [] => none
  | node :: rest =>
    let oldsize := nodeGetSize node
    if numPages ≤ oldsize then
      let foundPage := nodeGetStart node
      if nodeGetSize node = numPages then some (foundPage, oldsize, rest)
      else
        let newsize := oldsize - numPages
        some (foundPage, oldsize, nodeSet (foundPage + numPages) newsize :: rest)
    else
      (takeNode numPages rest).map fun (p, s, l) => (p, s, node :: l)

/-- `compareAndSwap( pos, pos + 1 )` of the free-position hint, made when the segment
has no free page. -/
def bumpFreePos (sp : SegmentSpace) (c : MgrCells) (pos : ℕ) : MgrCells :=
  if sp.totalFree = 0 ∧ c.freePos = pos then { c with freePos := pos + 1 } else c

/-- The first run that is large enough is taken. -/
def reservePages (sp : SegmentSpace) (c : MgrCells) (numPages pos : ℕ) :
    Except Rc ℕ × SegmentSpace × MgrCells :=
  let c := sp.bumpFreePos c pos
  if sp.maxNode < numPages then (.error .dmsNoSpc, sp, c)
  else
    match takeNode numPages sp.freeSpaceList with
    | none => (.error .sys, sp, c)
    | some (found, oldsize, l) =>
      let foundPage := found + sp.startExtent
      (.ok foundPage,
        { sp with
          freeSpaceList := l
          totalFree := u16 (sp.totalFree + 2 ^ 16 - numPages)
          maxNode := if oldsize = sp.maxNode then resetMax l else sp.maxNode },
        { c with
          sme := c.sme.setRange foundPage numPages
          totalFree := u32 (c.totalFree + 2 ^ 32 - numPages) })

/-- The loop of `releasePages`: the nodes passed, the size of the node that now holds the pages, and
the list from it on; `none` when pages overlap. -/
def releaseLoop (relaStart numPages : ℕ) : List ℕ → Option (List ℕ × ℕ × List ℕ)
  | [] => some ([], numPages, [nodeSet relaStart numPages])
  | node :: rest =>
    let nodeStart := nodeGetStart node
    let nodeSize := nodeGetSize node
    if relaStart < nodeStart then
      if relaStart + numPages > nodeStart then none
      else if relaStart + numPages = nodeStart then
        let newSize := u16 (nodeSize + numPages)
        some ([], newSize, nodeSet relaStart newSize :: rest)
      else some ([], numPages, nodeSet relaStart numPages :: node :: rest)
    else if relaStart = nodeStart ∨ nodeStart + nodeSize > relaStart then none
    else
      (releaseLoop relaStart numPages rest).map fun (k, newSize, l) => (node :: k, newSize, l)

/-- The end of `releasePages`: merge the head of `l` into the last node of `k` when they touch. -/
def mergePrev (relaStart newSize maxNode : ℕ) (k l : List ℕ) : Rc × List ℕ × ℕ :=
  match k.getLast? with
  | none => (.ok, k ++ l, maxNode)
  | some prevNode =>
    let prevStart := nodeGetStart prevNode
    let prevSize := nodeGetSize prevNode
    if prevStart + prevSize > relaStart then (.sys, k ++ l, maxNode)
    else if prevStart + prevSize = relaStart then
      (.ok, k.dropLast ++ nodeSetSize prevNode (newSize + prevSize) :: l.tail,
        if newSize + prevSize > maxNode then u16 (newSize + prevSize) else maxNode)
    else (.ok, k ++ l, maxNode)

def insertNode (sp : SegmentSpace) (relaStart numPages : ℕ) : Rc × List ℕ × ℕ :=
  if sp.freeSpaceList = [] then (.ok, [nodeSet relaStart numPages], numPages)
  else
    match releaseLoop relaStart numPages sp.freeSpaceList with
    | none => (.sys, sp.freeSpaceList, sp.maxNode)
    | some (k, newSize, l) =>
      mergePrev relaStart newSize (if newSize > sp.maxNode then newSize else sp.maxNode) k l

/-- `_dmsSegmentSpace::releasePages`. -/
def releasePages (sp : SegmentSpace) (c : MgrCells) (start : ℤ) (numPages : ℕ) (bitSet : Bool) :
    Rc × SegmentSpace × MgrCells :=
  let relaStart := ((start - sp.startExtent) % 2 ^ 16).toNat
  if start < sp.startExtent ∨ start + numPages > sp.startExtent + sp.totalSize then
    (.sys, sp, c)
  else
    let (rc, l, maxNode) :=
      if numPages = 0 then (.ok, sp.freeSpaceList, sp.maxNode)
      else sp.insertNode relaStart numPages
    let sp := { sp with freeSpaceList := l, maxNode := maxNode }
    if rc = .ok then
      (.ok, { sp with totalFree := u16 (sp.totalFree + numPages) },
        if bitSet then
          { c with
            sme := c.sme.freeRange start.toNat numPages
            totalFree := u32 (c.totalFree + numPages) }
        else c)
    else (rc, sp, c)

theorem cells_releasePages (sp : SegmentSpace) (c : MgrCells) (start : ℤ) (numPages : ℕ) :
    (sp.releasePages c start numPages false).2.2 = c := by
  simp only [releasePages, Bool.false_eq_true, if_false]
  split_ifs <;> rfl

def runs (sp : SegmentSpace) : List Run := sp.freeSpaceList.map nodeRun

/-- The list is canonical and lies in the segment, and the cached figures are those
of the list. -/
structure Wf (sp : SegmentSpace) : Prop where
  canonical : Canonical sp.runs
  stop_le : ∀ r ∈ sp.runs, r.stop ≤ sp.totalSize
  totalSize_le : sp.totalSize ≤ 2 ^ 15
  totalFree_eq : sp.totalFree = total sp.runs
  maxNode_eq : sp.maxNode = largest sp.runs

def Agrees (sp : SegmentSpace) (s : SME) : Prop :=
  ∀ i < sp.totalSize, s.Free (sp.startExtent + i) ↔ Covers sp.runs i

variable {sp : SegmentSpace}

theorem Wf.totalFree_le (h : sp.Wf) : sp.totalFree ≤ sp.totalSize := by
  rw [h.totalFree_eq]; exact h.canonical.total_le h.stop_le

theorem Wf.lt_of_covers (h : sp.Wf) {i : ℕ} (hi : Covers sp.runs i) : i < sp.totalSize := by
  obtain ⟨r, hr, hri⟩ := hi
  have hstop := h.stop_le r hr
  rw [Run.stop_eq] at hstop
  exact lt_of_lt_of_le hri.2 hstop

theorem wf_new (start n : ℕ) (hn : n ≤ 2 ^ 15) : (new start n).Wf where
  canonical := canonical_nil
  stop_le := by simp [new, runs]
  totalSize_le := by rw [new, u16_of_lt (by omega)]; exact hn
  totalFree_eq := rfl
  maxNode_eq := rfl

/-! ## Reserving -/

theorem resetMax_eq (l : List ℕ) : resetMax l = largest (l.map nodeRun) := by
  have key : ∀ (l : List ℕ) (m : ℕ), l.foldl (fun maxNode node =>
      if maxNode < nodeGetSize node then nodeGetSize node else maxNode) m =
      max m (largest (l.map nodeRun)) := by
    intro l
    induction l with
    | nil => intro m; simp
    | cons x l ih =>
      intro m
      rw [foldl_cons, ih, map_cons, largest_cons, nodeRun_size]
      split <;> omega
  rw [resetMax, key, Nat.zero_max]

variable {l : List ℕ}

theorem takeNode_eq_none (h : takeNode n l = none) : ∀ r ∈ l.map nodeRun, r.size < n := by
  induction l with
  | nil => simp
  | cons x l ih =>
    by_cases hx : n ≤ nodeGetSize x
    · simp only [takeNode, hx, if_true] at h
      split at h <;> simp at h
    simp only [takeNode, hx, if_false, Option.map_eq_none_iff] at h
    intro r hr
    rcases mem_cons.mp (map_cons ▸ hr) with rfl | hr
    · rw [nodeRun_size]; omega
    · exact ih h r hr

theorem takeNode_eq_some {p : ℕ} {l' : List ℕ} (h : takeNode n l = some (p, s, l'))
    (hb : ∀ r ∈ l.map nodeRun, r.stop < 2 ^ 16) :
    ∃ k r t, l.map nodeRun = k ++ r :: t ∧ l'.map nodeRun = k ++ (carve n r ++ t) ∧
      p = r.start ∧ s = r.size ∧ n ≤ r.size := by
  induction l generalizing l' with
  | nil => simp [takeNode] at h
  | cons x l ih =>
    by_cases hx : n ≤ nodeGetSize x
    · refine ⟨[], nodeRun x, l.map nodeRun, rfl, ?_⟩
      simp only [takeNode, hx, if_true] at h
      have hstop := hb (nodeRun x) (by simp)
      rw [Run.stop_eq, nodeRun_start, nodeRun_size] at hstop
      by_cases he : nodeGetSize x = n
      · rw [if_pos he] at h
        cases h
        exact ⟨by simp [carve, he], rfl, rfl, hx⟩
      rw [if_neg he] at h
      cases h
      refine ⟨?_, rfl, rfl, hx⟩
      rw [map_cons, nodeRun_nodeSet (by omega) (by omega)]
      simp [carve, he]
    · simp only [takeNode, hx, if_false, Option.map_eq_some_iff] at h
      obtain ⟨⟨p', s', t'⟩, ht, heq⟩ := h
      cases heq
      obtain ⟨k, r, t, h1, h2, h3⟩ := ih ht fun r hr => hb r (by simp [hr])
      exact ⟨nodeRun x :: k, r, t, by simp [h1], by simp [h2], h3⟩

theorem bumpFreePos_freePos (sp : SegmentSpace) (c : MgrCells) (pos : ℕ) :
    (sp.bumpFreePos c pos).freePos =
      if sp.totalFree = 0 ∧ c.freePos = pos then pos + 1 else c.freePos := by
  rw [bumpFreePos]; split <;> rfl

@[simp] theorem bumpFreePos_sme (sp : SegmentSpace) (c : MgrCells) (pos : ℕ) :
    (sp.bumpFreePos c pos).sme = c.sme := by
  rw [bumpFreePos]; split <;> rfl

@[simp] theorem bumpFreePos_totalFree (sp : SegmentSpace) (c : MgrCells) (pos : ℕ) :
    (sp.bumpFreePos c pos).totalFree = c.totalFree := by
  rw [bumpFreePos]; split <;> rfl

theorem reservePages_noSpc (h : sp.Wf) (c : MgrCells) (pos : ℕ) (hn : largest sp.runs < n) :
    sp.reservePages c n pos = (.error .dmsNoSpc, sp, sp.bumpFreePos c pos) := by
  rw [reservePages, if_pos (by rw [h.maxNode_eq]; exact hn)]

/-- What a successful reservation of `n` pages from page `page` on does to a segment
and the manager's fields. -/
structure Reserved (sp : SegmentSpace) (c : MgrCells) (n page : ℕ) (sp' : SegmentSpace)
    (c' : MgrCells) : Prop where
  startExtent_eq : sp'.startExtent = sp.startExtent
  totalSize_eq : sp'.totalSize = sp.totalSize
  totalFree_add : sp'.totalFree + n = sp.totalFree
  covers_iff : ∀ x, Covers sp'.runs x ↔
    Covers sp.runs x ∧ ¬ (page ≤ sp.startExtent + x ∧ sp.startExtent + x < page + n)
  start_le : sp.startExtent ≤ page
  covered : ∀ x, page ≤ sp.startExtent + x → sp.startExtent + x < page + n → Covers sp.runs x
  stop_le : page + n ≤ sp.startExtent + sp.totalSize
  sme_eq : c'.sme = c.sme.setRange page n
  mgrFree_eq : c'.totalFree = u32 (c.totalFree + 2 ^ 32 - n)
  freePos_eq : c'.freePos = c.freePos

theorem reservePages_ok (h : sp.Wf) (c : MgrCells) (pos : ℕ) (h0 : 0 < n) (hn : n ≤ largest sp.runs) :
    ∃ page sp' c', sp.reservePages c n pos = (.ok page, sp', c') ∧ sp'.Wf ∧
      Reserved sp c n page sp' c' := by
  have hlt : ∀ r ∈ sp.runs, r.stop < 2 ^ 16 := by
    intro r hr
    have := h.stop_le r hr
    have := h.totalSize_le
    omega
  cases ht : takeNode n sp.freeSpaceList with
  | none =>
    obtain ⟨r, hr, hle⟩ := exists_le_size h0 hn
    have := takeNode_eq_none ht r hr
    omega
  | some found =>
    obtain ⟨p, s, l⟩ := found
    obtain ⟨k, r, t, hruns, hl, rfl, rfl, hnr⟩ := takeNode_eq_some ht hlt
    have hruns' : sp.runs = k ++ r :: t := hruns
    have hcan := hruns' ▸ h.canonical
    have hr : r ∈ sp.runs := by rw [hruns']; simp
    have hstop := h.stop_le r hr
    have htot : total (k ++ (carve n r ++ t)) + n = sp.totalFree := by
      rw [total_carve hnr, ← hruns', h.totalFree_eq]
    have hsz := h.totalFree_le
    have htsz := h.totalSize_le
    have hfree : u16 (sp.totalFree + 2 ^ 16 - n) = total (k ++ (carve n r ++ t)) := by
      rw [u16]; omega
    rw [Run.stop_eq] at hstop
    have hres := reservePages.eq_1 sp c n pos
    rw [if_neg (by rw [h.maxNode_eq]; omega), ht] at hres
    refine ⟨_, _, _, hres, ?_, ?_⟩
    · refine ⟨?_, ?_, htsz, ?_, ?_⟩
      · rw [runs, hl]
        exact canonical_carve hcan hnr
      · intro b hb
        rw [runs, hl, mem_append, mem_append] at hb
        rcases hb with hb | hb | hb
        · exact h.stop_le b (by rw [hruns']; simp [hb])
        · rw [stop_le_of_mem_carve hb hnr, Run.stop_eq]; exact hstop
        · exact h.stop_le b (by rw [hruns']; simp [hb])
      · rw [runs, hl]
        exact hfree
      · -- The cached maximum stays right when a smaller node was carved.
        simp only [runs, hl]
        by_cases he : r.size = sp.maxNode
        · rw [if_pos he, resetMax_eq, hl]
        rw [if_neg he, h.maxNode_eq, hruns']
        rw [h.maxNode_eq, hruns'] at he
        have hcarve : largest (carve n r) ≤ r.size := by
          rw [carve]; split <;> simp
        simp only [largest_append, largest_cons] at he ⊢
        omega
    · refine ⟨rfl, rfl, ?_, ?_, by omega, ?_, by omega, ?_, ?_, ?_⟩
      · change u16 (sp.totalFree + 2 ^ 16 - n) + n = sp.totalFree
        omega
      · intro x
        rw [runs, hl, covers_carve hcan hnr, ← hruns']
        apply and_congr_right'
        rw [not_iff_not]
        omega
      · intro x h1 h2
        exact ⟨r, hr, by omega, by omega⟩
      · change (sp.bumpFreePos c pos).sme.setRange _ n = _
        rw [bumpFreePos_sme]
      · change u32 ((sp.bumpFreePos c pos).totalFree + 2 ^ 32 - n) = _
        rw [bumpFreePos_totalFree]
      · change (sp.bumpFreePos c pos).freePos = _
        rw [bumpFreePos_freePos, if_neg (by omega)]

/-! ## Releasing -/

theorem releaseLoop_spec (hc : Canonical (l.map nodeRun))
    (hb : ∀ r ∈ l.map nodeRun, r.stop ≤ 2 ^ 15) (hn : 0 < n) (hs : s + n ≤ 2 ^ 15) :
    (∃ k p m t, releaseLoop s n l = some (k, m, t) ∧ l = k ++ p ∧
      (∀ r ∈ k.map nodeRun, r.stop ≤ s) ∧ (∀ r ∈ p.map nodeRun, s + n ≤ r.start) ∧
      t.map nodeRun = addFront s n (p.map nodeRun) ∧ (t.map nodeRun).head? = some ⟨s, m⟩) ∨
    (releaseLoop s n l = none ∧ ∃ x, s ≤ x ∧ x < s + n ∧ Covers (l.map nodeRun) x) := by
  induction l with
  | nil =>
    refine Or.inl ⟨[], [], n, [nodeSet s n], rfl, rfl, by simp, by simp, ?_, ?_⟩ <;>
      simp [nodeRun_nodeSet (show s < 2 ^ 16 by omega) (show n < 2 ^ 16 by omega), addFront]
  | cons x l ih =>
    rw [map_cons] at hc hb
    obtain ⟨hpos, hgap, hl⟩ := canonical_cons.mp hc
    have hx := hb (nodeRun x) (by simp)
    rw [Run.stop_eq, nodeRun_start, nodeRun_size] at hx
    simp only [Run.stop_eq, nodeRun_start, nodeRun_size] at hpos hgap
    -- The list from the node `x` on begins after the released pages.
    have hafter : s + n ≤ nodeGetStart x →
        ∀ r ∈ (x :: l).map nodeRun, s + n ≤ r.start := by
      intro hle r hr
      rcases mem_cons.mp (map_cons ▸ hr) with rfl | hr
      · exact hle
      · have := hgap r hr
        omega
    by_cases h1 : s < nodeGetStart x
    · by_cases h2 : s + n > nodeGetStart x
      · refine Or.inr ⟨by simp [releaseLoop, h1, h2], nodeGetStart x, by omega, h2, ?_⟩
        exact ⟨nodeRun x, by simp, by simp [nodeRun, hpos]⟩
      by_cases h3 : s + n = nodeGetStart x
      · have hsize : u16 (nodeGetSize x + n) = n + nodeGetSize x := by rw [u16]; omega
        refine Or.inl ⟨[], x :: l, n + nodeGetSize x, nodeSet s (n + nodeGetSize x) :: l, ?_,
          rfl, by simp, hafter (by omega), ?_, ?_⟩
        · simp [releaseLoop, h1, h3, hsize]
        · rw [map_cons, nodeRun_nodeSet (by omega) (by omega), map_cons, addFront,
            if_pos (by rw [nodeRun_start]; exact h3)]
          rfl
        · rw [map_cons, nodeRun_nodeSet (by omega) (by omega)]
          rfl
      · refine Or.inl ⟨[], x :: l, n, nodeSet s n :: x :: l, ?_,
          rfl, by simp, hafter (by omega), ?_, ?_⟩
        · simp [releaseLoop, h1, h2, h3]
        · rw [map_cons, nodeRun_nodeSet (by omega) (by omega), map_cons, addFront,
            if_neg (by rw [nodeRun_start]; exact h3)]
        · rw [map_cons, nodeRun_nodeSet (by omega) (by omega)]
          rfl
    · by_cases h4 : s = nodeGetStart x ∨ nodeGetStart x + nodeGetSize x > s
      · refine Or.inr ⟨by simp [releaseLoop, h1, h4], s, le_rfl, by omega, ?_⟩
        refine ⟨nodeRun x, by simp, ?_, ?_⟩
        · rw [nodeRun_start]; omega
        · rw [nodeRun_start, nodeRun_size]; omega
      · have hstep : releaseLoop s n (x :: l) =
            (releaseLoop s n l).map fun (k, m, t) => (x :: k, m, t) := by
          simp [releaseLoop, h1, h4]
        rcases ih hl (fun r hr => hb r (by simp [hr])) with
          ⟨k, p, m, t, h, rfl, hk, hp, ht, hm⟩ | ⟨h, y, hy1, hy2, hy⟩
        · refine Or.inl ⟨x :: k, p, m, t, by simp [hstep, h], rfl, ?_, hp, ht, hm⟩
          intro r hr
          rcases mem_cons.mp (map_cons ▸ hr) with rfl | hr
          · rw [Run.stop_eq, nodeRun_start, nodeRun_size]; omega
          · exact hk r hr
        · exact Or.inr ⟨by simp [hstep, h], y, hy1, hy2, by simp [hy]⟩

theorem mergePrev_spec {m mx : ℕ} {k t : List ℕ} {l : List Run}
    (hk : ∀ r ∈ k.map nodeRun, r.stop ≤ s) (ht : t.map nodeRun = ⟨s, m⟩ :: l) (hm : s + m < 2 ^ 16)
    (hmx : mx = max (largest (k.map nodeRun)) (largest (⟨s, m⟩ :: l))) :
    ∃ k', mergePrev s m mx k t = (.ok, k', largest (k'.map nodeRun)) ∧
      k'.map nodeRun = joinLast (k.map nodeRun) (⟨s, m⟩ :: l) := by
  rcases eq_nil_or_concat' k with rfl | ⟨k, a, rfl⟩
  · refine ⟨t, ?_, by simp [ht]⟩
    simp [mergePrev, ht, hmx]
  have ha := hk (nodeRun a) (by simp)
  rw [Run.stop_eq, nodeRun_start, nodeRun_size] at ha
  have hnot : ¬ s < nodeGetStart a + nodeGetSize a := by omega
  have htail : t.tail.map nodeRun = l := by rw [map_tail, ht]; rfl
  rw [map_append, map_singleton] at hmx ⊢
  rw [joinLast_concat, Run.stop_eq, nodeRun_start, nodeRun_size]
  by_cases h : nodeGetStart a + nodeGetSize a = s
  · have hnode := nodeRun_nodeSetSize a (show m + nodeGetSize a < 2 ^ 16 by omega)
    have hmap : (k ++ nodeSetSize a (m + nodeGetSize a) :: t.tail).map nodeRun =
        k.map nodeRun ++ ⟨nodeGetStart a, nodeGetSize a + m⟩ :: l := by
      rw [map_append, map_cons, hnode, htail, add_comm m]
    refine ⟨k ++ nodeSetSize a (m + nodeGetSize a) :: t.tail, ?_, by rw [hmap, if_pos h]⟩
    have hlarge : largest (k.map nodeRun ++ ⟨nodeGetStart a, nodeGetSize a + m⟩ :: l) =
        if m + nodeGetSize a > mx then u16 (m + nodeGetSize a) else mx := by
      rw [u16_of_lt (by omega), hmx]
      simp only [largest_append, largest_cons, largest_nil, nodeRun_size]
      split <;> omega
    rw [hmap, hlarge]
    simp [mergePrev, h]
  · refine ⟨k ++ a :: t, ?_, by rw [if_neg h, map_append, map_cons, ht]⟩
    have hlarge : largest ((k ++ a :: t).map nodeRun) = mx := by
      rw [hmx, map_append, map_cons, ht]
      simp only [largest_append, largest_cons, largest_nil]
      omega
    rw [hlarge]
    simp [mergePrev, hnot, h]

theorem insertNode_spec (h : sp.Wf) (hn : 0 < n) (hs : s + n ≤ sp.totalSize) :
    (∃ l, sp.insertNode s n = (.ok, l, largest (l.map nodeRun)) ∧
      Canonical (l.map nodeRun) ∧ (∀ r ∈ l.map nodeRun, r.stop ≤ sp.totalSize) ∧
      total (l.map nodeRun) = total sp.runs + n ∧
      (∀ x, Covers (l.map nodeRun) x ↔ Covers sp.runs x ∨ (s ≤ x ∧ x < s + n)) ∧
      ∀ x, s ≤ x → x < s + n → ¬ Covers sp.runs x) ∨
    (sp.insertNode s n = (.sys, sp.freeSpaceList, sp.maxNode) ∧
      ∃ x, s ≤ x ∧ x < s + n ∧ Covers sp.runs x) := by
  have htsz := h.totalSize_le
  by_cases hnil : sp.freeSpaceList = []
  · have hruns : sp.runs = [] := by rw [runs, hnil]; rfl
    have hmap : [nodeSet s n].map nodeRun = [⟨s, n⟩] := by
      rw [map_singleton, nodeRun_nodeSet (by omega) (by omega)]
    refine Or.inl ⟨[nodeSet s n], ?_, ?_⟩
    · simp [insertNode, hnil, nodeRun_nodeSet (show s < 2 ^ 16 by omega) (show n < 2 ^ 16 by omega)]
    · rw [hmap, hruns]
      exact ⟨canonical_cons.mpr ⟨hn, by simp, canonical_nil⟩, by simpa using hs, by simp, by simp,
        by simp⟩
  rcases releaseLoop_spec h.canonical (fun r hr => le_trans (h.stop_le r hr) htsz) hn
    (le_trans hs htsz) with ⟨k, p, m, t, hloop, hkp, hk, hp, ht, hm⟩ | ⟨hloop, hx⟩
  · left
    have hruns : sp.runs = k.map nodeRun ++ p.map nodeRun := by rw [runs, hkp, map_append]
    obtain ⟨hck, hcp, -⟩ := canonical_append.mp (hruns ▸ h.canonical)
    have hcan := canonical_addFront hcp hn hp
    have hmem : ∀ b, b ∈ k.map nodeRun ∨ b ∈ p.map nodeRun → b.stop ≤ sp.totalSize := by
      intro b hb
      exact h.stop_le b (by rw [hruns]; exact mem_append.mpr hb)
    have hstop := stop_addFront_le hs fun b hb => hmem b (Or.inr hb)
    -- The front of the second half is the run that holds the released pages.
    obtain ⟨m', q, hq, -⟩ := addFront_eq_cons s n (p.map nodeRun)
    obtain rfl : m' = m := by
      rw [ht, hq] at hm; simpa using hm
    have hlt := hstop ⟨s, m'⟩ (by rw [hq]; simp)
    rw [Run.stop_mk] at hlt
    have hmax : (if m' > sp.maxNode then m' else sp.maxNode) =
        max (largest (k.map nodeRun)) (largest (⟨s, m'⟩ :: q)) := by
      rw [h.maxNode_eq, hruns, ← hq, largest_append, largest_addFront hq]
      split <;> omega
    obtain ⟨l, hmerge, hl⟩ := mergePrev_spec hk (ht.trans hq) (by omega) hmax
    refine ⟨l, ?_, ?_⟩
    · rw [insertNode, if_neg hnil, hloop]
      exact hmerge
    rw [hl, ← hq]
    refine ⟨?_, ?_, ?_, ?_, ?_⟩
    · rw [hq] at hcan ⊢
      exact canonical_joinLast hck hcan hk
    · exact stop_joinLast_le (fun b hb => hmem b (Or.inl hb)) hstop
    · rw [total_joinLast, total_addFront, hruns, total_append]
      omega
    · intro x
      rw [covers_joinLast, covers_addFront, hruns, covers_append]
      tauto
    intro x h1 h2
    rw [hruns, covers_append]
    rintro (⟨r, hr, hrx⟩ | ⟨r, hr, hrx⟩)
    · have := hk r hr
      have := hrx.2
      rw [Run.stop_eq] at *
      omega
    · have := hp r hr
      have := hrx.1
      omega
  · exact Or.inr ⟨by rw [insertNode, if_neg hnil, hloop], hx⟩

/-- What a successful release of the `n` pages from `start` on does to a segment. -/
structure Released (sp : SegmentSpace) (start n : ℕ) (sp' : SegmentSpace) : Prop where
  startExtent_eq : sp'.startExtent = sp.startExtent
  totalSize_eq : sp'.totalSize = sp.totalSize
  totalFree_eq : sp'.totalFree = sp.totalFree + n
  covers_iff : ∀ x, Covers sp'.runs x ↔
    Covers sp.runs x ∨ (start ≤ sp.startExtent + x ∧ sp.startExtent + x < start + n)

def Releasable (sp : SegmentSpace) (start : ℤ) (n : ℕ) : Prop :=
  sp.startExtent ≤ start ∧ start + n ≤ sp.startExtent + sp.totalSize ∧
    ∀ x : ℕ, start ≤ sp.startExtent + x → sp.startExtent + x < start + n → ¬ Covers sp.runs x

def releaseCells (c : MgrCells) (start n : ℕ) (bitSet : Bool) : MgrCells :=
  if bitSet then
    { c with sme := c.sme.freeRange start n, totalFree := u32 (c.totalFree + n) }
  else c

theorem releasePages_spec (h : sp.Wf) (c : MgrCells) (start : ℤ) (n : ℕ) (bitSet : Bool) :
    (sp.Releasable start n ∧ ∃ sp', sp'.Wf ∧ Released sp start.toNat n sp' ∧
      sp.releasePages c start n bitSet = (.ok, sp', releaseCells c start.toNat n bitSet)) ∨
    (¬ sp.Releasable start n ∧ sp.releasePages c start n bitSet = (.sys, sp, c)) := by
  by_cases hrange : start < sp.startExtent ∨ start + n > sp.startExtent + sp.totalSize
  · refine Or.inr ⟨?_, by rw [releasePages, if_pos hrange]⟩
    rintro ⟨h1, h2, -⟩
    omega
  obtain ⟨i, rfl⟩ : ∃ i : ℕ, start = (sp.startExtent + i : ℕ) :=
    ⟨(start - sp.startExtent).toNat, by omega⟩
  have htsz := h.totalSize_le
  have hrela : (((sp.startExtent + i : ℕ) - sp.startExtent : ℤ) % 2 ^ 16).toNat = i := by omega
  have hreleasable : sp.Releasable (sp.startExtent + i : ℕ) n ↔
      ∀ x, i ≤ x → x < i + n → ¬ Covers sp.runs x := by
    constructor
    · intro hr x h1 h2
      exact hr.2.2 x (by omega) (by omega)
    · intro hr
      exact ⟨by omega, by omega, fun x h1 h2 => hr x (by omega) (by omega)⟩
  have hunfold := releasePages.eq_1 sp c (sp.startExtent + i : ℕ) n bitSet
  rw [if_neg hrange, hrela] at hunfold
  have htf := h.totalFree_eq
  have hle := h.totalFree_le
  rcases eq_zero_or_pos n with rfl | hn
  · have hsame : u16 (sp.totalFree + 0) = sp.totalFree := u16_of_lt (by omega)
    refine Or.inl ⟨hreleasable.mpr (by omega), _, ?_, ?_, hunfold⟩
    · simp only [hsame]
      exact h
    · refine ⟨rfl, rfl, hsame, fun x => ?_⟩
      rw [or_iff_left (by omega)]
      rfl
  rw [if_neg (by omega)] at hunfold
  rcases insertNode_spec h hn (show i + n ≤ sp.totalSize by omega) with
    ⟨l, hins, hcan, hstop, htot, hcov, hun⟩ | ⟨hins, x, h1, h2, hx⟩
  · rw [hins] at hunfold
    have htl := hcan.total_le hstop
    have hsum : u16 (sp.totalFree + n) = sp.totalFree + n := u16_of_lt (by omega)
    refine Or.inl ⟨hreleasable.mpr hun, _, ?_, ?_, hunfold⟩
    · exact ⟨hcan, hstop, htsz, by rw [runs]; simp only [hsum]; omega, rfl⟩
    refine ⟨rfl, rfl, hsum, fun x => ?_⟩
    rw [runs, hcov x, Int.toNat_natCast]
    apply or_congr_right
    omega
  · rw [hins] at hunfold
    exact Or.inr ⟨fun hr => hreleasable.mp hr x h1 h2 hx, hunfold⟩

end SegmentSpace

end Novachains.Dms
