import Novachains.Dms.Chain
import Novachains.Lib.Transition

/-!
# The order of the chain over whole runs

Extents are added to a collection one after the other, in whatever order the space
manager hands out their segments.  In every state the chain is in order of the segments
and in order of addition within each, and the logical IDs increase along it.
-/

namespace Novachains.Dms

open Lib List Extent

namespace Col

/-- `_dmsExtent::init` on the pages from `extID` on. -/
def initExtent (c : Col) (extID numPages mbID : ℕ) : Col :=
  let total := numPages <<< c.pageSize.square
  { c with data := Extent.init c.data (c.addr extID) numPages mbID total }

/-- The chain is `l`: linked both ways, in order of the segments and of addition, and described by
`mbEx`. -/
structure Ordered (c : Col) (mbEx : ℕ) (added l : List ℕ) : Prop where
  forward : Path c.next c.mb.firstExtentID l none
  last_eq : c.mb.lastExtentID = l.getLast?
  backward : Path c.prev c.mb.lastExtentID l.reverse none
  perm : l.Perm added
  nodup : l.Nodup
  segments : l.Pairwise fun a b => c.pageSize.segmentOf a ≤ c.pageSize.segmentOf b
  groups : ∀ s < c.pageSize.maxSegmentNum,
    bucket c.pageSize.segmentOf l s = bucket c.pageSize.segmentOf added s
  first_entry : ∀ s < c.pageSize.maxSegmentNum, MetaExtent.firstExtentID c.data (c.addr mbEx) s =
    (bucket c.pageSize.segmentOf l s).head?
  last_entry : ∀ s < c.pageSize.maxSegmentNum, MetaExtent.lastExtentID c.data (c.addr mbEx) s =
    (bucket c.pageSize.segmentOf l s).getLast?
  usedSegNum_eq : MetaExtent.usedSegNum c.data (c.addr mbEx) =
    usedBuckets c.pageSize.segmentOf l c.pageSize.maxSegmentNum
  logicID_increasing : l.Pairwise fun a b =>
    logicID c.data (c.addr a) < logicID c.data (c.addr b)
  logicID_lt : ∀ e ∈ l, logicID c.data (c.addr e) < 2 ^ 31

variable {c : Col} {mbEx : ℕ} {added : List ℕ}

theorem ChainOk.logicID_mem (h : c.ChainOk mbEx added) {s e : ℕ}
    (he : e ∈ bucket c.pageSize.segmentOf added s) :
    s <<< c.pageSize.factor ≤ logicID c.data (c.addr e) ∧
      logicID c.data (c.addr e) < s <<< c.pageSize.factor + 2 ^ c.pageSize.factor := by
  obtain ⟨i, hi⟩ := getElem?_of_mem he
  have hlen := (List.getElem?_eq_some_iff.mp hi).1
  have hle := bucket_length_le c.pageSize h.nodup s
  rw [h.logicID_eq s i e hi]
  exact ⟨Nat.le_add_right _ _, Nat.add_lt_add_left (hlen.trans_le hle) _⟩

theorem ChainOk.logicID_increasing (h : c.ChainOk mbEx added) :
    (chain c.pageSize added).Pairwise fun a b =>
      logicID c.data (c.addr a) < logicID c.data (c.addr b) := by
  rw [chain, buckets, pairwise_flatMap]
  constructor
  · -- Within a segment the IDs are consecutive.
    intro s _
    rw [pairwise_iff_getElem]
    intro i j hi hj hij
    rw [h.logicID_eq s i _ (getElem?_eq_getElem hi), h.logicID_eq s j _ (getElem?_eq_getElem hj)]
    exact Nat.add_lt_add_left hij _
  · -- The IDs of different segments lie in different ranges.
    refine (pairwise_lt_range' 1).imp ?_
    intro s t hst a ha b hb
    refine (h.logicID_mem ha).2.trans_le (le_trans ?_ (h.logicID_mem hb).1)
    rw [Nat.shiftLeft_eq, Nat.shiftLeft_eq, ← Nat.succ_mul]
    exact Nat.mul_le_mul_right _ hst

theorem ChainOk.ordered (h : c.ChainOk mbEx added) :
    c.Ordered mbEx added (chain c.pageSize added) := by
  have hseg : ∀ e ∈ added, c.pageSize.segmentOf e < c.pageSize.maxSegmentNum := fun e he =>
    c.pageSize.segmentOf_lt ((h.mapped e he).trans_le h.pages_le)
  have hperm : (chain c.pageSize added).Perm added := perm_buckets hseg
  have hgroups : ∀ s < c.pageSize.maxSegmentNum,
      bucket c.pageSize.segmentOf (chain c.pageSize added) s =
        bucket c.pageSize.segmentOf added s := fun s hs => bucket_buckets hs
  refine ⟨?_, h.links.last_eq, ?_, hperm, hperm.nodup_iff.mpr h.nodup, pairwise_buckets, hgroups,
    ?_, ?_, ?_, h.logicID_increasing, ?_⟩
  · rw [h.links.first_eq]
    exact h.links.linked.forward
  · rw [h.links.last_eq]
    exact h.links.linked.backward
  · exact fun s hs => by rw [hgroups s hs, h.first_eq s hs]
  · exact fun s hs => by rw [hgroups s hs, h.last_eq s hs]
  · rw [h.usedSegNum_eq, usedBuckets, usedBuckets]
    refine congrArg Finset.card (Finset.filter_congr fun s hs => ?_)
    rw [hgroups s (Finset.mem_range.mp hs)]
  intro e he
  have hmem := hperm.mem_iff.mp he
  have hlt := (h.logicID_mem (mem_bucket.mpr ⟨hmem, rfl⟩)).2
  exact (hlt.trans_le (shift_factor_le c.pageSize (hseg e hmem))).trans (by decide)

end Col

/-- A collection with a new meta extent, to which the extents of the state were added one by one. -/
def chainSystem : System (Col × List ℕ) where
  init := fun (c, added) => added = [] ∧ c.pages ≤ maxPg ∧
    c.mb.firstExtentID = none ∧ c.mb.lastExtentID = none ∧
    ∃ mbEx m id, c.mb.mbExExtentID = some mbEx ∧ mbEx + c.pageSize.mbExSize ≤ c.pages ∧
      c.data = MetaExtent.init m (c.addr mbEx) c.pageSize.mbExSize id c.pageSize.maxSegmentNum
  step := fun (c, added) (c', added') => ∃ mbEx extID numPages mbID,
    c.mb.mbExExtentID = some mbEx ∧ c.Fresh mbEx added extID ∧ added' = added ++ [extID] ∧
    c' = ((c.initExtent extID numPages mbID).addExtent2Meta (some .exclusive) extID).2

namespace Col
variable {c : Col} {mbEx : ℕ} {added : List ℕ}

theorem ChainOk.initExtent (h : c.ChainOk mbEx added) {x : ℕ} (hx : c.Fresh mbEx added x)
    (numPages mbID : ℕ) : (c.initExtent x numPages mbID).ChainOk mbEx added := by
  have hb := c.pageSize.le_bytes
  have hsz : extentMetadataSz = 36 := rfl
  have hax := c.addr_apart hx.apart
  refine h.congr rfl le_rfl h.pages_le rfl rfl rfl
    (Extent.sameOn_init c.data (a := c.addr x) (by omega)) ?_
  intro e he
  have hne : e ≠ x := fun hex => hx.not_mem (hex ▸ he)
  have hpage : c.addr e + c.pageSize.bytes ≤ c.addr x ∨ c.addr x + c.pageSize.bytes ≤ c.addr e :=
    c.pageSize.page_apart hne
  exact Extent.sameOn_init c.data (a := c.addr x) (by omega)

theorem ChainOk.add (h : c.ChainOk mbEx added) {x : ℕ} (hx : c.Fresh mbEx added x)
    (numPages mbID : ℕ) :
    ∃ c', (c.initExtent x numPages mbID).addExtent2Meta (some .exclusive) x = (.ok, c') ∧
      c'.ChainOk mbEx (added ++ [x]) ∧ c'.pageSize = c.pageSize ∧ c'.pages = c.pages := by
  have hprev : (c.initExtent x numPages mbID).prev x = none :=
    Extent.prevExtent_init c.data (c.addr x)
  have hnext : (c.initExtent x numPages mbID).next x = none :=
    Extent.nextExtent_init c.data (c.addr x)
  obtain ⟨data, first, last, heq, hok, -⟩ := (h.initExtent hx numPages mbID).addExtent2Meta
    ⟨hx.not_mem, hx.mapped, hx.apart⟩ hprev hnext
  exact ⟨_, heq, hok, rfl, rfl⟩

theorem chainOk_invariant :
    chainSystem.Invariant fun s => ∃ mbEx, s.1.ChainOk mbEx s.2 where
  init := by
    rintro ⟨c, added⟩ ⟨rfl, hp, hf, hl, mbEx, m, id, hm, hle, hdata⟩
    exact ⟨mbEx, chainOk_nil hm hle hp hf hl hdata⟩
  step := by
    rintro ⟨c, added⟩ ⟨_, _⟩ ⟨mbEx, h⟩ ⟨mbEx', x, numPages, mbID, hm, hx, rfl, rfl⟩
    obtain rfl : mbEx = mbEx' := Option.some.inj (h.mbEx_eq.symm.trans hm)
    obtain ⟨c', heq, hok, -⟩ := h.add hx numPages mbID
    rw [heq]
    exact ⟨mbEx, hok⟩

end Col

/-- **The chain is in order** in every state of every run, and every addition succeeds. -/
theorem chain_ordered {c : Col} {added : List ℕ} (h : chainSystem.Reachable (c, added)) :
    ∃ mbEx l, c.mb.mbExExtentID = some mbEx ∧ c.Ordered mbEx added l ∧
      ∀ extID numPages mbID, c.Fresh mbEx added extID →
        ((c.initExtent extID numPages mbID).addExtent2Meta (some .exclusive) extID).1 = .ok := by
  obtain ⟨mbEx, hok⟩ := Col.chainOk_invariant.reachable h
  refine ⟨mbEx, _, hok.mbEx_eq, hok.ordered, fun x numPages mbID hx => ?_⟩
  obtain ⟨c', heq, -⟩ := hok.add hx numPages mbID
  rw [heq]

/-- Three extents, the second of which comes before the first. -/
theorem chain_ordered_three :
    ∃ c mbEx l, Col.Ordered c mbEx [40000, 9, 40001] l := by
  have h0 : chainSystem.Reachable
      (⟨.k4, 65536, MetaExtent.init (fun _ => 0) 0 9 0 4096,
        { MB.free with mbExExtentID := some 0 }, {}⟩, []) :=
    .init ⟨rfl, by decide, rfl, rfl, 0, fun _ => 0, 0, rfl, by decide, rfl⟩
  have hadd : ∀ (c : Col) (l : List ℕ) (x : ℕ), chainSystem.Reachable (c, l) →
      c.pageSize = .k4 → c.pages = 65536 → c.mb.mbExExtentID = some 0 →
      x ∉ l → 9 ≤ x → x < 65536 →
      ∃ c', chainSystem.Reachable (c', l ++ [x]) ∧
        c'.pageSize = .k4 ∧ c'.pages = 65536 ∧ c'.mb.mbExExtentID = some 0 := by
    intro c l x hr hps hp hm hmem hlo hhi
    obtain ⟨mbEx, hok⟩ := Col.chainOk_invariant.reachable hr
    obtain rfl : mbEx = 0 := Option.some.inj (hok.mbEx_eq.symm.trans hm)
    have hx : c.Fresh 0 l x := ⟨hmem, by omega, .inr (by rw [PageSize.mbExSize_eq]; omega)⟩
    obtain ⟨c', heq, hok', hps', hp'⟩ := hok.add hx 1 0
    refine ⟨c', .step hr ⟨0, x, 1, 0, hm, hx, rfl, ?_⟩, hps'.trans hps, hp'.trans hp, hok'.mbEx_eq⟩
    rw [heq]
  obtain ⟨c1, h1, hps1, hp1, hm1⟩ := hadd _ [] 40000 h0 rfl rfl rfl (by decide) (by decide)
    (by decide)
  obtain ⟨c2, h2, hps2, hp2, hm2⟩ := hadd c1 _ 9 h1 hps1 hp1 hm1 (by decide) (by decide)
    (by decide)
  obtain ⟨c3, h3, -⟩ := hadd c2 _ 40001 h2 hps2 hp2 hm2 (by decide) (by decide) (by decide)
  obtain ⟨mbEx, l, -, hord, -⟩ := chain_ordered h3
  exact ⟨c3, mbEx, l, hord⟩

end Novachains.Dms
