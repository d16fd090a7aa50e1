import Mathlib.Order.Interval.Finset.Nat
import Novachains.Dms.Col
import Novachains.Lib.Buckets
import Novachains.Lib.Links

/-!
# The chain of extents

The extents of a collection are linked in both directions, in order of their segments.
`addExtent2Meta` enters a new extent into the meta extent, which tells where the extents
of its segment end, and links it in there: at the head, at the tail or in the middle of
the chain.
-/

namespace Novachains.Dms

open Lib List Mem Extent

namespace Col

/-- The search of `addExtent2Meta` for the last extent of a lower segment. -/
def findPrev (m : Mem) (mbEx : ℕ) : ℕ → Option ℕ
  | 0 => none
  | segID + 1 =>
    match MetaExtent.lastExtentID m mbEx segID with
    | some extID => some extID
    | none => findPrev m mbEx segID

def setPrevIfFound (m : Mem) (a : ℕ) : Option ℕ → Mem
  | some extID => setPrevExtent m a (some extID)
  | none => m

/-- The end of `addExtent2Meta`: link the extent after `prev`, or at the head of the chain. -/
def linkExtent (c : Col) (extID : ℕ) : Option ℕ → Rc × Col
  | some prev =>
    match c.extentAddr (some prev) with
    | none => (.sys, c)
    | some prevExt =>
      match nextExtent c.data prevExt with
      | some next =>
        let data := setNextExtent c.data (c.addr extID) (some next)
        match c.extentAddr (some next) with
        | none => (.sys, { c with data := data })
        | some nextExt =>
          let data := setPrevExtent data nextExt (some extID)
          (.ok, { c with data := setNextExtent data prevExt (some extID) })
      | none =>
        (.ok, { c with
          data := setNextExtent c.data prevExt (some extID)
          mb := { c.mb with lastExtentID := some extID } })
  | none =>
    let mb := { c.mb with
      firstExtentID := some extID
      lastExtentID := if c.mb.lastExtentID = none then some extID else c.mb.lastExtentID }
    match c.mb.firstExtentID with
    | some next =>
      let data := setNextExtent c.data (c.addr extID) (some next)
      match c.extentAddr (some next) with
      | none => (.sys, { c with data := data })
      | some nextExt =>
        (.ok, { c with data := setPrevExtent data nextExt (some extID), mb := mb })
    | none => (.ok, { c with mb := mb })

/-- `addExtent2Meta`; `lock` is the lock the context holds. -/
def addExtent2Meta (c : Col) (lock : Option Latch) (extID : ℕ) : Rc × Col :=
  let segID := c.pageSize.segmentOf extID
  let extent := c.addr extID
  if lock ≠ some .exclusive then (.sys, c)
  else
    match c.extentAddr c.mb.mbExExtentID with
    | none => (.sys, c)
    | some mbEx =>
      if segID ≥ MetaExtent.segNum c.data mbEx then (.sys, c)
      else
        match MetaExtent.lastExtentID c.data mbEx segID with
        | none =>
          let data := setLogicID c.data extent (segID <<< c.pageSize.factor)
          let data := MetaExtent.setFirstExtentID data mbEx segID (some extID)
          let data := MetaExtent.setLastExtentID data mbEx segID (some extID)
          let data := MetaExtent.setUsedSegNum data mbEx (MetaExtent.usedSegNum data mbEx + 1)
          let prev := if c.mb.firstExtentID = none then none else findPrev data mbEx segID
          { c with data := setPrevIfFound data extent prev }.linkExtent extID prev
        | some last =>
          let data := MetaExtent.setLastExtentID c.data mbEx segID (some extID)
          let data := setPrevExtent data extent (some last)
          match c.extentAddr (some last) with
          | none => (.sys, { c with data := data })
          | some prevExt =>
            let data := setLogicID data extent (logicID data prevExt + 1)
            { c with data := data }.linkExtent extID (some last)

def next (c : Col) (e : ℕ) : Option ℕ := nextExtent c.data (c.addr e)

def prev (c : Col) (e : ℕ) : Option ℕ := prevExtent c.data (c.addr e)

section Fields
variable (p : PageSize) (m : Mem) {e x : ℕ} {v : Option ℕ}

theorem extentID_lt {y : ℕ} (hy : y < maxPg) : ∀ i ∈ some y, i < 256 ^ 4 - 1 := by
  rintro i ⟨⟩
  exact hy.trans (by decide)

theorem nextExtent_setNextExtent_of_ne (h : e ≠ x) :
    nextExtent (setNextExtent m (x * p.bytes) v) (e * p.bytes) =
      nextExtent m (e * p.bytes) :=
  readOpt_congr (m.sameOn_writeOpt (by have := p.page_apart h; have := p.le_bytes; omega))

theorem prevExtent_setPrevExtent_of_ne (h : e ≠ x) :
    prevExtent (setPrevExtent m (x * p.bytes) v) (e * p.bytes) =
      prevExtent m (e * p.bytes) :=
  readOpt_congr (m.sameOn_writeOpt (by have := p.page_apart h; have := p.le_bytes; omega))

@[simp] theorem nextExtent_setPrevExtent :
    nextExtent (setPrevExtent m (x * p.bytes) v) (e * p.bytes) =
      nextExtent m (e * p.bytes) := by
  refine readOpt_congr (m.sameOn_writeOpt ?_)
  rcases eq_or_ne e x with rfl | h
  · omega
  · have := p.page_apart h; have := p.le_bytes; omega

@[simp] theorem prevExtent_setNextExtent :
    prevExtent (setNextExtent m (x * p.bytes) v) (e * p.bytes) =
      prevExtent m (e * p.bytes) := by
  refine readOpt_congr (m.sameOn_writeOpt ?_)
  rcases eq_or_ne e x with rfl | h
  · omega
  · have := p.page_apart h; have := p.le_bytes; omega

end Fields

/-- What linking in the extent `x` between `a` and `b` does to the memory. -/
def relink (m : Mem) (p : PageSize) (x : ℕ) (a b : Option ℕ) : Mem :=
  let m := match b with
    | some n =>
      setPrevExtent (setNextExtent m (x * p.bytes) (some n)) (n * p.bytes) (some x)
    | none => m
  match a with
  | some q => setNextExtent m (q * p.bytes) (some x)
  | none => m

section Relink
variable (m : Mem) (p : PageSize) {x e : ℕ} {a b : Option ℕ}

theorem nextExtent_relink_self (ha : a ≠ some x) (hb : ∀ i ∈ b, i < 256 ^ 4 - 1)
    (h : nextExtent m (x * p.bytes) = none) :
    nextExtent (relink m p x a b) (x * p.bytes) = b := by
  rcases a with _ | q <;> rcases b with _ | n
  · exact h
  · exact (nextExtent_setPrevExtent p _).trans (readOpt_writeOpt_same _ _ _ hb)
  · exact (nextExtent_setNextExtent_of_ne p m fun hq => ha (congrArg some hq.symm)).trans h
  · exact (nextExtent_setNextExtent_of_ne p _ fun hq => ha (congrArg some hq.symm)).trans
      ((nextExtent_setPrevExtent p _).trans (readOpt_writeOpt_same _ _ _ hb))

theorem nextExtent_relink_of_mem (hx : x < maxPg) (ha : e ∈ a) :
    nextExtent (relink m p x a b) (e * p.bytes) = some x := by
  obtain rfl : a = some e := ha
  exact readOpt_writeOpt_same _ _ _ (extentID_lt hx)

theorem nextExtent_relink_of_ne (hx : e ≠ x) (ha : some e ≠ a) :
    nextExtent (relink m p x a b) (e * p.bytes) = nextExtent m (e * p.bytes) := by
  have hb : ∀ n, nextExtent (setPrevExtent
      (setNextExtent m (x * p.bytes) (some n)) (n * p.bytes) (some x)) (e * p.bytes) =
      nextExtent m (e * p.bytes) := fun n =>
    (nextExtent_setPrevExtent p _).trans (nextExtent_setNextExtent_of_ne p m hx)
  rcases a with _ | q <;> rcases b with _ | n
  · rfl
  · exact hb n
  · exact nextExtent_setNextExtent_of_ne p m fun hq => ha (congrArg some hq)
  · exact (nextExtent_setNextExtent_of_ne p _ fun hq => ha (congrArg some hq)).trans (hb n)

theorem prevExtent_relink_of_mem (hx : x < maxPg) (hb : e ∈ b) :
    prevExtent (relink m p x a b) (e * p.bytes) = some x := by
  obtain rfl : b = some e := hb
  rcases a with _ | q
  · exact readOpt_writeOpt_same _ _ _ (extentID_lt hx)
  · exact (prevExtent_setNextExtent p _).trans (readOpt_writeOpt_same _ _ _ (extentID_lt hx))

theorem prevExtent_relink_of_ne (hb : some e ≠ b) :
    prevExtent (relink m p x a b) (e * p.bytes) = prevExtent m (e * p.bytes) := by
  have h : ∀ n, b = some n → prevExtent (setPrevExtent
      (setNextExtent m (x * p.bytes) (some n)) (n * p.bytes) (some x)) (e * p.bytes) =
      prevExtent m (e * p.bytes) := fun n hn =>
    (prevExtent_setPrevExtent_of_ne p _ fun he => hb (by rw [he, hn])).trans
      (prevExtent_setNextExtent p m)
  rcases a with _ | q <;> rcases b with _ | n
  · rfl
  · exact h n rfl
  · exact prevExtent_setNextExtent p m
  · exact (prevExtent_setNextExtent p _).trans (h n rfl)

theorem sameOn_relink {y n : ℕ}
    (h : ∀ e, e = x ∨ some e = a ∨ some e = b →
      y + n ≤ e * p.bytes + 12 ∨ e * p.bytes + 20 ≤ y) :
    m.SameOn (relink m p x a b) y n := by
  have hx := h x (.inl rfl)
  have hb : ∀ i, b = some i → m.SameOn (setPrevExtent
      (setNextExtent m (x * p.bytes) (some i)) (i * p.bytes) (some x)) y n := fun i hi => by
    have := h i (.inr (.inr hi.symm))
    exact m.sameOn_writeOpt.writeOpt
  have ha : ∀ q, a = some q → ∀ m' : Mem,
      m'.SameOn (setNextExtent m' (q * p.bytes) (some x)) y n := fun q hq m' => by
    have := h q (.inr (.inl hq.symm))
    exact m'.sameOn_writeOpt
  rcases a with _ | q <;> rcases b with _ | i
  · exact .rfl
  · exact hb i rfl
  · exact ha q rfl m
  · exact (hb i rfl).trans (ha q rfl _)

end Relink

/-- The collection with other bytes and other ends of its chain. -/
abbrev withEnds (c : Col) (data : Mem) (first last : Option ℕ) : Col :=
  { c with data := data, mb := { c.mb with firstExtentID := first, lastExtentID := last } }

/-- The chain of the collection is `l`. -/
structure Links (c : Col) (l : List ℕ) : Prop where
  first_eq : c.mb.firstExtentID = l.head?
  last_eq : c.mb.lastExtentID = l.getLast?
  linked : Linked c.next c.prev l

theorem linkExtent_eq {c : Col} {k l : List ℕ} {x : ℕ} (h : c.Links (k ++ l))
    (hm : ∀ e ∈ k ++ l, e < c.pages) :
    c.linkExtent x k.getLast? =
      (.ok, c.withEnds (relink c.data c.pageSize x k.getLast? l.head?) (k ++ x :: l).head?
        (k ++ x :: l).getLast?) := by
  have hfirst := h.first_eq
  have hlast := h.last_eq
  rcases eq_nil_or_concat' k with rfl | ⟨k, a, rfl⟩
  · cases l with
    | nil => simp_all [linkExtent, relink]
    | cons b l =>
      have hb : b < c.pages := hm b (by simp)
      simp_all [linkExtent, relink, extentAddr_of_lt, addr, getLast?_cons]
  · have ha : a < c.pages := hm a (by simp)
    -- The pointer of the predecessor leads to what follows.
    have hnext : nextExtent c.data (c.addr a) = l.head? := by
      obtain ⟨m, hk, hl⟩ := path_append.mp h.linked.forward
      obtain rfl := hl.head?
      exact (path_concat.mp hk).2
    have hhead : (k ++ a :: x :: l).head? = (k ++ a :: l).head? := by cases k <;> rfl
    cases l with
    | nil => simp_all [linkExtent, relink, extentAddr_of_lt, addr]
    | cons b l =>
      have hb : b < c.pages := hm b (by simp)
      -- The ends of the chain stay.
      have hf : (k ++ [a] ++ x :: b :: l).head? = c.mb.firstExtentID := by
        rw [hfirst]; cases k <;> rfl
      have hl : (k ++ [a] ++ x :: b :: l).getLast? = c.mb.lastExtentID := by
        rw [hlast]; simp [getLast?_cons]
      rw [hf, hl]
      simp [linkExtent, relink, extentAddr_of_lt, ha, hb, hnext]
      rfl

theorem Links.relink {c : Col} {k l : List ℕ} {x : ℕ} (h : c.Links (k ++ l))
    (hd : (k ++ x :: l).Nodup) (hm : ∀ e ∈ k ++ x :: l, e < maxPg)
    (hprev : c.prev x = k.getLast?) (hnext : c.next x = none) :
    Links (c.withEnds (Col.relink c.data c.pageSize x k.getLast? l.head?) (k ++ x :: l).head?
      (k ++ x :: l).getLast?) (k ++ x :: l) := by
  have hx : x < maxPg := hm x (by simp)
  have hnot : x ∉ k ++ l ∧ (k ++ l).Nodup := nodup_cons.mp (List.perm_middle.nodup_iff.mp hd)
  have hne : ∀ e ∈ k ++ l, e ≠ x := fun e he hex => hnot.1 (hex ▸ he)
  refine ⟨rfl, rfl, h.linked.insert hnot.2 ?_ ?_ ?_ ?_ ?_ ?_⟩
  · refine nextExtent_relink_self c.data c.pageSize ?_ ?_ hnext
    · exact fun he => hne x (mem_append_left l (mem_of_getLast? he)) rfl
    · exact fun i hi => (hm i (by simp [mem_of_head? hi])).trans (by decide)
  · refine (prevExtent_relink_of_ne c.data c.pageSize ?_).trans hprev
    exact fun he => hne x (mem_append_right k (mem_of_head? he.symm)) rfl
  · exact fun e he => nextExtent_relink_of_mem c.data c.pageSize hx he
  · exact fun e he => prevExtent_relink_of_mem c.data c.pageSize hx he
  · exact fun e he hlast => nextExtent_relink_of_ne c.data c.pageSize (hne e he) hlast
  · exact fun e _ hhead => prevExtent_relink_of_ne c.data c.pageSize hhead

/-! ## The order of the chain -/

/-- The extents in order of their segments, those of one segment in order of addition. -/
def chain (p : PageSize) (added : List ℕ) : List ℕ := buckets p.segmentOf added 0 p.maxSegmentNum

/-- What `addExtent2Meta` keeps for the extents added so far: links, meta extent and logical IDs. -/
structure ChainOk (c : Col) (mbEx : ℕ) (added : List ℕ) : Prop where
  mbEx_eq : c.mb.mbExExtentID = some mbEx
  mbEx_le : mbEx + c.pageSize.mbExSize ≤ c.pages
  pages_le : c.pages ≤ maxPg
  nodup : added.Nodup
  mapped : ∀ e ∈ added, e < c.pages
  apart : ∀ e ∈ added, e < mbEx ∨ mbEx + c.pageSize.mbExSize ≤ e
  links : c.Links (chain c.pageSize added)
  segNum_eq : MetaExtent.segNum c.data (c.addr mbEx) = c.pageSize.maxSegmentNum
  usedSegNum_eq : MetaExtent.usedSegNum c.data (c.addr mbEx) =
    usedBuckets c.pageSize.segmentOf added c.pageSize.maxSegmentNum
  first_eq : ∀ s < c.pageSize.maxSegmentNum, MetaExtent.firstExtentID c.data (c.addr mbEx) s =
    (bucket c.pageSize.segmentOf added s).head?
  last_eq : ∀ s < c.pageSize.maxSegmentNum, MetaExtent.lastExtentID c.data (c.addr mbEx) s =
    (bucket c.pageSize.segmentOf added s).getLast?
  logicID_eq : ∀ s i e, (bucket c.pageSize.segmentOf added s)[i]? = some e →
    logicID c.data (c.addr e) = s <<< c.pageSize.factor + i

theorem findPrev_eq {p : PageSize} {m : Mem} {a : ℕ} {added : List ℕ} (s : ℕ)
    (h : ∀ t < s, MetaExtent.lastExtentID m a t = (bucket p.segmentOf added t).getLast?) :
    findPrev m a s = (buckets p.segmentOf added 0 s).getLast? := by
  induction s with
  | zero => rfl
  | succ s ih =>
    rw [findPrev, h s (Nat.lt_succ_self s), ih fun t ht => h t (ht.trans (Nat.lt_succ_self s)),
      buckets_append, buckets_one, zero_add, getLast?_append]
    cases (bucket p.segmentOf added s).getLast? <;> rfl

/-- The bytes of a meta extent are the same, and so is what it says. -/
theorem sameMeta {p : PageSize} {m m' : Mem} {a : ℕ} (h : m.SameOn m' a (9 * p.bytes)) :
    MetaExtent.segNum m' a = MetaExtent.segNum m a ∧
    MetaExtent.usedSegNum m' a = MetaExtent.usedSegNum m a ∧
    ∀ s < p.maxSegmentNum, MetaExtent.firstExtentID m' a s = MetaExtent.firstExtentID m a s ∧
      MetaExtent.lastExtentID m' a s = MetaExtent.lastExtentID m a s := by
  have hb := p.le_bytes
  have hn := p.maxSegmentNum_eq
  refine ⟨read_congr (h.mono (Nat.le_add_right a 8) (by omega)),
    read_congr (h.mono (Nat.le_add_right a 12) (by omega)), fun s hs => ⟨?_, ?_⟩⟩
  · exact readOpt_congr (h.mono (b := a + 16 + 8 * s) (by omega) (by omega))
  · exact readOpt_congr (h.mono (b := a + 20 + 8 * s) (by omega) (by omega))

/-- The bytes from `y` on are neither in the meta extent nor among the links of the
given extents. -/
structure OffChain (c : Col) (mbEx : ℕ) (l : List ℕ) (y n : ℕ) : Prop where
  mbEx : y + n ≤ c.addr mbEx + 12 ∨ c.addr mbEx + 9 * c.pageSize.bytes ≤ y
  links : ∀ e ∈ l, y + n ≤ c.addr e + 8 ∨ c.addr e + 20 ≤ y

theorem addr_apart (c : Col) {e mbEx : ℕ} (h : e < mbEx ∨ mbEx + c.pageSize.mbExSize ≤ e) :
    c.addr e + 4096 ≤ c.addr mbEx ∨ c.addr mbEx + 9 * c.pageSize.bytes ≤ c.addr e := by
  have hb := c.pageSize.le_bytes
  simp only [addr, PageSize.mbExSize_eq] at h ⊢
  rcases h with h | h
  · have := Nat.mul_le_mul_right c.pageSize.bytes h
    rw [Nat.succ_mul] at this
    omega
  · have := Nat.mul_le_mul_right c.pageSize.bytes h
    rw [add_mul] at this
    omega

/-- The extent `x` is in the meta extent and knows its predecessor and its logical ID. -/
structure Entered (c : Col) (mbEx : ℕ) (added : List ℕ) (x : ℕ) (data : Mem) : Prop where
  same : ∀ y n, (y + n ≤ c.addr mbEx + 12 ∨ c.addr mbEx + 9 * c.pageSize.bytes ≤ y) →
    (y + n ≤ c.addr x + 8 ∨ c.addr x + 16 ≤ y) → c.data.SameOn data y n
  prev_new : prevExtent data (c.addr x) =
    (buckets c.pageSize.segmentOf added 0 (c.pageSize.segmentOf x + 1)).getLast?
  usedSegNum_eq : MetaExtent.usedSegNum data (c.addr mbEx) =
    usedBuckets c.pageSize.segmentOf (added ++ [x]) c.pageSize.maxSegmentNum
  first_eq : ∀ s < c.pageSize.maxSegmentNum, MetaExtent.firstExtentID data (c.addr mbEx) s =
    (bucket c.pageSize.segmentOf (added ++ [x]) s).head?
  last_eq : ∀ s < c.pageSize.maxSegmentNum, MetaExtent.lastExtentID data (c.addr mbEx) s =
    (bucket c.pageSize.segmentOf (added ++ [x]) s).getLast?
  logicID_new : logicID data (c.addr x) = c.pageSize.segmentOf x <<< c.pageSize.factor +
    (bucket c.pageSize.segmentOf added (c.pageSize.segmentOf x)).length

/-- An extent that can be added: mapped, outside the meta extent and not in the chain. -/
structure Fresh (c : Col) (mbEx : ℕ) (added : List ℕ) (x : ℕ) : Prop where
  not_mem : x ∉ added
  mapped : x < c.pages
  apart : x < mbEx ∨ mbEx + c.pageSize.mbExSize ≤ x

section Add
variable {c : Col} {mbEx x : ℕ} {added : List ℕ}

theorem ChainOk.fresh_lt (h : c.ChainOk mbEx added) (hx : c.Fresh mbEx added x) :
    x < maxPg ∧ c.pageSize.segmentOf x < c.pageSize.maxSegmentNum :=
  have hxp := hx.mapped.trans_le h.pages_le
  ⟨hxp, c.pageSize.segmentOf_lt hxp⟩

theorem ChainOk.addr_old {e : ℕ} (h : c.ChainOk mbEx added) (hx : c.Fresh mbEx added x)
    (he : e ∈ added) :
    (c.addr e + 4096 ≤ c.addr mbEx ∨ c.addr mbEx + 9 * c.pageSize.bytes ≤ c.addr e) ∧
      (c.addr e + c.pageSize.bytes ≤ c.addr x ∨ c.addr x + c.pageSize.bytes ≤ c.addr e) :=
  ⟨c.addr_apart (h.apart e he), c.pageSize.page_apart (ne_of_mem_of_not_mem he hx.not_mem)⟩

theorem ChainOk.link {data : Mem} (h : c.ChainOk mbEx added) (hx : c.Fresh mbEx added x)
    (hnext : c.next x = none) (he : c.Entered mbEx added x data) :
    ∃ data' first last,
      { c with data := data }.linkExtent x
          (buckets c.pageSize.segmentOf added 0 (c.pageSize.segmentOf x + 1)).getLast? =
        (.ok, c.withEnds data' first last) ∧
      ChainOk (c.withEnds data' first last) mbEx (added ++ [x]) ∧
      ∀ y n, c.OffChain mbEx (x :: added) y n → c.data.SameOn data' y n := by
  have hseg : c.pageSize.segmentOf x < c.pageSize.maxSegmentNum :=
    c.pageSize.segmentOf_lt (hx.mapped.trans_le h.pages_le)
  obtain ⟨k, hk⟩ : ∃ k, k = buckets c.pageSize.segmentOf added 0 (c.pageSize.segmentOf x + 1) :=
    ⟨_, rfl⟩
  obtain ⟨l, hl⟩ : ∃ l, l = buckets c.pageSize.segmentOf added (c.pageSize.segmentOf x + 1)
    (c.pageSize.maxSegmentNum - (c.pageSize.segmentOf x + 1)) := ⟨_, rfl⟩
  have hold : chain c.pageSize added = k ++ l := by
    rw [chain, buckets_split hseg, hk, hl]
  have hnew : chain c.pageSize (added ++ [x]) = k ++ x :: l := by
    rw [chain, buckets_concat hseg, hk, hl]
  have hmem : ∀ e ∈ k ++ l, e ∈ added := fun e hem => by
    rw [← hold, chain, mem_buckets] at hem
    exact hem.1
  have happ : ∀ e ∈ added ++ [x], e < c.pages ∧
      (c.addr e + 4096 ≤ c.addr mbEx ∨ c.addr mbEx + 9 * c.pageSize.bytes ≤ c.addr e) := by
    intro e hem
    rcases mem_append.mp hem with hem | hem
    · exact ⟨h.mapped e hem, c.addr_apart (h.apart e hem)⟩
    · obtain rfl := mem_singleton.mp hem
      exact ⟨hx.mapped, c.addr_apart hx.apart⟩
  have hnodup : (added ++ [x]).Nodup :=
    nodup_append.mpr ⟨h.nodup, nodup_singleton x, fun a ha b hb hab =>
      hx.not_mem (by rw [← mem_singleton.mp hb, ← hab]; exact ha)⟩
  have hperm : (k ++ x :: l).Perm (added ++ [x]) := by
    rw [← hnew]
    exact perm_buckets fun e hem => c.pageSize.segmentOf_lt ((happ e hem).1.trans_le h.pages_le)
  have hb := c.pageSize.le_bytes
  have hax := c.addr_apart hx.apart
  have hword : ∀ e ∈ added, ∀ i, i + 4 ≤ 4096 → c.data.SameOn data (c.addr e + i) 4 := by
    intro e hem i hi
    have h1 := h.addr_old hx hem
    exact he.same (c.addr e + i) 4 (by omega) (by omega)
  have hlinks : Links { c with data := data } (k ++ l) := by
    rw [← hold]
    refine ⟨h.links.first_eq, h.links.last_eq, h.links.linked.congr ?_ ?_⟩
    · exact fun e hem => readOpt_congr (hword e (hmem e (hold ▸ hem)) 16 (by decide))
    · exact fun e hem => readOpt_congr (hword e (hmem e (hold ▸ hem)) 12 (by decide))
  -- Linking touches only the pointers of extents of the chain.
  have hsame : ∀ y n, (∀ e ∈ added ++ [x], y + n ≤ c.addr e + 12 ∨ c.addr e + 20 ≤ y) →
      data.SameOn (Col.relink data c.pageSize x k.getLast? l.head?) y n := by
    intro y n hy
    refine sameOn_relink data c.pageSize fun e hor => hy e (hperm.mem_iff.mp ?_)
    rcases hor with rfl | hlast | hhead
    · simp
    · simp [mem_of_getLast? hlast.symm]
    · simp [mem_of_head? hhead.symm]
  obtain ⟨hsegNum, hused, hends⟩ := sameMeta (hsame (c.addr mbEx) (9 * c.pageSize.bytes) fun e hem => by
    have := (happ e hem).2
    omega)
  have hid : ∀ e ∈ added ++ [x],
      logicID (Col.relink data c.pageSize x k.getLast? l.head?) (c.addr e) =
        logicID data (c.addr e) := by
    intro e hem
    refine read_congr (hsame _ _ fun e' hem' => ?_)
    rcases eq_or_ne e e' with rfl | hne
    · omega
    have := c.pageSize.page_apart hne
    simp only [addr]
    omega
  have hid_old : ∀ e ∈ added, logicID data (c.addr e) = logicID c.data (c.addr e) :=
    fun e hem => read_congr (hword e hem 8 (by decide))
  rw [← hk]
  refine ⟨_, _, _, linkExtent_eq hlinks fun e hem => h.mapped e (hmem e hem), ?_, ?_⟩
  · refine ⟨h.mbEx_eq, h.mbEx_le, h.pages_le, hnodup, fun e hem => (happ e hem).1, ?_, ?_,
      hsegNum.trans ((read_congr (he.same _ _ (by omega) (by omega))).trans h.segNum_eq),
      hused.trans he.usedSegNum_eq,
      fun s hs => (hends s hs).1.trans (he.first_eq s hs),
      fun s hs => (hends s hs).2.trans (he.last_eq s hs), ?_⟩
    · intro e hem
      rcases mem_append.mp hem with hem | hem
      · exact h.apart e hem
      · rw [mem_singleton.mp hem]
        exact hx.apart
    · change Links _ (chain c.pageSize (added ++ [x]))
      rw [hnew]
      refine hlinks.relink (hperm.nodup_iff.mpr hnodup) (fun e hem => ?_) ?_ ?_
      · exact (happ e (hperm.mem_iff.mp hem)).1.trans_le h.pages_le
      · rw [hk]
        exact he.prev_new
      · exact (readOpt_congr (he.same (c.addr x + 16) 4 (by omega) (by omega))).trans hnext
    · intro s i e hi
      change (bucket c.pageSize.segmentOf (added ++ [x]) s)[i]? = some e at hi
      have hem := (mem_bucket.mp (mem_of_getElem? hi)).1
      refine (hid e hem).trans ?_
      by_cases hs : c.pageSize.segmentOf x = s
      · subst hs
        rw [bucket_concat_of_eq rfl, getElem?_append] at hi
        split at hi
        · rw [hid_old e (mem_bucket.mp (mem_of_getElem? hi)).1]
          exact h.logicID_eq _ i e hi
        rw [getElem?_singleton] at hi
        split at hi
        · cases hi
          rw [he.logicID_new]
          exact congrArg _ (by omega)
        · cases hi
      · rw [bucket_concat_of_ne hs] at hi
        rw [hid_old e (mem_bucket.mp (mem_of_getElem? hi)).1]
        exact h.logicID_eq _ i e hi
  · intro y n hy
    have hy' : ∀ e ∈ added ++ [x], y + n ≤ c.addr e + 8 ∨ c.addr e + 20 ≤ y := fun e hem =>
      hy.links e (by rw [mem_cons, or_comm]; simpa using hem)
    have hyx := hy' x (by simp)
    refine (he.same y n hy.mbEx (by omega)).trans (hsame y n fun e hem => ?_)
    have := hy' e hem
    omega

theorem shift_factor_le (p : PageSize) {s : ℕ} (hs : s < p.maxSegmentNum) :
    s <<< p.factor + 2 ^ p.factor ≤ 2 ^ 30 := by
  have h30 : p.maxSegmentNum * 2 ^ p.factor = 2 ^ 30 := by cases p <;> decide
  rw [Nat.shiftLeft_eq, ← Nat.succ_mul, ← h30]
  exact Nat.mul_le_mul_right _ hs

theorem bucket_length_le (p : PageSize) {l : List ℕ} (h : l.Nodup) (s : ℕ) :
    (bucket p.segmentOf l s).length ≤ 2 ^ p.factor := by
  have hsub : (bucket p.segmentOf l s).toFinset ⊆
      Finset.Ico (s * p.segmentPages) ((s + 1) * p.segmentPages) := by
    intro e he
    have hes := (mem_bucket.mp (List.mem_toFinset.mp he)).2
    rw [p.segmentOf_eq] at hes
    rw [Finset.mem_Ico, ← hes]
    exact ⟨Nat.div_mul_le_self _ _, Nat.lt_mul_of_div_lt (Nat.lt_succ_self _) p.segmentPages_pos⟩
  have hcard := Finset.card_le_card hsub
  have hnodup : (bucket p.segmentOf l s).Nodup := h.filter _
  rw [toFinset_card_of_nodup hnodup, Nat.card_Ico, Nat.succ_mul, Nat.add_sub_cancel_left] at hcard
  exact hcard.trans (by cases p <;> decide)

def enterFirst (c : Col) (mbEx x : ℕ) : Mem :=
  let data := setLogicID c.data (c.addr x) (c.pageSize.segmentOf x <<< c.pageSize.factor)
  let data := MetaExtent.setFirstExtentID data (c.addr mbEx) (c.pageSize.segmentOf x) (some x)
  let data := MetaExtent.setLastExtentID data (c.addr mbEx) (c.pageSize.segmentOf x) (some x)
  MetaExtent.setUsedSegNum data (c.addr mbEx) (MetaExtent.usedSegNum data (c.addr mbEx) + 1)

theorem sameOn_enterFirst {y n : ℕ} (hs : c.pageSize.segmentOf x < c.pageSize.maxSegmentNum)
    (hy : y + n ≤ c.addr mbEx + 12 ∨ c.addr mbEx + 9 * c.pageSize.bytes ≤ y)
    (hx : y + n ≤ c.addr x + 8 ∨ c.addr x + 12 ≤ y) : c.data.SameOn (c.enterFirst mbEx x) y n := by
  have hb := c.pageSize.le_bytes
  rw [c.pageSize.maxSegmentNum_eq] at hs
  exact c.data.sameOn_write.writeOpt.writeOpt.write

section Apart
variable (hax : c.addr x + 4096 ≤ c.addr mbEx ∨ c.addr mbEx + 9 * c.pageSize.bytes ≤ c.addr x)
include hax

theorem firstExtentID_enterFirst {t : ℕ} (hx : x < maxPg) (ht : t < c.pageSize.maxSegmentNum) :
    MetaExtent.firstExtentID (c.enterFirst mbEx x) (c.addr mbEx) t =
      if t = c.pageSize.segmentOf x then some x
      else MetaExtent.firstExtentID c.data (c.addr mbEx) t := by
  have hb := c.pageSize.le_bytes
  have hn := c.pageSize.maxSegmentNum_eq
  refine (readOpt_congr (sameOn_writeOpt _).write).trans ?_
  split
  next h =>
    rw [h]
    exact readOpt_writeOpt_same _ _ _ (extentID_lt hx)
  next h =>
    exact readOpt_congr (sameOn_write _).writeOpt

theorem lastExtentID_enterFirst {t : ℕ} (hx : x < maxPg) (ht : t < c.pageSize.maxSegmentNum) :
    MetaExtent.lastExtentID (c.enterFirst mbEx x) (c.addr mbEx) t =
      if t = c.pageSize.segmentOf x then some x
      else MetaExtent.lastExtentID c.data (c.addr mbEx) t := by
  have hb := c.pageSize.le_bytes
  have hn := c.pageSize.maxSegmentNum_eq
  refine (readOpt_congr (sameOn_write _)).trans ?_
  split
  next h =>
    rw [h]
    exact readOpt_writeOpt_same _ _ _ (extentID_lt hx)
  next h =>
    exact readOpt_congr (sameOn_write _).writeOpt.writeOpt

theorem usedSegNum_enterFirst (h : MetaExtent.usedSegNum c.data (c.addr mbEx) < 2 ^ 31) :
    MetaExtent.usedSegNum (c.enterFirst mbEx x) (c.addr mbEx) =
      MetaExtent.usedSegNum c.data (c.addr mbEx) + 1 := by
  have hb := c.pageSize.le_bytes
  refine (read_write_same _ _ _ _).trans ?_
  have hsame : MetaExtent.usedSegNum (MetaExtent.setLastExtentID (MetaExtent.setFirstExtentID
      (setLogicID c.data (c.addr x) (c.pageSize.segmentOf x <<< c.pageSize.factor))
      (c.addr mbEx) (c.pageSize.segmentOf x) (some x)) (c.addr mbEx) (c.pageSize.segmentOf x)
      (some x)) (c.addr mbEx) = MetaExtent.usedSegNum c.data (c.addr mbEx) :=
    read_congr (sameOn_write _).writeOpt.writeOpt
  rw [hsame, Nat.mod_eq_of_lt (by omega)]

theorem logicID_enterFirst (hs : c.pageSize.segmentOf x < c.pageSize.maxSegmentNum) :
    logicID (c.enterFirst mbEx x) (c.addr x) =
      c.pageSize.segmentOf x <<< c.pageSize.factor := by
  have hb := c.pageSize.le_bytes
  have hlt : c.pageSize.segmentOf x <<< c.pageSize.factor < 256 ^ 4 :=
    (Nat.le_of_add_right_le (shift_factor_le c.pageSize hs)).trans_lt (by decide)
  rw [c.pageSize.maxSegmentNum_eq] at hs
  exact (read_congr (sameOn_writeOpt _).writeOpt.write).trans
    ((read_write_same _ _ _ _).trans (Nat.mod_eq_of_lt hlt))

end Apart

/-- **The first extent of a segment** comes behind the last extent of the lower segments. -/
theorem ChainOk.enterFirst (h : c.ChainOk mbEx added) (hx : c.Fresh mbEx added x)
    (hprev : c.prev x = none)
    (hempty : bucket c.pageSize.segmentOf added (c.pageSize.segmentOf x) = []) {prev : Option ℕ}
    (hp : prev = (buckets c.pageSize.segmentOf added 0 (c.pageSize.segmentOf x + 1)).getLast?) :
    c.Entered mbEx added x (setPrevIfFound (c.enterFirst mbEx x) (c.addr x) prev) := by
  have hb := c.pageSize.le_bytes
  have hn := c.pageSize.maxSegmentNum_eq
  obtain ⟨hxp, hs⟩ := h.fresh_lt hx
  have hax := c.addr_apart hx.apart
  -- Besides the logical ID only the backward pointer of the new extent changes.
  have hset : ∀ y n, y + n ≤ c.addr x + 12 ∨ c.addr x + 16 ≤ y →
      (c.enterFirst mbEx x).SameOn (setPrevIfFound (c.enterFirst mbEx x) (c.addr x) prev) y n := by
    intro y n hy
    cases prev with
    | none => exact .rfl
    | some q => exact sameOn_writeOpt _ hy
  have hsame : ∀ y n, (y + n ≤ c.addr mbEx + 12 ∨ c.addr mbEx + 9 * c.pageSize.bytes ≤ y) →
      (y + n ≤ c.addr x + 8 ∨ c.addr x + 16 ≤ y) →
      c.data.SameOn (setPrevIfFound (c.enterFirst mbEx x) (c.addr x) prev) y n := fun y n h1 h2 =>
    (sameOn_enterFirst hs h1 (by omega)).trans (hset y n (by omega))
  refine ⟨hsame, ?_, ?_, fun t ht => ?_, fun t ht => ?_, ?_⟩
  · rw [← hp]
    cases prev with
    | none =>
      exact (readOpt_congr (sameOn_enterFirst hs (by omega) (by omega))).trans hprev
    | some q =>
      refine readOpt_writeOpt_same _ _ _ (extentID_lt ?_)
      have hq := (mem_buckets.mp (mem_of_getLast? hp.symm)).1
      exact (h.mapped q hq).trans_le h.pages_le
  · have hle : usedBuckets c.pageSize.segmentOf added c.pageSize.maxSegmentNum ≤
        c.pageSize.maxSegmentNum := usedBuckets_le
    have hbl := c.pageSize.bytes_le
    rw [usedBuckets_concat_of_eq hs hempty, ← h.usedSegNum_eq]
    refine (read_congr (hset _ _ (by omega))).trans (usedSegNum_enterFirst hax ?_)
    rw [h.usedSegNum_eq]
    omega
  · refine (readOpt_congr (hset _ _ (by omega))).trans
      ((firstExtentID_enterFirst hax hxp ht).trans ?_)
    split
    next hts => rw [hts, bucket_concat_of_eq rfl, hempty]; rfl
    next hts => rw [bucket_concat_of_ne (Ne.symm hts), h.first_eq t ht]
  · refine (readOpt_congr (hset _ _ (by omega))).trans
      ((lastExtentID_enterFirst hax hxp ht).trans ?_)
    split
    next hts => rw [hts, bucket_concat_of_eq rfl, hempty]; rfl
    next hts => rw [bucket_concat_of_ne (Ne.symm hts), h.last_eq t ht]
  · rw [hempty]
    exact (read_congr (hset _ _ (by omega))).trans (logicID_enterFirst hax hs)

/-- The memory after an extent has been entered into a segment that ends in `last`. -/
def enterLast (c : Col) (mbEx x last : ℕ) : Mem :=
  let data := MetaExtent.setLastExtentID c.data (c.addr mbEx) (c.pageSize.segmentOf x) (some x)
  let data := setPrevExtent data (c.addr x) (some last)
  setLogicID data (c.addr x) (logicID data (c.addr last) + 1)

/-- **A further extent of a segment** becomes its end and follows the old one. -/
theorem ChainOk.enterLast {last : ℕ} (h : c.ChainOk mbEx added) (hx : c.Fresh mbEx added x)
    (hlast : (bucket c.pageSize.segmentOf added (c.pageSize.segmentOf x)).getLast? = some last) :
    c.Entered mbEx added x (c.enterLast mbEx x last) := by
  have hb := c.pageSize.le_bytes
  have hn := c.pageSize.maxSegmentNum_eq
  obtain ⟨hxp, hs⟩ := h.fresh_lt hx
  have hax := c.addr_apart hx.apart
  have hmem : last ∈ added := (mem_bucket.mp (mem_of_getLast? hlast)).1
  have hne : bucket c.pageSize.segmentOf added (c.pageSize.segmentOf x) ≠ [] := by
    rintro h0
    rw [h0] at hlast
    cases hlast
  have hsame : ∀ y n, (y + n ≤ c.addr mbEx + 20 ∨ c.addr mbEx + 9 * c.pageSize.bytes ≤ y) →
      (y + n ≤ c.addr x + 8 ∨ c.addr x + 16 ≤ y) →
      c.data.SameOn (c.enterLast mbEx x last) y n := fun y n h1 h2 =>
    c.data.sameOn_writeOpt.writeOpt.write
  -- The last extent has the last logical ID of the segment.
  have hid : logicID c.data (c.addr last) + 1 =
      c.pageSize.segmentOf x <<< c.pageSize.factor +
        (bucket c.pageSize.segmentOf added (c.pageSize.segmentOf x)).length := by
    have hpos := length_pos_of_ne_nil hne
    rw [getLast?_eq_getElem?] at hlast
    rw [h.logicID_eq _ _ _ hlast]
    omega
  refine ⟨fun y n h1 => hsame y n (by omega), ?_, ?_, fun t ht => ?_, fun t ht => ?_, ?_⟩
  · rw [buckets_append, buckets_one, zero_add, getLast?_append, hlast, Option.some_or]
    exact (readOpt_congr (sameOn_write _)).trans
      (readOpt_writeOpt_same _ _ _ (extentID_lt ((h.mapped last hmem).trans_le h.pages_le)))
  · rw [usedBuckets_concat_of_ne hne]
    exact (read_congr (hsame _ _ (by omega) (by omega))).trans h.usedSegNum_eq
  · refine (readOpt_congr c.data.sameOn_writeOpt.writeOpt.write).trans
      ((h.first_eq t ht).trans ?_)
    by_cases hts : c.pageSize.segmentOf x = t
    · rw [← hts, bucket_concat_of_eq rfl, head?_append_of_ne_nil _ hne]
    · rw [bucket_concat_of_ne hts]
  · refine (readOpt_congr (sameOn_writeOpt _).write).trans ?_
    by_cases hts : c.pageSize.segmentOf x = t
    · rw [← hts, bucket_concat_of_eq rfl, getLast?_concat]
      exact readOpt_writeOpt_same _ _ _ (extentID_lt hxp)
    · rw [bucket_concat_of_ne hts, ← h.last_eq t ht]
      exact readOpt_congr (sameOn_writeOpt _)
  · have hlt : c.pageSize.segmentOf x <<< c.pageSize.factor +
        (bucket c.pageSize.segmentOf added (c.pageSize.segmentOf x)).length < 256 ^ 4 :=
      ((Nat.add_le_add_left (bucket_length_le c.pageSize h.nodup _) _).trans
        (shift_factor_le c.pageSize hs)).trans_lt (by decide)
    have hread : logicID (setPrevExtent (MetaExtent.setLastExtentID c.data
        (c.addr mbEx) (c.pageSize.segmentOf x) (some x)) (c.addr x) (some last)) (c.addr last) =
        logicID c.data (c.addr last) := by
      have h1 := h.addr_old hx hmem
      exact read_congr c.data.sameOn_writeOpt.writeOpt
    refine (read_write_same _ _ _ _).trans ?_
    rw [hread, hid, Nat.mod_eq_of_lt hlt]

/-- **`addExtent2Meta`** adds the extent to the chain; besides the meta extent it touches
only links of extents. -/
theorem ChainOk.addExtent2Meta (h : c.ChainOk mbEx added) (hx : c.Fresh mbEx added x)
    (hprev : c.prev x = none) (hnext : c.next x = none) :
    ∃ data first last,
      c.addExtent2Meta (some .exclusive) x =
        (.ok, c.withEnds data first last) ∧
      ChainOk (c.withEnds data first last) mbEx (added ++ [x]) ∧
      ∀ y n, c.OffChain mbEx (x :: added) y n → c.data.SameOn data y n := by
  obtain ⟨hxp, hs⟩ := h.fresh_lt hx
  have hm := h.mbEx_le
  have hmapped : c.extentAddr c.mb.mbExExtentID = some (c.addr mbEx) := by
    rw [h.mbEx_eq, c.extentAddr_of_lt (by rw [c.pageSize.mbExSize_eq] at hm; omega)]
  have hsplit : buckets c.pageSize.segmentOf added 0 (c.pageSize.segmentOf x + 1) =
      buckets c.pageSize.segmentOf added 0 (c.pageSize.segmentOf x) ++
        bucket c.pageSize.segmentOf added (c.pageSize.segmentOf x) := by
    rw [buckets_append, buckets_one, zero_add]
  have hlast := h.last_eq _ hs
  unfold Col.addExtent2Meta
  simp only [ne_eq, not_true_eq_false, if_false, hmapped, h.segNum_eq, if_neg (Nat.not_le.mpr hs),
    ge_iff_le]
  cases hb : (bucket c.pageSize.segmentOf added (c.pageSize.segmentOf x)).getLast? with
  | none =>
    rw [hb] at hlast
    rw [getLast?_eq_none_iff] at hb
    rw [hlast]
    have hfind : findPrev (c.enterFirst mbEx x) (c.addr mbEx) (c.pageSize.segmentOf x) =
        (buckets c.pageSize.segmentOf added 0 (c.pageSize.segmentOf x)).getLast? := by
      refine findPrev_eq _ fun t ht => ?_
      rw [lastExtentID_enterFirst (c.addr_apart hx.apart) hxp (ht.trans hs), if_neg ht.ne]
      exact h.last_eq t (ht.trans hs)
    -- Without a first extent there is none in a lower segment either.
    have hp : (if c.mb.firstExtentID = none then none
        else findPrev (c.enterFirst mbEx x) (c.addr mbEx) (c.pageSize.segmentOf x)) =
        (buckets c.pageSize.segmentOf added 0 (c.pageSize.segmentOf x + 1)).getLast? := by
      rw [hfind, hsplit, hb, append_nil]
      split
      next hnone =>
        rw [h.links.first_eq, head?_eq_none_iff, chain, buckets_split hs, hsplit] at hnone
        rw [(append_eq_nil_iff.mp (append_eq_nil_iff.mp hnone).1).1]
        rfl
      next => rfl
    have hl := h.link hx hnext (h.enterFirst hx hprev hb hp)
    rwa [← hp] at hl
  | some last =>
    rw [hb] at hlast
    rw [hlast]
    have hmem : last ∈ added := (mem_bucket.mp (mem_of_getLast? hb)).1
    have hp : (buckets c.pageSize.segmentOf added 0 (c.pageSize.segmentOf x + 1)).getLast? =
        some last := by
      rw [hsplit, getLast?_append, hb, Option.some_or]
    simp only [c.extentAddr_of_lt (h.mapped last hmem)]
    have hl := h.link hx hnext (h.enterLast hx hb)
    rwa [hp] at hl

theorem chainOk_nil (hm : c.mb.mbExExtentID = some mbEx)
    (hle : mbEx + c.pageSize.mbExSize ≤ c.pages) (hp : c.pages ≤ maxPg)
    (hf : c.mb.firstExtentID = none) (hl : c.mb.lastExtentID = none) {m : Mem} {id : ℕ}
    (hdata : c.data = MetaExtent.init m (c.addr mbEx) c.pageSize.mbExSize id
      c.pageSize.maxSegmentNum) : c.ChainOk mbEx [] where
  mbEx_eq := hm
  mbEx_le := hle
  pages_le := hp
  nodup := nodup_nil
  mapped := nofun
  apart := nofun
  links := by
    have hnil : chain c.pageSize [] = [] :=
      eq_nil_iff_forall_not_mem.mpr fun e he => not_mem_nil (mem_buckets.mp he).1
    rw [hnil]
    exact ⟨hf, hl, linked_nil _ _⟩
  segNum_eq := by
    rw [hdata]
    exact MetaExtent.segNum_init m _ (by cases c.pageSize <;> decide)
  usedSegNum_eq := by
    rw [hdata, MetaExtent.usedSegNum_init]
    simp [usedBuckets, bucket]
  first_eq := fun s hs => by
    rw [hdata, MetaExtent.firstExtentID_init m _ hs]
    rfl
  last_eq := fun s hs => by
    rw [hdata, MetaExtent.lastExtentID_init m _ hs]
    rfl
  logicID_eq := fun s i e hi => by simp [bucket] at hi

theorem ChainOk.congr {c' : Col} (h : c.ChainOk mbEx added) (hps : c'.pageSize = c.pageSize)
    (hpages : c.pages ≤ c'.pages) (hmax : c'.pages ≤ maxPg)
    (hmb : c'.mb.mbExExtentID = c.mb.mbExExtentID)
    (hf : c'.mb.firstExtentID = c.mb.firstExtentID) (hl : c'.mb.lastExtentID = c.mb.lastExtentID)
    (hmeta : c.data.SameOn c'.data (c.addr mbEx) (9 * c.pageSize.bytes))
    (hlinks : ∀ e ∈ added, c.data.SameOn c'.data (c.addr e + 8) 12) : c'.ChainOk mbEx added := by
  obtain ⟨ps, pages, data, mb, stat⟩ := c'
  obtain rfl : ps = c.pageSize := hps
  obtain ⟨hseg, hused, hends⟩ := sameMeta hmeta
  have hmem : ∀ e ∈ chain c.pageSize added, e ∈ added := fun e he => (mem_buckets.mp he).1
  refine ⟨hmb.trans h.mbEx_eq, h.mbEx_le.trans hpages, hmax, h.nodup,
    fun e he => (h.mapped e he).trans_le hpages, h.apart,
    ⟨hf.trans h.links.first_eq, hl.trans h.links.last_eq, h.links.linked.congr ?_ ?_⟩,
    hseg.trans h.segNum_eq, hused.trans h.usedSegNum_eq,
    fun s hs => (hends s hs).1.trans (h.first_eq s hs),
    fun s hs => (hends s hs).2.trans (h.last_eq s hs), ?_⟩
  · exact fun e he => readOpt_congr ((hlinks e (hmem e he)).mono (b := c.addr e + 16)
      (by omega) (by omega))
  · exact fun e he => readOpt_congr ((hlinks e (hmem e he)).mono (b := c.addr e + 12)
      (by omega) (by omega))
  · intro s i e hi
    have he := (mem_bucket.mp (mem_of_getElem? hi)).1
    exact (read_congr ((hlinks e he).mono le_rfl)).trans (h.logicID_eq s i e hi)

end Add

end Col

end Novachains.Dms
