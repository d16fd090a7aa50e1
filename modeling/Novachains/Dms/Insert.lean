import Novachains.Dms.Space

/-!
# Inserting into a collection

What the functions that find space and insert a record do to the contents of a
collection.  A block that is taken off its list belongs to no list until
`_extentInsertRecord` has made a record of it and given back the rest; if that function
refuses the record, the block stays taken.
-/

namespace Novachains.Dms

open Lib List

namespace Col

/-- Bytes that belong neither to the meta extent nor to an extent of the collection. -/
def Outside (c : Col) (mbEx : ℕ) (added : List ℕ) (pages : ℕ → ℕ) (y n : ℕ) : Prop :=
  (y + n ≤ c.addr mbEx ∨ c.addr mbEx + 9 * c.pageSize.bytes ≤ y) ∧
    ∀ e ∈ added, y + n ≤ c.addr e ∨ c.addr e + pages e * c.pageSize.bytes ≤ y

/-- `c'` differs from `c` in the bytes of its extents, its chain ends, delete lists and counters. -/
structure Touches (c c' : Col) (mbEx : ℕ) (added : List ℕ) (pages : ℕ → ℕ) : Prop where
  pageSize_eq : c'.pageSize = c.pageSize
  pages_eq : c'.pages = c.pages
  mb_eq : c'.mb = { c.mb with
    firstExtentID := c'.mb.firstExtentID
    lastExtentID := c'.mb.lastExtentID
    deleteList := c'.mb.deleteList }
  stat_eq : c'.stat = { c.stat with totals := c'.stat.totals }
  same : ∀ y n, c.Outside mbEx added pages y n → c.data.SameOn c'.data y n

structure CountsOk (t : Totals) (added : List ℕ) (recs : ℕ → List Rec) : Prop where
  records : t.totalRecords = (added.map fun e => (recs e).length).sum
  dataLen : t.totalDataLen = (added.map fun e => ((recs e).map fun r => r.data.length).sum).sum
  dataPages : t.totalDataPages = 0
  freeSpace : added = [] → t.totalDataFreeSpace = 0

variable {recs : ℕ → List Rec}

theorem CountsOk.setFreeSpace {t : Totals} {added : List ℕ} (h : CountsOk t added recs)
    (hne : added ≠ []) (n : ℕ) : CountsOk { t with totalDataFreeSpace := n } added recs :=
  ⟨h.records, h.dataLen, h.dataPages, fun hnil => absurd hnil hne⟩

theorem CountsOk.grow {t : Totals} {added : List ℕ} {recs' : ℕ → List Rec} {x : ℕ}
    (h : CountsOk t added recs) (hsame : ∀ e ∈ added, recs' e = recs e) (hx : recs' x = []) (n : ℕ) :
    CountsOk { t with totalDataFreeSpace := n } (added ++ [x]) recs' := by
  have h1 : (added.map fun e => (recs' e).length) = added.map fun e => (recs e).length :=
    map_congr_left fun e he => by rw [hsame e he]
  have h2 : (added.map fun e => ((recs' e).map fun r => r.data.length).sum) =
      added.map fun e => ((recs e).map fun r => r.data.length).sum :=
    map_congr_left fun e he => by rw [hsame e he]
  refine ⟨?_, ?_, h.dataPages, fun hnil => absurd hnil (by simp)⟩
  · simp [h1, hx, h.records]
  · simp [h2, hx, h.dataLen]

section Touches
variable {c c' c'' : Col} {mbEx x : ℕ} {added : List ℕ} {pages : ℕ → ℕ}

theorem Touches.rfl : c.Touches c mbEx added pages :=
  ⟨.refl _, .refl _, .refl _, .refl _, fun _ _ _ => .rfl⟩

theorem Touches.trans (h : c.Touches c' mbEx added pages) (h' : c'.Touches c'' mbEx added pages) :
    c.Touches c'' mbEx added pages := by
  refine ⟨h'.pageSize_eq.trans h.pageSize_eq, h'.pages_eq.trans h.pages_eq, ?_, ?_,
    fun y n hy => (h.same y n hy).trans (h'.same y n ?_)⟩
  · rw [h'.mb_eq, h.mb_eq]
  · rw [h'.stat_eq, h.stat_eq]
  · simpa only [Outside, addr, h.pageSize_eq] using hy

theorem touches_extent (hx : x ∈ added) {m : Mem} (dl : ℕ → Option RecordID) (totals : Totals)
    (hs : ∀ y n, y + n ≤ c.addr x ∨ c.addr x + pages x * c.pageSize.bytes ≤ y →
      c.data.SameOn m y n) :
    c.Touches { c with
      data := m
      mb := { c.mb with deleteList := dl }
      stat := { c.stat with totals := totals } } mbEx added pages :=
  ⟨.refl _, .refl _, .refl _, .refl _, fun y n hy => hs y n (hy.2 x hx)⟩

end Touches

variable {c : Col} {mbEx x : ℕ} {added : List ℕ} {g : Contents}

theorem ColOk.congr {c' : Col} (h : c.ColOk mbEx added g) (hps : c'.pageSize = c.pageSize)
    (hpages : c.pages ≤ c'.pages) (hmax : c'.pages ≤ maxPg)
    (hmb : c'.mb = { c.mb with totals := c'.mb.totals })
    (hmeta : c.data.SameOn c'.data (c.addr mbEx) (9 * c.pageSize.bytes))
    (hext : ∀ e ∈ added, c.data.SameOn c'.data (c.addr e) (g.pages e * c.pageSize.bytes)) :
    c'.ColOk mbEx added g := by
  have haddr : ∀ e, c'.addr e = c.addr e := fun e => by rw [addr, hps, addr]
  have hid : c'.mb.blockID = c.mb.blockID := by rw [hmb]
  refine ⟨h.chain.congr hps hpages hmax (by rw [hmb]) (by rw [hmb]) (by rw [hmb]) hmeta
    fun e he => ?_, hid ▸ h.blockID_lt, h.pages_pos, hps ▸ h.pages_le,
    fun e he => (h.within e he).trans hpages, hps ▸ h.mbEx_apart, h.exts_apart, fun e he => ?_,
    fun j hj => ?_, h.nodup, h.mem_dels⟩
  · have := (h.size_le he).1
    exact (hext e he).mono
  · have := (h.size_le he).1
    rw [haddr, hid, hps]
    exact (h.body e he).congr_bytes (hext e he) (by omega)
  have hdel : c'.mb.deleteList = c.mb.deleteList := by rw [hmb]
  rw [hdel]
  refine (h.path j hj).congr fun rid hr => ?_
  obtain ⟨he, h1, h2⟩ := h.rid_within hj hr
  rw [nextDel, nextDel, recordAddr, haddr]
  exact Record.nextRID_congr ((hext _ he).mono (b := c.recordAddr rid + 8) (by omega) (by omega))

theorem ColOk.change_taken (h : c.ColOk mbEx added g) (hx : x ∈ added) {t : Run}
    (ht : t ∈ g.taken x) {m : Mem}
    (hs : ∀ y n, y + n ≤ c.addr x + t.start ∨ c.addr x + t.start + t.size ≤ y →
      c.data.SameOn m y n) : ColOk { c with data := m } mbEx added g := by
  have hw := (h.body x hx).taken_within ht
  have hi : c.Inside { c with data := m } g x :=
    ⟨rfl, rfl, rfl, fun y n hy => hs y n (by omega)⟩
  have hset := h.set_same hx hi rfl ((h.body x hx).change_taken ht hs) fun f hf => by
    have h1 := (h.body x hx).free_apart hf ht
    have h2 := (h.body x hx).free_within hf
    exact hs _ _ (by omega)
  rwa [Contents.set_self] at hset

variable {taken : List Run}

theorem ColOk.retake (h : c.ColOk mbEx added g) (hx : x ∈ added)
    (hb : BodyOk c.data (c.addr x) c.mb.blockID (g.pages x) (g.pages x * c.pageSize.bytes)
      (g.recs x) (g.free x) taken) :
    c.ColOk mbEx added (g.set x (g.recs x) (g.free x) taken g.dels) :=
  h.set_same hx ⟨rfl, rfl, rfl, fun _ _ _ => .rfl⟩ rfl hb fun _ _ => .rfl

theorem ColOk.searchSlot_spec (h : c.ColOk mbEx added g) (required : ℕ) {j : ℕ} (hj : j < maxSlot)
    (fuel : ℕ) (k l : List RecordID) (hd : g.dels j = k ++ l) {start : Option RecordID}
    (hs : start = l.head?) :
    (∃ k' rid l', c.searchSlot required fuel k.getLast? start = .ok (some (k'.getLast?, rid)) ∧
      g.dels j = k' ++ rid :: l' ∧ required ≤ Record.size c.data (c.recordAddr rid)) ∨
    (c.searchSlot required fuel k.getLast? start = .ok none ∧
      ∀ rid ∈ l.take fuel, Record.size c.data (c.recordAddr rid) < required) := by
  subst hs
  induction fuel generalizing k l with
  | zero => exact .inr ⟨by cases l <;> rfl, by simp⟩
  | succ fuel ih =>
    cases l with
    | nil => exact .inr ⟨rfl, by simp⟩
    | cons rid l =>
      have hrid : rid ∈ g.dels j := by rw [hd]; simp
      obtain ⟨he, f, hf, hoff, -⟩ := h.mem_free hj hrid
      have hfok := (h.body _ he).free_ok f hf
      have hmapped : c.extentAddr (some rid.extent) ≠ none := by
        rw [c.extentAddr_of_lt (h.chain.mapped _ he)]
        exact Option.some_ne_none _
      have hdel : Record.isDeleted c.data (c.recordAddr rid) = true := by
        rw [recordAddr, ← hoff, Record.isDeleted, hfok.flag_eq]
        rfl
      rw [head?_cons, searchSlot, if_neg hmapped, hdel]
      by_cases hsz : required ≤ Record.size c.data (c.recordAddr rid)
      · exact .inl ⟨k, rid, l, if_pos ⟨rfl, hsz⟩, hd, hsz⟩
      rw [if_neg fun hc => hsz hc.2]
      -- The pointer of the record leads on through the list.
      have hnext : Record.nextRID c.data (c.recordAddr rid) = l.head? := by
        have hpath := h.path j hj
        rw [hd] at hpath
        obtain ⟨m, -, hm⟩ := path_append.mp hpath
        exact hm.2.head?
      have hrec := ih (k ++ [rid]) l (by rw [hd, append_assoc]; rfl)
      rw [getLast?_concat, ← hnext] at hrec
      rcases hrec with hfound | ⟨hnone, hall⟩
      · exact .inl hfound
      refine .inr ⟨hnone, fun q hq => ?_⟩
      rcases mem_cons.mp hq with rfl | hq
      · exact Nat.lt_of_not_le hsz
      · exact hall q hq

/-- **The search** finds a deleted record that is large enough, or every first record is too small.
-/
theorem ColOk.search_spec (h : c.ColOk mbEx added g) (required : ℕ) (slots : List ℕ)
    (hs : ∀ j ∈ slots, j < maxSlot) :
    (∃ j k rid l, c.search required slots = .ok (some (j, k.getLast?, rid)) ∧ j ∈ slots ∧
      g.dels j = k ++ rid :: l ∧ required ≤ Record.size c.data (c.recordAddr rid)) ∨
    (c.search required slots = .ok none ∧ ∀ j ∈ slots, ∀ rid ∈ (g.dels j).head?,
      Record.size c.data (c.recordAddr rid) < required) := by
  induction slots with
  | nil => exact .inr ⟨rfl, by simp⟩
  | cons j slots ih =>
    have hj := hs j mem_cons_self
    rcases h.searchSlot_spec required hj 3 [] (g.dels j) rfl (h.path j hj).head? with
      ⟨k, rid, l, heq, hd, hsz⟩ | ⟨heq, hall⟩
    · rw [getLast?_nil] at heq
      exact .inl ⟨j, k, rid, l, by rw [search, heq], mem_cons_self, hd, hsz⟩
    rw [getLast?_nil] at heq
    rw [search, heq]
    rcases ih fun i hi => hs i (mem_cons_of_mem j hi) with
      ⟨i, k, rid, l, heq', hi, hd, hsz⟩ | ⟨heq', hall'⟩
    · exact .inl ⟨i, k, rid, l, heq', mem_cons_of_mem j hi, hd, hsz⟩
    refine .inr ⟨heq', fun i hi rid hr => ?_⟩
    rcases mem_cons.mp hi with rfl | hi
    · refine hall rid ?_
      cases hl : g.dels i with
      | nil => rw [hl] at hr; cases hr
      | cons q l =>
        rw [hl] at hr
        cases hr
        exact mem_cons_self
    · exact hall' i hi rid hr

theorem ColOk.touches_take (h : c.ColOk mbEx added g) {j : ℕ} (hj : j < maxSlot)
    {k l : List RecordID} {rid : RecordID} (hd : g.dels j = k ++ rid :: l) :
    c.Touches (c.takeDeleted j k.getLast? rid) mbEx added g.pages ∧
      (c.takeDeleted j k.getLast? rid).stat = c.stat := by
  have hu := h.unlink hj hd
  have hsub : ∀ p ∈ k ++ l, p ∈ g.dels j := fun p hp => by
    rw [hd]
    rcases mem_append.mp hp with hp | hp <;> simp [hp]
  obtain ⟨hx, h36, -⟩ := h.rid_within hj (show rid ∈ g.dels j by rw [hd]; simp)
  unfold takeDeleted
  generalize c.unlinkDeleted j k.getLast? rid = c₁ at hu ⊢
  have haddr : c₁.addr rid.extent = c.addr rid.extent := by rw [addr, hu.pageSize_eq, addr]
  refine ⟨⟨hu.pageSize_eq, hu.pages_eq, by rw [hu.mb_eq], by rw [hu.stat_eq], fun y n hy => ?_⟩,
    hu.stat_eq⟩
  refine (hu.same y n fun p hp => ?_).trans (c₁.data.sameOn_write ?_)
  · obtain ⟨hpx, h1, h2⟩ := h.rid_within hj (hsub p hp)
    have := hy.2 _ hpx
    omega
  have h1 := hy.2 _ hx
  have h2 := (h.size_le hx).1
  rw [haddr]
  omega

/-! ## Appending -/

variable {r : Rec}

theorem ColOk.linkRecord (h : c.ColOk mbEx added g) (hx : x ∈ added)
    (ht : g.taken x = r.run :: taken) (hrec : RecOk c.data (c.addr x + r.off) r)
    (hnext : Record.nextOffset c.data (c.addr x + r.off) = none)
    (hprev : Record.prevOffset c.data (c.addr x + r.off) = none) :
    ColOk { c with data := Dms.linkRecord c.data (c.addr x) (c.addr x + r.off) r.off } mbEx added
      (g.set x (g.recs x ++ [r]) (g.free x) taken g.dels) := by
  have h16 : recordMetadataSz = 16 := rfl
  have hrun : r.run.start = r.off ∧ r.run.size = r.size := ⟨rfl, rfl⟩
  have hbody := h.body x hx
  rw [ht] at hbody
  have hw := hbody.taken_within mem_cons_self
  have hfits := hrec.fits
  -- The last record so far is linked to the new one; it lies in the extent.
  have hlast : ∀ o ∈ Extent.lastRecordOffset c.data (c.addr x),
      36 ≤ o ∧ o + 16 ≤ g.pages x * c.pageSize.bytes ∧
        ∀ f ∈ g.free x, f.start + 16 ≤ o ∨ o + 16 ≤ f.start := by
    intro o ho
    rw [hbody.last_eq, getLast?_map] at ho
    obtain ⟨s, hs, rfl⟩ := Option.mem_map.mp ho
    have hs := mem_of_getLast? hs
    have h2 := hbody.rec_within hs
    refine ⟨by omega, by omega, fun f hf => ?_⟩
    have h3 := hbody.rec_free_apart hs hf
    have h4 := hbody.free_within hf
    omega
  have hlink := hbody.link (by have := (h.size_le hx).2; omega) hrec hnext hprev
  have hsame : ∀ y n, _ → _ → _ → c.data.SameOn
      (Dms.linkRecord c.data (c.addr x) (c.addr x + r.off) r.off) y n := fun y n =>
    sameOn_linkRecord c.data
  generalize Dms.linkRecord c.data (c.addr x) (c.addr x + r.off) r.off = m at hlink hsame ⊢
  have hi : c.Inside { c with data := m } g x := by
    refine ⟨rfl, rfl, rfl, fun y n hy => hsame _ _ (by omega) (by omega) fun o ho => ?_⟩
    have := hlast o ho
    omega
  refine h.set_same hx hi rfl hlink fun f hf => ?_
  have h2 := hbody.free_within hf
  have h3 := hbody.free_apart hf mem_cons_self
  refine hsame _ _ (by omega) (by omega) fun o ho => ?_
  have := (hlast o ho).2.2 f hf
  omega

/-- **Appending a record** makes the taken block in which it stands the last record. -/
theorem ColOk.append (h : c.ColOk mbEx added g) (hx : x ∈ added) (ht : g.taken x = r.run :: taken)
    (hflag : Record.flag c.data (c.addr x + r.off) = 0)
    (hsize : Record.size c.data (c.addr x + r.off) = r.size)
    (hfits : recordMetadataSz + r.data.length ≤ r.size) (hmin : minRecordDataSz ≤ r.data.length)
    (hlen : decode (r.data.take 4) &&& 0x00FFFFFF = r.data.length) :
    (c.appendRecord ⟨x, r.off⟩ r.off r.data true).ColOk mbEx added
      (g.set x (g.recs x ++ [r]) (g.free x) taken g.dels) := by
  have hrun : r.run.start = r.off ∧ r.run.size = r.size := ⟨rfl, rfl⟩
  have hfilled : ColOk { c with data := fillRecord c.data (c.addr x + r.off) r.data }
      mbEx added g :=
    h.change_taken hx (ht ▸ mem_cons_self) fun y n hy => sameOn_fillRecord _ (by omega)
  have hrec : RecOk _ (c.addr x + r.off) r := recOk_fillRecord c.data hflag hsize hfits hmin hlen
  have hnext : Record.nextOffset (fillRecord c.data (c.addr x + r.off) r.data) _ = none :=
    nextOffset_fillRecord c.data
  have hprev : Record.prevOffset (fillRecord c.data (c.addr x + r.off) r.data) _ = none :=
    prevOffset_fillRecord c.data
  rw [appendRecord_eq, recordAddr]
  generalize fillRecord c.data (c.addr x + r.off) r.data = m at hfilled hrec hnext hprev ⊢
  have hlinked : ColOk { c with data := Dms.linkRecord m (c.addr x) (c.addr x + r.off) r.off }
      mbEx added _ := hfilled.linkRecord hx ht hrec hnext hprev
  generalize Dms.linkRecord m (c.addr x) (c.addr x + r.off) r.off = m' at hlinked ⊢
  exact hlinked.congr rfl le_rfl hlinked.chain.pages_le rfl .rfl fun _ _ => .rfl

theorem ColOk.touches_append (h : c.ColOk mbEx added g) (hx : x ∈ added) (ht : r.run ∈ g.taken x)
    (hfits : recordMetadataSz + r.data.length ≤ r.size) :
    c.Touches (c.appendRecord ⟨x, r.off⟩ r.off r.data true) mbEx added g.pages := by
  have h16 : recordMetadataSz = 16 := rfl
  have hbody := h.body x hx
  have hw : 36 ≤ r.off ∧ r.off + r.size ≤ g.pages x * c.pageSize.bytes :=
    hbody.taken_within ht
  have hlast : Extent.lastRecordOffset (fillRecord c.data (c.addr x + r.off) r.data) (c.addr x) =
      Extent.lastRecordOffset c.data (c.addr x) :=
    Mem.readOpt_congr (sameOn_fillRecord c.data (by omega))
  rw [appendRecord_eq]
  refine touches_extent hx c.mb.deleteList _ fun y n hy =>
    (sameOn_fillRecord c.data (by dsimp only [recordAddr]; omega)).trans
      (sameOn_linkRecord _ (by dsimp only; omega) (by dsimp only [recordAddr]; omega)
        fun o ho => ?_)
  dsimp only [recordAddr] at ho ⊢
  rw [hlast, hbody.last_eq, getLast?_map] at ho
  obtain ⟨s, hs, rfl⟩ := Option.mem_map.mp ho
  have h2 := hbody.rec_within (mem_of_getLast? hs)
  omega

theorem touches_save (hx : x ∈ added) {pages : ℕ → ℕ} {off size : ℕ} (h0 : 0 < size)
    (h36 : 36 ≤ off) (hw : off + 16 ≤ pages x * c.pageSize.bytes) :
    c.Touches (c.saveDeleted ⟨x, off⟩ size) mbEx added pages := by
  rw [c.saveDeleted_eq _ h0]
  exact touches_extent hx _ _ fun y n hy =>
    sameOn_saveMem c.data (by dsimp only [recordAddr]; omega) (by dsimp only; omega)

theorem CountsOk.append (h : CountsOk c.stat.totals added recs) (hnd : added.Nodup) (hx : x ∈ added)
    (r : Rec) : CountsOk (c.appendRecord ⟨x, r.off⟩ r.off r.data true).stat.totals added
      (Function.update recs x (recs x ++ [r])) := by
  have h1 := sum_map_update List.length hnd hx recs (recs x ++ [r])
  have h2 := sum_map_update (fun l : List Rec => (l.map fun r => r.data.length).sum) hnd hx recs
    (recs x ++ [r])
  simp only [List.length_append, length_singleton, map_append, sum_append,
    map_cons, map_nil, sum_cons, sum_nil] at h1 h2
  rw [appendRecord_eq]
  refine ⟨?_, ?_, h.dataPages, fun hnil => absurd (hnil ▸ hx) not_mem_nil⟩
  · change c.stat.totals.totalRecords + 1 = _
    rw [h.records]
    omega
  · change c.stat.totals.totalDataLen + r.data.length = _
    rw [h.dataLen]
    omega

/-! ## The record in the space found -/

def clearFlag (m : Mem) (p : ℕ) : Mem := Record.unsetAttr (Record.setState m p 0) p 0xF0

theorem sameOn_clearFlag (m : Mem) {p y n : ℕ} (h : y + n ≤ p ∨ p + 1 ≤ y) :
    m.SameOn (clearFlag m p) y n :=
  (m.sameOn_write h).trans (Mem.sameOn_write _ h)

theorem flag_clearFlag (m : Mem) {p : ℕ} (h : Record.flag m p = 4) :
    Record.flag (clearFlag m p) p = 0 := by
  have hstate : Record.flag (Record.setState m p 0) p = 0 := by
    rw [Record.setState, h]
    exact Mem.read_write_same _ _ _ _
  rw [clearFlag, Record.unsetAttr, hstate]
  exact Mem.read_write_same _ _ _ _

/-- The part of a block that is not needed is given back, if it is large enough. -/
def shrink (c : Col) (rid : RecordID) (size need : ℕ) : Col :=
  if size - need > minRecordSz then
    let c' := c.saveDeleted ⟨rid.extent, rid.offset + need⟩ (size - need)
    { c' with data := Record.setSize c'.data (c.recordAddr rid) need }
  else c

variable {f : Run} {data : List UInt8} {need : ℕ}

theorem extentInsertRecord_eq (c : Col) (hx : x < c.pages)
    (hf : FreeOk c.data (c.addr x + f.start) f) (hneed : need ≤ f.size)
    (hmin : minRecordDataSz ≤ data.length) : c.extentInsertRecord ⟨x, f.start⟩ data need true =
      (.ok, (({ c with data := clearFlag c.data (c.addr x + f.start) } : Col).shrink ⟨x, f.start⟩
        f.size need).appendRecord ⟨x, f.start⟩ f.start data true) := by
  have hsize : Record.size (clearFlag c.data (c.addr x + f.start)) (c.addr x + f.start) = f.size :=
    (congrArg (· + 1) (Mem.read_congr (sameOn_clearFlag _ (by omega)))).trans hf.size_eq
  have haddr : c.extentAddr (some x) = some (c.addr x) := c.extentAddr_of_lt hx
  have hsave : ∀ m : Mem, ({ c with data := m } : Col).saveDeletedRecord
      (some ⟨x, f.start + need⟩) (f.size - need) =
      (.ok, ({ c with data := m } : Col).saveDeleted ⟨x, f.start + need⟩ (f.size - need)) := by
    intro m
    have hm : ({ c with data := m } : Col).extentAddr (some x) = some (c.addr x) := haddr
    rw [saveDeletedRecord, hm]
  rw [extentInsertRecord, haddr, if_neg (Option.some_ne_none _)]
  dsimp only [recordAddr]
  rw [hf.size_eq, hf.myOffset_eq, if_neg (by omega), if_neg (by omega), ← clearFlag, hsize, hsave,
    shrink]
  split <;> rfl

theorem extentInsertRecord_short (c : Col) (hx : x < c.pages)
    (hf : FreeOk c.data (c.addr x + f.start) f) (hneed : need ≤ f.size)
    (hmin : data.length < minRecordDataSz) :
    c.extentInsertRecord ⟨x, f.start⟩ data need true = (.invalidArg, c) := by
  rw [extentInsertRecord, c.extentAddr_of_lt hx, if_neg (Option.some_ne_none _)]
  dsimp only [recordAddr]
  rw [hf.size_eq, if_neg (Nat.not_lt.mpr hneed), if_pos hmin]

theorem ColOk.shrink (h : c.ColOk mbEx added g) (hx : x ∈ added) (ht : g.taken x = f :: taken)
    (hsize : Record.size c.data (c.addr x + f.start) = f.size) (hmax : f.size ≤ recordMaxSz)
    (hneed : need ≤ f.size) (h16 : recordMetadataSz ≤ need) : ∃ size free dels, need ≤ size ∧
      (c.shrink ⟨x, f.start⟩ f.size need).ColOk mbEx added
        (g.set x (g.recs x) free (⟨f.start, size⟩ :: taken) dels) ∧
      Record.size (c.shrink ⟨x, f.start⟩ f.size need).data (c.addr x + f.start) = size ∧
      Record.flag (c.shrink ⟨x, f.start⟩ f.size need).data (c.addr x + f.start) =
        Record.flag c.data (c.addr x + f.start) := by
  have h36' : extentMetadataSz = 36 := rfl
  have h16' : recordMetadataSz = 16 := rfl
  unfold Col.shrink
  split
  next hlt =>
    -- The block is seen as two; the second becomes a deleted record.
    have hbody := h.body x hx
    rw [ht, show f = ⟨f.start, need + (f.size - need)⟩ by rw [Nat.add_sub_cancel' hneed]] at hbody
    have hw := hbody.taken_within mem_cons_self
    have hsplit := h.retake hx ((hbody.split (by omega) (by omega)).perm (.refl _)
      (List.Perm.swap _ _ _))
    have hsaved := hsplit.save hx (Contents.taken_set ..) (f := ⟨f.start + need, f.size - need⟩)
      (by dsimp only; omega) (by dsimp only; omega)
    have hsame : c.data.SameOn (c.saveDeleted ⟨x, f.start + need⟩ (f.size - need)).data
        (c.addr x + f.start) 8 := by
      rw [c.saveDeleted_eq _ (by omega)]
      refine sameOn_saveMem c.data ?_ ?_
      · dsimp only [recordAddr]
        omega
      · dsimp only at hw ⊢
        omega
    have hps : (c.saveDeleted ⟨x, f.start + need⟩ (f.size - need)).pageSize = c.pageSize := by
      rw [c.saveDeleted_eq _ (by omega)]
    generalize c.saveDeleted ⟨x, f.start + need⟩ (f.size - need) = c₁ at hsaved hsame hps ⊢
    have haddr : c₁.addr x = c.addr x := by rw [addr, hps, addr]
    have hset := hsaved.change_taken hx (t := ⟨f.start, need⟩)
      (m := Record.setSize c₁.data (c.addr x + f.start) need) (by simp [Contents.save, Contents.set])
      fun y n hy => c₁.data.sameOn_write (by rw [haddr] at hy; dsimp only at hy; omega)
    rw [Contents.save, Contents.set_set, Contents.recs_set] at hset
    refine ⟨need, _, _, le_rfl, hset, ?_, ?_⟩
    · refine (congrArg (· + 1) (Mem.read_write_same _ _ _ _)).trans ?_
      rw [Nat.mod_eq_of_lt]
      · omega
      · have : recordMaxSz = 256 ^ 3 := rfl
        omega
    · exact (Mem.read_congr (Mem.sameOn_write _ (by dsimp only [recordAddr]; omega))).trans
        (Mem.read_congr hsame.mono)
  next => exact ⟨f.size, g.free x, g.dels, hneed, by rwa [← ht, Contents.set_self], hsize, rfl⟩

theorem ColOk.touches_shrink (h : c.ColOk mbEx added g) (hx : x ∈ added) (ht : f ∈ g.taken x)
    (need : ℕ) (h16 : recordMetadataSz ≤ need) :
    c.Touches (c.shrink ⟨x, f.start⟩ f.size need) mbEx added g.pages := by
  have h36' : minRecordSz = 36 := rfl
  have h16' : recordMetadataSz = 16 := rfl
  have hw := (h.body x hx).taken_within ht
  unfold Col.shrink
  split
  next hlt =>
    have hsave : c.Touches (c.saveDeleted ⟨x, f.start + need⟩ (f.size - need)) mbEx added g.pages :=
      touches_save hx (by omega) (by omega) (by omega)
    generalize c.saveDeleted ⟨x, f.start + need⟩ (f.size - need) = c₁ at hsave ⊢
    have haddr : c₁.addr x = c.addr x := by rw [addr, hsave.pageSize_eq, addr]
    refine hsave.trans (touches_extent hx c₁.mb.deleteList c₁.stat.totals fun y n hy =>
      c₁.data.sameOn_write ?_)
    rw [haddr, hsave.pageSize_eq] at hy
    dsimp only [recordAddr]
    omega
  next => exact .rfl

theorem totals_shrink (c : Col) (rid : RecordID) (size need : ℕ) :
    (c.shrink rid size need).stat.totals = { c.stat.totals with
      totalDataFreeSpace := (c.shrink rid size need).stat.totals.totalDataFreeSpace } := by
  unfold Col.shrink
  split <;> rfl

/-- **A record is put into the space found.** -/
theorem ColOk.extentInsertRecord (h : c.ColOk mbEx added g) (hx : x ∈ added)
    (ht : g.taken x = f :: taken) (hf : FreeOk c.data (c.addr x + f.start) f)
    (hneed : need ≤ f.size) (hfits : recordMetadataSz + data.length ≤ need)
    (hmin : minRecordDataSz ≤ data.length)
    (hlen : decode (data.take 4) &&& 0x00FFFFFF = data.length) :
    ∃ c' size free dels, c.extentInsertRecord ⟨x, f.start⟩ data need true = (.ok, c') ∧
      c'.ColOk mbEx added (g.set x (g.recs x ++ [⟨f.start, size, data⟩]) free taken dels) ∧
      c.Touches c' mbEx added g.pages ∧
      (CountsOk c.stat.totals added g.recs → CountsOk c'.stat.totals added
        (Function.update g.recs x (g.recs x ++ [⟨f.start, size, data⟩]))) := by
  have h16 : recordMetadataSz = 16 := rfl
  have hmem : f ∈ g.taken x := ht ▸ mem_cons_self
  obtain ⟨hw₁, hw₂⟩ := (h.body x hx).taken_within hmem
  rw [c.extentInsertRecord_eq (h.chain.mapped x hx) hf hneed hmin]
  have hsize : Record.size (clearFlag c.data (c.addr x + f.start)) (c.addr x + f.start) = f.size :=
    (congrArg (· + 1) (Mem.read_congr (sameOn_clearFlag _ (by omega)))).trans hf.size_eq
  have hflag := flag_clearFlag c.data hf.flag_eq
  have hsame : ∀ y n, y + n ≤ c.addr x + f.start ∨ c.addr x + f.start + f.size ≤ y →
      c.data.SameOn (clearFlag c.data (c.addr x + f.start)) y n := fun y n hy =>
    sameOn_clearFlag _ (by omega)
  generalize clearFlag c.data (c.addr x + f.start) = m at hsize hflag hsame ⊢
  have hclear := h.change_taken hx hmem hsame
  have hclear' : c.Touches { c with data := m } mbEx added g.pages :=
    touches_extent hx c.mb.deleteList c.stat.totals fun y n hy => hsame y n (by omega)
  obtain ⟨size, free, dels, hle, hok, hsize', hflag'⟩ :=
    hclear.shrink hx ht hsize hf.le_max hneed (by omega)
  have htouch := hclear.touches_shrink hx hmem need (by omega)
  have hcounts := totals_shrink { c with data := m } ⟨x, f.start⟩ f.size need
  generalize ({ c with data := m } : Col).shrink ⟨x, f.start⟩ f.size need = c₁ at *
  have haddr : c₁.addr x = c.addr x := by rw [addr, htouch.pageSize_eq, addr]
  have happ := hok.append (r := ⟨f.start, size, data⟩) hx (Contents.taken_set ..)
    (by rw [haddr]; exact hflag'.trans hflag) (by rw [haddr]; exact hsize') (hfits.trans hle) hmin hlen
  rw [Contents.set_set, Contents.recs_set] at happ
  refine ⟨_, size, _, _, rfl, happ, (hclear'.trans htouch).trans ?_, fun hs => ?_⟩
  · exact hok.touches_append (r := ⟨f.start, size, data⟩) hx
      (by rw [Contents.taken_set]; exact mem_cons_self) (hfits.trans hle)
  · refine CountsOk.append ?_ h.chain.nodup hx ⟨f.start, size, data⟩
    rw [hcounts]
    exact hs.setFreeSpace (ne_nil_of_mem hx) _

end Col

end Novachains.Dms
