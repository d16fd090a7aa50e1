import Novachains.Dms.Body
import Novachains.Dms.Chain

/-!
# The space of a collection

The extents of a collection do not meet; each consists of records, deleted records and
taken blocks, and the delete lists have the deleted records of all extents by size.
-/

namespace Novachains.Dms

open Lib List Function

/-- What the extents of a collection hold, with the records on each delete list. -/
structure Contents where
  pages : ℕ → ℕ
  recs : ℕ → List Rec
  free : ℕ → List Run
  taken : ℕ → List Run
  dels : ℕ → List RecordID

def Contents.set (g : Contents) (x : ℕ) (recs : List Rec) (free taken : List Run)
    (dels : ℕ → List RecordID) : Contents where
  pages := g.pages
  recs := update g.recs x recs
  free := update g.free x free
  taken := update g.taken x taken
  dels := dels

section
variable (g : Contents) (x : ℕ) (recs : List Rec) (free taken : List Run)
  (dels : ℕ → List RecordID)

@[simp] theorem Contents.recs_set : (g.set x recs free taken dels).recs x = recs :=
  update_self ..

@[simp] theorem Contents.free_set : (g.set x recs free taken dels).free x = free :=
  update_self ..

@[simp] theorem Contents.taken_set : (g.set x recs free taken dels).taken x = taken :=
  update_self ..

end

@[simp] theorem Contents.set_self (g : Contents) (x : ℕ) :
    g.set x (g.recs x) (g.free x) (g.taken x) g.dels = g := by
  simp [Contents.set]

theorem Contents.set_set (g : Contents) (x : ℕ) (recs recs' : List Rec)
    (free free' taken taken' : List Run) (dels dels' : ℕ → List RecordID) :
    (g.set x recs free taken dels).set x recs' free' taken' dels' =
      g.set x recs' free' taken' dels' := by
  simp [Contents.set]

def Contents.save (g : Contents) (x : ℕ) (f : Run) (taken : List Run) : Contents :=
  g.set x (g.recs x) (f :: g.free x) taken fun j =>
    if j = deleteSlot f.size then ⟨x, f.start⟩ :: g.dels j else g.dels j

def Contents.take (g : Contents) (x : ℕ) (f : Run) (j : ℕ) (l : List RecordID) : Contents :=
  g.set x (g.recs x) ((g.free x).erase f) (f :: g.taken x) fun i => if i = j then l else g.dels i

namespace Col

def nextDel (c : Col) (rid : RecordID) : Option RecordID :=
  Record.nextRID c.data (c.recordAddr rid)

/-- The collection has the meta extent `mbEx` and the extents `added`, with the contents
`g`. -/
structure ColOk (c : Col) (mbEx : ℕ) (added : List ℕ) (g : Contents) : Prop where
  chain : c.ChainOk mbEx added
  blockID_lt : c.mb.blockID < mmeSlots
  pages_pos : ∀ e ∈ added, 0 < g.pages e
  pages_le : ∀ e ∈ added, g.pages e ≤ c.pageSize.segmentPages
  within : ∀ e ∈ added, e + g.pages e ≤ c.pages
  mbEx_apart : ∀ e ∈ added, e + g.pages e ≤ mbEx ∨ mbEx + c.pageSize.mbExSize ≤ e
  exts_apart : ∀ e ∈ added, ∀ e' ∈ added, e ≠ e' →
    e + g.pages e ≤ e' ∨ e' + g.pages e' ≤ e
  body : ∀ e ∈ added, BodyOk c.data (c.addr e) c.mb.blockID (g.pages e)
    (g.pages e * c.pageSize.bytes) (g.recs e) (g.free e) (g.taken e)
  path : ∀ j < maxSlot, Path c.nextDel (c.mb.deleteList j) (g.dels j) none
  nodup : ∀ j < maxSlot, (g.dels j).Nodup
  mem_dels : ∀ j < maxSlot, ∀ rid, rid ∈ g.dels j ↔
    rid.extent ∈ added ∧ ∃ f ∈ g.free rid.extent, f.start = rid.offset ∧ deleteSlot f.size = j

section Geometry
variable {c : Col} {mbEx x : ℕ} {added : List ℕ} {g : Contents}

theorem addr_add (c : Col) (e n : ℕ) : c.addr (e + n) = c.addr e + n * c.pageSize.bytes :=
  add_mul _ _ _

variable {e : ℕ}

theorem addr_le (c : Col) {e' : ℕ} (h : e ≤ e') : c.addr e ≤ c.addr e' :=
  Nat.mul_le_mul_right _ h

theorem ColOk.bytes_apart (h : c.ColOk mbEx added g) {e' : ℕ} (he : e ∈ added) (he' : e' ∈ added)
    (hne : e ≠ e') : c.addr e + g.pages e * c.pageSize.bytes ≤ c.addr e' ∨
      c.addr e' + g.pages e' * c.pageSize.bytes ≤ c.addr e := by
  rw [← c.addr_add, ← c.addr_add]
  exact (h.exts_apart e he e' he' hne).imp c.addr_le c.addr_le

theorem ColOk.mbEx_bytes_apart (h : c.ColOk mbEx added g) (he : e ∈ added) :
    c.addr e + g.pages e * c.pageSize.bytes ≤ c.addr mbEx ∨
      c.addr mbEx + 9 * c.pageSize.bytes ≤ c.addr e := by
  rw [← c.addr_add, ← c.addr_add]
  have := h.mbEx_apart e he
  rw [c.pageSize.mbExSize_eq] at this
  exact this.imp c.addr_le c.addr_le

theorem ColOk.size_le (h : c.ColOk mbEx added g) (he : e ∈ added) :
    4096 ≤ g.pages e * c.pageSize.bytes ∧ g.pages e * c.pageSize.bytes ≤ 2 ^ 27 := by
  constructor
  · exact c.pageSize.le_bytes.trans (Nat.le_mul_of_pos_left _ (h.pages_pos e he))
  · exact (Nat.mul_le_mul_right _ (h.pages_le e he)).trans
      (c.pageSize.segmentPages_mul_bytes.trans (by decide)).le

variable {j : ℕ} {rid : RecordID}

theorem ColOk.mem_free (h : c.ColOk mbEx added g) (hj : j < maxSlot) (hr : rid ∈ g.dels j) :
    rid.extent ∈ added ∧
      ∃ f ∈ g.free rid.extent, f.start = rid.offset ∧ deleteSlot f.size = j :=
  (h.mem_dels j hj rid).mp hr

theorem ColOk.slot_unique (h : c.ColOk mbEx added g) {i : ℕ} (hi : i < maxSlot) (hj : j < maxSlot)
    (hr : rid ∈ g.dels i) (hr' : rid ∈ g.dels j) : i = j := by
  obtain ⟨he, f, hf, hoff, hs⟩ := h.mem_free hi hr
  obtain ⟨-, f', hf', hoff', hs'⟩ := h.mem_free hj hr'
  have hff : f = f' := (h.body _ he).free_start_inj hf hf' (hoff.trans hoff'.symm)
  rw [← hs, hff, hs']

theorem ColOk.rid_lt (h : c.ColOk mbEx added g) (hj : j < maxSlot) (hr : rid ∈ g.dels j) :
    rid.extent < 256 ^ 4 - 1 ∧ rid.offset < 256 ^ 4 := by
  obtain ⟨he, f, hf, hoff, -⟩ := h.mem_free hj hr
  have h1 := (h.chain.mapped _ he).trans_le h.chain.pages_le
  have h2 := (h.body _ he).free_within hf
  have h3 := (h.size_le he).2
  have h4 : maxPg = 134217728 := rfl
  omega

end Geometry

/-- `c'` has the chain of `c` and the contents of its extents, except for `x`. -/
structure Keeps (c c' : Col) (mbEx : ℕ) (added : List ℕ) (g : Contents) (x : ℕ) : Prop where
  pageSize_eq : c'.pageSize = c.pageSize
  pages_eq : c'.pages = c.pages
  mb_eq : c'.mb = { c.mb with deleteList := c'.mb.deleteList }
  mbEx_same : c.data.SameOn c'.data (c.addr mbEx) (9 * c.pageSize.bytes)
  links_same : ∀ e ∈ added, c.data.SameOn c'.data (c.addr e + 8) 12
  body : ∀ e ∈ added, e ≠ x → BodyOk c'.data (c.addr e) c.mb.blockID (g.pages e)
    (g.pages e * c.pageSize.bytes) (g.recs e) (g.free e) (g.taken e)

/-- `c'` differs from `c` in the delete lists, the statistics and bytes of the extent `x`
behind its links. -/
structure Inside (c c' : Col) (g : Contents) (x : ℕ) : Prop where
  pageSize_eq : c'.pageSize = c.pageSize
  pages_eq : c'.pages = c.pages
  mb_eq : c'.mb = { c.mb with deleteList := c'.mb.deleteList }
  same : ∀ y n, y + n ≤ c.addr x + 20 ∨ c.addr x + g.pages x * c.pageSize.bytes ≤ y →
    c.data.SameOn c'.data y n

section Inside
variable {c c' : Col} {mbEx x : ℕ} {added : List ℕ} {g : Contents}

theorem Keeps.addr_eq (hk : c.Keeps c' mbEx added g x) (e : ℕ) : c'.addr e = c.addr e := by
  rw [addr, hk.pageSize_eq, addr]

theorem Inside.addr_eq (hi : c.Inside c' g x) (e : ℕ) : c'.addr e = c.addr e := by
  rw [addr, hi.pageSize_eq, addr]

theorem ColOk.keeps_inside (h : c.ColOk mbEx added g) (hx : x ∈ added) (hi : c.Inside c' g x) :
    c.Keeps c' mbEx added g x := by
  refine ⟨hi.pageSize_eq, hi.pages_eq, hi.mb_eq, hi.same _ _ ?_, fun e he => ?_,
    fun e he hne => ?_⟩
  · have := h.mbEx_bytes_apart hx
    omega
  · rcases eq_or_ne e x with rfl | hne
    · exact hi.same _ _ (by omega)
    · have h1 := h.bytes_apart he hx hne
      have h2 := (h.size_le he).1
      exact hi.same _ _ (by omega)
  · have hsame : c.data.SameOn c'.data (c.addr e) (g.pages e * c.pageSize.bytes) := by
      have := h.bytes_apart he hx hne
      exact hi.same _ _ (by omega)
    exact (h.body e he).congr_bytes hsame (by have := (h.size_le he).1; omega)

theorem ColOk.nextDel_inside (h : c.ColOk mbEx added g) (hx : x ∈ added) (hi : c.Inside c' g x)
    (hfree : ∀ f ∈ g.free x, c.data.SameOn c'.data (c.addr x + f.start + 8) 8) {j : ℕ}
    (hj : j < maxSlot) {rid : RecordID} (hr : rid ∈ g.dels j) : c'.nextDel rid = c.nextDel rid := by
  obtain ⟨he, f, hf, hoff, -⟩ := h.mem_free hj hr
  have hsame : c.data.SameOn c'.data (c.recordAddr rid + 8) 8 := by
    rw [recordAddr, ← hoff]
    rcases eq_or_ne rid.extent x with heq | hne
    · rw [heq] at hf ⊢
      exact hfree f hf
    have h1 := h.bytes_apart he hx hne
    have h3 := (h.body _ he).free_within hf
    exact hi.same _ _ (by omega)
  have haddr : c'.recordAddr rid = c.recordAddr rid := by rw [recordAddr, hi.addr_eq, recordAddr]
  rw [nextDel, nextDel, haddr, Record.nextRID_congr hsame]

/-- **A change of one extent** changes the contents of that extent. -/
theorem ColOk.set (h : c.ColOk mbEx added g) (hk : c.Keeps c' mbEx added g x)
    {recs : List Rec} {free taken : List Run} {dels : ℕ → List RecordID}
    (hbody : BodyOk c'.data (c.addr x) c.mb.blockID (g.pages x) (g.pages x * c.pageSize.bytes)
      recs free taken)
    (hpath : ∀ j < maxSlot, Path c'.nextDel (c'.mb.deleteList j) (dels j) none)
    (hnodup : ∀ j < maxSlot, (dels j).Nodup)
    (hmem : ∀ j < maxSlot, ∀ rid, rid ∈ dels j ↔ rid.extent ∈ added ∧
      ∃ f ∈ update g.free x free rid.extent, f.start = rid.offset ∧
        deleteSlot f.size = j) :
    c'.ColOk mbEx added (g.set x recs free taken dels) := by
  have hid : c'.mb.blockID = c.mb.blockID := by rw [hk.mb_eq]
  have hchain : c'.ChainOk mbEx added :=
    h.chain.congr hk.pageSize_eq hk.pages_eq.ge (hk.pages_eq.le.trans h.chain.pages_le)
      (by rw [hk.mb_eq]) (by rw [hk.mb_eq]) (by rw [hk.mb_eq]) hk.mbEx_same hk.links_same
  refine ⟨hchain, hid ▸ h.blockID_lt, h.pages_pos, hk.pageSize_eq ▸ h.pages_le,
    hk.pages_eq ▸ h.within, hk.pageSize_eq ▸ h.mbEx_apart, h.exts_apart, fun e he => ?_, hpath,
    hnodup, hmem⟩
  simp only [Contents.set]
  rw [hk.addr_eq, hid, hk.pageSize_eq]
  rcases eq_or_ne e x with rfl | hne
  · rw [update_self, update_self, update_self]
    exact hbody
  · rw [update_of_ne hne, update_of_ne hne, update_of_ne hne]
    exact hk.body e he hne

theorem ColOk.set_same (h : c.ColOk mbEx added g) (hx : x ∈ added) (hi : c.Inside c' g x)
    (hdel : c'.mb.deleteList = c.mb.deleteList) {recs : List Rec} {taken : List Run}
    (hbody : BodyOk c'.data (c.addr x) c.mb.blockID (g.pages x) (g.pages x * c.pageSize.bytes)
      recs (g.free x) taken)
    (hfree : ∀ f ∈ g.free x, c.data.SameOn c'.data (c.addr x + f.start + 8) 8) :
    c'.ColOk mbEx added (g.set x recs (g.free x) taken g.dels) := by
  refine h.set (h.keeps_inside hx hi) hbody (fun j hj => ?_) h.nodup fun j hj rid => ?_
  · rw [hdel]
    exact (h.path j hj).congr fun rid hr => h.nextDel_inside hx hi hfree hj hr
  · rw [update_eq_self]
    exact h.mem_dels j hj rid

end Inside

/-! ## Saving, taking and appending -/

section Steps
variable {c : Col} {mbEx x : ℕ} {added : List ℕ} {g : Contents}
variable {j : ℕ}

theorem ColOk.not_mem_dels (h : c.ColOk mbEx added g) (hx : x ∈ added) {t : Run}
    (ht : t ∈ g.taken x) (hj : j < maxSlot) : (⟨x, t.start⟩ : RecordID) ∉ g.dels j := by
  intro hr
  obtain ⟨-, f, hf, hoff, -⟩ := h.mem_free hj hr
  have h1 := (h.body x hx).free_apart hf ht
  have h2 := (h.body x hx).tiles.pos t (mem_append_right _ ht)
  have h3 := (h.body x hx).free_within hf
  dsimp only at hoff
  omega

/-- **Saving a taken block** as a deleted record. -/
theorem ColOk.save (h : c.ColOk mbEx added g) (hx : x ∈ added) {f : Run} {taken : List Run}
    (ht : g.taken x = f :: taken) (hmin : minRecordSz ≤ f.size) (hmax : f.size ≤ recordMaxSz) :
    (c.saveDeleted ⟨x, f.start⟩ f.size).ColOk mbEx added (g.save x f taken) := by
  have hm36 : minRecordSz = 36 := rfl
  have hsize := h.size_le hx
  have hbody := h.body x hx
  rw [ht] at hbody
  have hw := hbody.taken_within mem_cons_self
  have hslot := deleteSlot_lt (by omega) hmax
  obtain ⟨c', hc'⟩ : ∃ c', c.saveDeleted ⟨x, f.start⟩ f.size = c' := ⟨_, rfl⟩
  rw [c.saveDeleted_eq _ (by omega)] at hc'
  have hmb : c'.mb = setDeleteList c.mb (deleteSlot f.size) (some ⟨x, f.start⟩) := by rw [← hc']
  have hdata : c'.data = saveMem c.data (c.addr x) (c.addr x + f.start) f.start f.size
      (c.mb.deleteList (deleteSlot f.size)) := by rw [← hc']; rfl
  have hsame : ∀ y n, y + n ≤ c.addr x + f.start ∨ c.addr x + f.start + 16 ≤ y →
      y + n ≤ c.addr x + 32 ∨ c.addr x + 36 ≤ y → c.data.SameOn c'.data y n := fun y n h1 h2 =>
    hdata ▸ sameOn_saveMem c.data h1 h2
  have hi : c.Inside c' g x :=
    ⟨by rw [← hc'], by rw [← hc'], by rw [hmb]; rfl, fun y n hy => hsame y n (by omega) (by omega)⟩
  -- The other deleted records keep their pointers.
  have hfree : ∀ f' ∈ g.free x, c.data.SameOn c'.data (c.addr x + f'.start + 8) 8 := by
    intro f' hf'
    have h1 := hbody.free_apart hf' mem_cons_self
    have h3 := hbody.free_within hf'
    exact hsame _ _ (by omega) (by omega)
  have hold : ∀ j < maxSlot, Path c'.nextDel (c.mb.deleteList j) (g.dels j) none := fun j hj =>
    (h.path j hj).congr fun rid hr => h.nextDel_inside hx hi hfree hj hr
  have hnext : c'.nextDel ⟨x, f.start⟩ = c.mb.deleteList (deleteSlot f.size) := by
    rw [nextDel, recordAddr, hi.addr_eq, hdata]
    refine nextRID_setNextRID _ _ fun rid hr => h.rid_lt hslot ?_
    rw [(h.path _ hslot).head?] at hr
    exact mem_of_head? hr
  rw [c.saveDeleted_eq _ (by omega), hc']
  refine h.set (h.keeps_inside hx hi) (hdata ▸ hbody.save (by omega) hmin hmax _) ?_ ?_ ?_
  · intro j hj
    rw [hmb, setDeleteList]
    dsimp only
    split
    next hjs =>
      refine ⟨rfl, ?_⟩
      rw [hnext, ← hjs]
      exact hold j hj
    next => exact hold j hj
  · intro j hj
    split
    next hjs =>
      exact nodup_cons.mpr
        ⟨h.not_mem_dels hx (ht ▸ mem_cons_self) hj, h.nodup j hj⟩
    next => exact h.nodup j hj
  · intro j hj rid
    have hupd : ∀ f', f' ∈ update g.free x (f :: g.free x) rid.extent ↔
        rid.extent = x ∧ f' = f ∨ f' ∈ g.free rid.extent := by
      intro f'
      by_cases he : rid.extent = x <;> simp [he]
    have hmem := h.mem_dels j hj rid
    have hrid : rid = ⟨x, f.start⟩ ↔ rid.extent = x ∧ f.start = rid.offset := by
      cases rid
      simp [eq_comm]
    simp only [hupd]
    grind

variable {rid : RecordID}

theorem ColOk.rid_apart (h : c.ColOk mbEx added g) {i : ℕ} (hi : i < maxSlot) (hj : j < maxSlot)
    {rid' : RecordID} (hr : rid ∈ g.dels i) (hr' : rid' ∈ g.dels j) (hne : rid ≠ rid') :
    c.recordAddr rid + 36 ≤ c.recordAddr rid' ∨ c.recordAddr rid' + 36 ≤ c.recordAddr rid := by
  obtain ⟨he, f, hf, hoff, -⟩ := h.mem_free hi hr
  obtain ⟨he', f', hf', hoff', -⟩ := h.mem_free hj hr'
  have h3 := (h.body _ he).free_within hf
  have h4 := (h.body _ he').free_within hf'
  simp only [recordAddr, ← hoff, ← hoff']
  by_cases heq : rid.extent = rid'.extent
  · have hff : f ≠ f' := by
      rintro rfl
      refine hne ?_
      cases rid
      cases rid'
      simp only [RecordID.mk.injEq]
      exact ⟨heq, hoff.symm.trans hoff'⟩
    rw [← heq] at hf' ⊢
    have h5 := (h.body _ he).free_free_apart hf hf' hff
    omega
  · have h5 := h.bytes_apart he he' heq
    omega

theorem ColOk.body_pointer (h : c.ColOk mbEx added g) {m : Mem} (hj : j < maxSlot) {pre : RecordID}
    (hp : pre ∈ g.dels j)
    (hsame : ∀ y n, y + n ≤ c.recordAddr pre + 8 ∨ c.recordAddr pre + 16 ≤ y → c.data.SameOn m y n)
    {e : ℕ} (he : e ∈ added) :
    BodyOk m (c.addr e) c.mb.blockID (g.pages e) (g.pages e * c.pageSize.bytes) (g.recs e)
      (g.free e) (g.taken e) := by
  obtain ⟨hpe, f, hf, hoff, -⟩ := h.mem_free hj hp
  have h2 := (h.body _ hpe).free_within hf
  rw [recordAddr, ← hoff] at hsame
  by_cases heq : e = pre.extent
  · subst heq
    refine (h.body _ he).congr (hsame _ _ (by omega)) (hsame _ _ (by omega)) ?_ ?_
    · intro r hr
      have := (h.body _ he).rec_free_apart hr hf
      exact hsame _ _ (by omega)
    intro f' hf'
    by_cases hff : f' = f
    · exact hsame _ _ (by rw [hff]; omega)
    · have h3 := (h.body _ he).free_free_apart hf' hf hff
      exact hsame _ _ (by omega)
  · have h3 := h.bytes_apart he hpe heq
    have h4 := (h.size_le he).1
    exact (h.body _ he).congr_bytes (hsame _ _ (by omega)) (by omega)

/-- The list `j` has been linked past a record, and nothing else has changed. -/
structure Unlinked (c c' : Col) (added : List ℕ) (g : Contents) (j : ℕ) (l : List RecordID) :
    Prop where
  pageSize_eq : c'.pageSize = c.pageSize
  pages_eq : c'.pages = c.pages
  mb_eq : c'.mb = { c.mb with deleteList := c'.mb.deleteList }
  stat_eq : c'.stat = c.stat
  same : ∀ y n, (∀ p ∈ l, y + n ≤ c.recordAddr p + 8 ∨ c.recordAddr p + 16 ≤ y) →
    c.data.SameOn c'.data y n
  body : ∀ e ∈ added, BodyOk c'.data (c.addr e) c.mb.blockID (g.pages e)
    (g.pages e * c.pageSize.bytes) (g.recs e) (g.free e) (g.taken e)
  path : ∀ i < maxSlot, Path c'.nextDel (c'.mb.deleteList i) (if i = j then l else g.dels i) none

variable {l : List RecordID}

theorem ColOk.unlink (h : c.ColOk mbEx added g) (hj : j < maxSlot) {k : List RecordID}
    (hd : g.dels j = k ++ rid :: l) :
    c.Unlinked (c.unlinkDeleted j k.getLast? rid) added g j (k ++ l) := by
  have hpath := h.path j hj
  have hnd := h.nodup j hj
  rw [hd] at hpath hnd
  rcases eq_nil_or_concat' k with rfl | ⟨k, p, rfl⟩
  · -- The first of the list: only the head of the list changes.
    refine ⟨rfl, rfl, rfl, rfl, fun _ _ _ => .rfl, h.body, fun i hi => ?_⟩
    change Path c.nextDel (if i = j then c.nextDel rid else c.mb.deleteList i) _ none
    split
    · exact hpath.2
    · exact h.path i hi
  · rw [getLast?_concat]
    have hp : p ∈ g.dels j := by rw [hd]; simp
    have hrid : rid ∈ g.dels j := by rw [hd]; simp
    have hsame : ∀ y n, y + n ≤ c.recordAddr p + 8 ∨ c.recordAddr p + 16 ≤ y →
        c.data.SameOn (c.unlinkDeleted j (some p) rid).data y n := fun y n hy =>
      c.data.sameOn_writeOpt.trans (Mem.sameOn_writeOpt _)
    have hother : ∀ i < maxSlot, ∀ q ∈ g.dels i, q ≠ p →
        (c.unlinkDeleted j (some p) rid).nextDel q = c.nextDel q := by
      intro i hi q hq hne
      have hap := h.rid_apart hi hj hq hp hne
      exact Record.nextRID_congr (hsame (c.recordAddr q + 8) 8 (by omega))
    have hnext : (c.unlinkDeleted j (some p) rid).nextDel p = c.nextDel rid := by
      refine nextRID_setNextRID _ _ fun q hq => h.rid_lt hj (?_ : q ∈ _)
      obtain ⟨m, -, hm⟩ := path_append.mp hpath
      have hhead : c.nextDel rid = l.head? := hm.2.head?
      rw [hd]
      exact mem_append_right _ (mem_cons_of_mem _ (mem_of_head? (hhead ▸ hq)))
    refine ⟨rfl, rfl, rfl, rfl, fun y n hy => hsame y n (hy p (by simp)),
      fun e he => h.body_pointer hj hp hsame he, fun i hi => ?_⟩
    split
    next hij =>
      subst hij
      rw [append_assoc] at hpath hnd ⊢
      refine hpath.remove hnext fun q hq => ?_
      have hqd : q ∈ g.dels i := by
        rw [hd]
        rcases mem_append.mp hq with hq | hq <;> simp [hq]
      refine hother i hi q hqd ?_
      rintro rfl
      have hnd' := nodup_append.mp hnd
      rcases mem_append.mp hq with hq | hq
      · exact hnd'.2.2 q hq q (by simp) rfl
      · simp [hq] at hnd'
    next hij =>
      refine (h.path i hi).congr fun q hq => hother i hi q hq ?_
      rintro rfl
      exact hij (h.slot_unique hi hj hq hp)

theorem ColOk.rid_within (h : c.ColOk mbEx added g) (hj : j < maxSlot) (hr : rid ∈ g.dels j) :
    rid.extent ∈ added ∧ c.addr rid.extent + 36 ≤ c.recordAddr rid ∧
      c.recordAddr rid + 36 ≤ c.addr rid.extent + g.pages rid.extent * c.pageSize.bytes := by
  obtain ⟨he, f, hf, hoff, -⟩ := h.mem_free hj hr
  have h2 := (h.body _ he).free_within hf
  rw [recordAddr, ← hoff]
  exact ⟨he, by omega, by omega⟩

theorem ColOk.unlinked_same (h : c.ColOk mbEx added g) {c' : Col} (hj : j < maxSlot)
    (hl : ∀ p ∈ l, p ∈ g.dels j) (hu : c.Unlinked c' added g j l) :
    c.data.SameOn c'.data (c.addr mbEx) (9 * c.pageSize.bytes) ∧
      ∀ e ∈ added, c.data.SameOn c'.data (c.addr e) 36 := by
  refine ⟨hu.same _ _ fun p hp => ?_, fun e he => hu.same _ _ fun p hp => ?_⟩
  · obtain ⟨hpe, h1, h2⟩ := h.rid_within hj (hl p hp)
    have h3 := h.mbEx_bytes_apart hpe
    omega
  obtain ⟨hpe, h1, h2⟩ := h.rid_within hj (hl p hp)
  by_cases heq : e = p.extent
  · rw [heq]
    omega
  · have h3 := h.bytes_apart he hpe heq
    have h4 := (h.size_le he).1
    omega

/-- **Taking a deleted record** off its list. -/
theorem ColOk.take (h : c.ColOk mbEx added g) (hj : j < maxSlot) {k : List RecordID}
    (hd : g.dels j = k ++ rid :: l) : ∃ f ∈ g.free rid.extent, f.start = rid.offset ∧
      (c.takeDeleted j k.getLast? rid).ColOk mbEx added (g.take rid.extent f j (k ++ l)) ∧
      FreeOk (c.takeDeleted j k.getLast? rid).data (c.recordAddr rid) f := by
  have hu := h.unlink hj hd
  have hrid : rid ∈ g.dels j := by rw [hd]; simp
  have hnd := h.nodup j hj
  rw [hd] at hnd
  have hnot : rid ∉ k ++ l := (nodup_middle.mp hnd |> nodup_cons.mp).1
  have hsub : ∀ p ∈ k ++ l, p ∈ g.dels j := fun p hp => by
    rw [hd]
    rcases mem_append.mp hp with hp | hp <;> simp [hp]
  obtain ⟨hx, f, hf, hoff, hslot⟩ := h.mem_free hj hrid
  obtain ⟨c₁, hc₁⟩ : ∃ c₁, c.unlinkDeleted j k.getLast? rid = c₁ := ⟨_, rfl⟩
  rw [hc₁] at hu
  have haddr : ∀ e, c₁.addr e = c.addr e := fun e => by rw [addr, hu.pageSize_eq, addr]
  have hperm := perm_cons_erase hf
  have hbody := (hu.body _ hx).perm hperm (List.Perm.refl _)
  have hfok := hbody.free_ok f mem_cons_self
  have hsize : Record.size c₁.data (c₁.recordAddr rid) = f.size := by
    rw [recordAddr, haddr, ← hoff]
    exact hfok.size_eq
  obtain ⟨c', hc'⟩ : ∃ c', c.takeDeleted j k.getLast? rid = c' := ⟨_, rfl⟩
  have hdata : c'.data = Extent.setFreeSpace c₁.data (c.addr rid.extent)
      (Extent.freeSpace c₁.data (c.addr rid.extent) - f.size) := by
    rw [← hc', takeDeleted]
    rw [hc₁, hsize, haddr]
  have hmb : c'.mb = c₁.mb := by rw [← hc', ← hc₁]; rfl
  have hps : c'.pageSize = c₁.pageSize := by rw [← hc', ← hc₁]; rfl
  have hpg : c'.pages = c₁.pages := by rw [← hc', ← hc₁]; rfl
  have hsame : ∀ y n, y + n ≤ c.addr rid.extent + 32 ∨ c.addr rid.extent + 36 ≤ y →
      c₁.data.SameOn c'.data y n := fun y n hy => hdata ▸ c₁.data.sameOn_write
  have hsz := h.size_le hx
  obtain ⟨hmeta, hhead⟩ := h.unlinked_same hj hsub hu
  have hw := h.rid_within hj hrid
  rw [hc']
  have hkeeps : c.Keeps c' mbEx added g rid.extent := by
    refine ⟨hps.trans hu.pageSize_eq, hpg.trans hu.pages_eq, by rw [hmb]; exact hu.mb_eq,
      hmeta.trans (hsame _ _ ?_), fun e he => ?_, fun e he hne => ?_⟩
    · have := h.mbEx_bytes_apart hx
      omega
    · refine ((hhead e he).mono).trans (hsame _ _ ?_)
      by_cases heq : e = rid.extent
      · rw [heq]
        omega
      · have h1 := h.bytes_apart he hx heq
        have h2 := (h.size_le he).1
        omega
    · have h1 := h.bytes_apart he hx hne
      have h2 := (h.size_le he).1
      exact (hu.body e he).congr_bytes (hsame _ _ (by omega)) (by omega)
  have hnext : ∀ i < maxSlot, ∀ q ∈ g.dels i, c'.nextDel q = c₁.nextDel q := by
    intro i hi q hq
    have hqa : c'.recordAddr q = c₁.recordAddr q := by rw [recordAddr, addr, hps]; rfl
    obtain ⟨hqe, h1, h2⟩ := h.rid_within hi hq
    have hs : c₁.data.SameOn c'.data (c₁.recordAddr q + 8) 8 := by
      refine hsame _ _ ?_
      have hcq : c₁.recordAddr q = c.recordAddr q := by rw [recordAddr, haddr, recordAddr]
      rw [hcq]
      by_cases heq : q.extent = rid.extent
      · rw [heq] at h1 h2
        omega
      · have h3 := h.bytes_apart hqe hx heq
        omega
    rw [nextDel, nextDel, hqa, Record.nextRID_congr hs]
  refine ⟨f, hf, hoff, h.set hkeeps (hdata ▸ hbody.take (by omega)) ?_ ?_ ?_, ?_⟩
  · intro i hi
    rw [hmb]
    refine (hu.path i hi).congr fun q hq => hnext i hi q ?_
    split at hq
    next hij => exact hij ▸ hsub q hq
    next => exact hq
  · intro i hi
    split
    next => exact (nodup_cons.mp (nodup_middle.mp hnd)).2
    next => exact h.nodup i hi
  · intro i hi q
    have hmem := h.mem_dels i hi q
    have hlist : q ∈ (if i = j then k ++ l else g.dels i) ↔ q ∈ g.dels i ∧ q ≠ rid := by
      by_cases hq : q = rid
      · subst hq
        split
        next => simp [hnot]
        next hij => simpa using fun hq => hij (h.slot_unique hi hj hq hrid)
      · split
        next hij => simp [hij, hd, hq]
        next => simp [hq]
    have hupd : ∀ f', f' ∈ update g.free rid.extent ((g.free rid.extent).erase f) q.extent ↔
        f' ∈ g.free q.extent ∧ ¬ (q.extent = rid.extent ∧ f' = f) := by
      intro f'
      by_cases he : q.extent = rid.extent
      · simp [he, (h.body _ hx).nodup_free.mem_erase_iff, and_comm]
      · simp [he]
    -- The record taken is the one deleted record at its place.
    have hrid_iff : ∀ f' ∈ g.free q.extent, f'.start = q.offset →
        (q.extent = rid.extent ∧ f' = f ↔ q = rid) := by
      intro f' hf' ho
      constructor
      · rintro ⟨he, rfl⟩
        cases q
        cases rid
        simp only [RecordID.mk.injEq]
        exact ⟨he, ho.symm.trans hoff⟩
      · rintro rfl
        exact ⟨rfl, (h.body _ hx).free_start_inj hf' hf (ho.trans hoff.symm)⟩
    rw [hlist, hmem]
    simp only [hupd]
    grind
  · rw [hdata, recordAddr, ← hoff]
    have := (h.body _ hx).free_within hf
    exact hfok.congr c₁.data.sameOn_write

end Steps

end Col

end Novachains.Dms
