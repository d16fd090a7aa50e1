import Novachains.Dms.Records
import Novachains.Lib.Links
import Novachains.Lib.Tiles

/-!
# The body of an extent

Behind its header an extent consists of records, deleted records and blocks that are
neither: those being worked on, and those that were taken off their list and never given
back.  Each change of an extent moves a block from one of these parts to another.
-/

namespace Novachains.Dms

open Lib List Mem Extent

structure Rec where
  off : ℕ
  size : ℕ
  data : List UInt8

def Rec.run (r : Rec) : Run := ⟨r.off, r.size⟩

/-- The record at the address `p` is `r`. -/
structure RecOk (m : Mem) (p : ℕ) (r : Rec) : Prop where
  flag_eq : Record.flag m p = 0
  size_eq : Record.size m p = r.size
  data_eq : m.load (p + recordMetadataSz) r.data.length = r.data
  length_eq : Record.dataLength m p = r.data.length
  fits : recordMetadataSz + r.data.length ≤ r.size
  min_le : minRecordDataSz ≤ r.data.length

/-- The deleted record at the address `p` is the block `f`. -/
structure FreeOk (m : Mem) (p : ℕ) (f : Run) : Prop where
  flag_eq : Record.flag m p = 4
  size_eq : Record.size m p = f.size
  myOffset_eq : Record.myOffset m p = f.start
  min_le : minRecordSz ≤ f.size
  le_max : f.size ≤ recordMaxSz

variable {m m' : Mem} {p : ℕ} {r : Rec}

theorem RecOk.congr (h : RecOk m p r) (hs : m.SameOn m' p 8)
    (hd : m.SameOn m' (p + recordMetadataSz) r.data.length) : RecOk m' p r := by
  have hl := h.min_le
  have hmin : minRecordDataSz = 5 := rfl
  have hlen : Record.dataLength m' p = Record.dataLength m p :=
    congrArg (· &&& 0x00FFFFFF) (read_congr hd.mono)
  exact ⟨(read_congr hs.mono).trans h.flag_eq,
    (congrArg (· + 1) (read_congr hs.mono)).trans h.size_eq,
    (load_congr hd).trans h.data_eq, hlen.trans h.length_eq, h.fits, hl⟩

theorem RecOk.congr_run (h : RecOk m p r) (hs : m.SameOn m' p r.size) : RecOk m' p r := by
  have hf := h.fits
  have hsz : recordMetadataSz = 16 := rfl
  exact h.congr hs.mono hs.mono

variable {f : Run}

theorem FreeOk.congr (h : FreeOk m p f) (hs : m.SameOn m' p 8) : FreeOk m' p f :=
  ⟨(read_congr hs.mono).trans h.flag_eq,
    (congrArg (· + 1) (read_congr hs.mono)).trans h.size_eq,
    (read_congr hs.mono).trans h.myOffset_eq, h.min_le, h.le_max⟩

/-- The extent at `a` of the collection `id`, with `pages` pages and `size` bytes, has its header,
the records `recs`, the deleted records `free` and the blocks `taken`. -/
structure BodyOk (m : Mem) (a id pages size : ℕ) (recs : List Rec) (free taken : List Run) :
    Prop where
  valid : Extent.validate m a id = true
  blockSize_eq : blockSize m a = pages
  tiles : Tiles extentMetadataSz size (recs.map Rec.run ++ free ++ taken)
  freeSpace_eq : freeSpace m a = (free.map Run.size).sum
  recCount_eq : recCount m a = recs.length
  first_eq : firstRecordOffset m a = (recs.map Rec.off).head?
  last_eq : lastRecordOffset m a = (recs.map Rec.off).getLast?
  linked : Linked (fun o => Record.nextOffset m (a + o)) (fun o => Record.prevOffset m (a + o))
    (recs.map Rec.off)
  rec_ok : ∀ r ∈ recs, RecOk m (a + r.off) r
  free_ok : ∀ f ∈ free, FreeOk m (a + f.start) f

namespace BodyOk
variable {m m' : Mem} {a id pages size : ℕ} {recs : List Rec} {free taken : List Run}

theorem validate_congr (h : m.SameOn m' a 8) :
    Extent.validate m' a id = Extent.validate m a id := by
  have h1 : m'.load a 2 = m.load a 2 := load_congr h.mono
  have h2 : Extent.flag m' a = Extent.flag m a := read_congr h.mono
  have h3 : Extent.mbID m' a = Extent.mbID m a := read_congr h.mono
  rw [Extent.validate, h1, h2, h3, Extent.validate]

section
variable (h : BodyOk m a id pages size recs free taken)
include h

theorem refree {free' taken' : List Run}
    (hhead : m.SameOn m' a 8) (hcounts : m.SameOn m' (a + 20) 12)
    (hrec : ∀ r ∈ recs, m.SameOn m' (a + r.off) r.size)
    (htiles : Tiles extentMetadataSz size (recs.map Rec.run ++ free' ++ taken'))
    (hspace : freeSpace m' a = (free'.map Run.size).sum)
    (hfree : ∀ f ∈ free', FreeOk m' (a + f.start) f) :
    BodyOk m' a id pages size recs free' taken' := by
  have hlink : ∀ o ∈ recs.map Rec.off, m.SameOn m' (a + o + 8) 8 := by
    intro o ho
    obtain ⟨r, hr, rfl⟩ := List.mem_map.mp ho
    have h1 := (h.rec_ok r hr).fits
    have h2 : recordMetadataSz = 16 := rfl
    exact (hrec r hr).mono
  refine ⟨(validate_congr hhead).trans h.valid,
    (read_congr hhead.mono).trans h.blockSize_eq, htiles, hspace,
    (read_congr hcounts.mono).trans h.recCount_eq,
    (readOpt_congr hcounts.mono).trans h.first_eq,
    (readOpt_congr hcounts.mono).trans h.last_eq,
    h.linked.congr ?_ ?_, fun r hr => (h.rec_ok r hr).congr_run (hrec r hr), hfree⟩
  · exact fun o ho => readOpt_congr ((hlink o ho).mono)
  · exact fun o ho => readOpt_congr ((hlink o ho).mono)

theorem congr (hhead : m.SameOn m' a 8)
    (hcounts : m.SameOn m' (a + 20) 16) (hrec : ∀ r ∈ recs, m.SameOn m' (a + r.off) r.size)
    (hfree : ∀ f ∈ free, m.SameOn m' (a + f.start) 8) :
    BodyOk m' a id pages size recs free taken :=
  h.refree hhead hcounts.mono hrec h.tiles
    ((read_congr hcounts.mono).trans h.freeSpace_eq)
    fun f hf => (h.free_ok f hf).congr (hfree f hf)

theorem perm {free' taken' : List Run}
    (hf : free.Perm free') (ht : taken.Perm taken') :
    BodyOk m a id pages size recs free' taken' :=
  ⟨h.valid, h.blockSize_eq, h.tiles.perm ((hf.append_left _).append ht),
    by rw [h.freeSpace_eq, (hf.map Run.size).sum_eq], h.recCount_eq, h.first_eq, h.last_eq,
    h.linked, h.rec_ok, fun f hm => h.free_ok f (hf.mem_iff.mpr hm)⟩

end

theorem split {s i j : ℕ} (h : BodyOk m a id pages size recs free (⟨s, i + j⟩ :: taken))
    (hi : 0 < i) (hj : 0 < j) :
    BodyOk m a id pages size recs free (⟨s, i⟩ :: ⟨s + i, j⟩ :: taken) := by
  have ht := (h.tiles.perm perm_middle).split hi hj
  refine { h with tiles := ht.perm ?_ }
  exact ((perm_middle.symm).cons _).trans perm_middle.symm

theorem change_taken {t : Run} (h : BodyOk m a id pages size recs free taken) (ht : t ∈ taken)
    (hs : ∀ y n, y + n ≤ a + t.start ∨ a + t.start + t.size ≤ y → m.SameOn m' y n) :
    BodyOk m' a id pages size recs free taken := by
  have hsz : extentMetadataSz = 36 := rfl
  have hw := (h.tiles.within t (mem_append_right _ ht)).1
  refine h.congr (hs _ _ (by omega)) (hs _ _ (by omega)) ?_ ?_
  · intro r hr
    have := h.tiles.apart_append r.run
      (mem_append_left _ (List.mem_map_of_mem hr)) t ht
    simp only [Run.Apart, Rec.run] at this
    exact hs _ _ (by omega)
  · intro f hf
    have := h.tiles.apart_append f (mem_append_right _ hf) t ht
    have hmin := (h.free_ok f hf).min_le
    have hm : minRecordSz = 36 := rfl
    simp only [Run.Apart] at this
    exact hs _ _ (by omega)

end BodyOk

def saveMem (m : Mem) (a p off size : ℕ) (next : Option RecordID) : Mem :=
  let m := Record.setDeleted m p
  let m := Record.setSize m p size
  let m := Record.setMyOffset m p off
  let m := setFreeSpace m a (freeSpace m a + size)
  Record.setNextRID m p next

theorem Col.saveDeleted_eq (c : Col) (rid : RecordID) {size : ℕ} (h : 0 < size) :
    c.saveDeleted rid size =
      { c with
        data := saveMem c.data (c.addr rid.extent) (c.recordAddr rid) rid.offset size
          (c.mb.deleteList (deleteSlot size))
        mb := Col.setDeleteList c.mb (deleteSlot size) (some rid)
        stat := { c.stat with totals := { c.stat.totals with
          totalDataFreeSpace := c.stat.totals.totalDataFreeSpace + size } } } := by
  simp [Col.saveDeleted, saveMem, h]

section SaveMem
variable (m : Mem) {a p off size : ℕ} {next : Option RecordID}

theorem sameOn_saveMem {y n : ℕ} (hp : y + n ≤ p ∨ p + 16 ≤ y)
    (ha : y + n ≤ a + 32 ∨ a + 36 ≤ y) : m.SameOn (saveMem m a p off size next) y n :=
  m.sameOn_write.write.write.write.writeOpt.writeOpt

theorem freeOk_saveMem (hap : a + 36 ≤ p) (hoff : off < 2 ^ 32) (hmin : minRecordSz ≤ size)
    (hmax : size ≤ recordMaxSz) : FreeOk (saveMem m a p off size next) p ⟨off, size⟩ := by
  have h1 : minRecordSz = 36 := rfl
  have h2 : recordMaxSz = 16777216 := rfl
  refine ⟨?_, ?_, ?_, hmin, hmax⟩
  · exact (read_congr (sameOn_write _).write.write.writeOpt.writeOpt).trans
      (read_write_same _ _ _ _)
  · refine (congrArg (· + 1) ((read_congr (sameOn_write _).write.writeOpt.writeOpt).trans
      (read_write_same _ _ _ _))).trans ?_
    change (size - 1) % 256 ^ 3 + 1 = size
    rw [Nat.mod_eq_of_lt (by omega)]
    omega
  · exact (read_congr (sameOn_write _).writeOpt.writeOpt).trans
      ((read_write_same _ _ _ _).trans (Nat.mod_eq_of_lt hoff))

theorem freeSpace_saveMem (hap : a + 36 ≤ p) (h : freeSpace m a + size < 2 ^ 32) :
    freeSpace (saveMem m a p off size next) a = freeSpace m a + size := by
  have hpre : freeSpace (Record.setMyOffset (Record.setSize (Record.setDeleted m p) p size)
      p off) a = freeSpace m a :=
    read_congr m.sameOn_write.write.write
  refine (read_congr (sameOn_writeOpt _).writeOpt).trans ((read_write_same _ _ _ _).trans ?_)
  rw [hpre]
  exact Nat.mod_eq_of_lt h

theorem nextRID_setNextRID (r : ℕ)
    (h : ∀ rid ∈ next, rid.extent < 256 ^ 4 - 1 ∧ rid.offset < 256 ^ 4) :
    Record.nextRID (Record.setNextRID m r next) r = next := by
  have hext : (Record.setNextRID m r next).readOpt (r + 8) 4 = next.map RecordID.extent := by
    refine (readOpt_congr (sameOn_writeOpt _)).trans
      (m.readOpt_writeOpt_same _ _ fun v hv => ?_)
    obtain ⟨rid, hr, rfl⟩ := Option.mem_map.mp hv
    exact (h rid hr).1
  have hoff : (Record.setNextRID m r next).read (r + 12) 4 =
      (next.map RecordID.offset).getD (256 ^ 4 - 1) % 256 ^ 4 := read_write_same _ _ _ _
  rw [Record.nextRID, hext, hoff]
  cases next with
  | none => rfl
  | some rid =>
    rw [Option.map_some, Option.map_some, Option.map_some, Option.getD_some,
      Nat.mod_eq_of_lt (h rid rfl).2]

end SaveMem

namespace BodyOk
variable {m m' : Mem} {a id pages size : ℕ} {recs : List Rec} {free taken : List Run}

theorem rec_within (h : BodyOk m a id pages size recs free taken) (hr : r ∈ recs) :
    36 ≤ r.off ∧ r.off + r.size ≤ size ∧ 16 + r.data.length ≤ r.size :=
  have hw := h.tiles.within r.run (mem_append_left _ (mem_append_left _ (List.mem_map_of_mem hr)))
  ⟨hw.1, hw.2, (h.rec_ok r hr).fits⟩

theorem free_within (h : BodyOk m a id pages size recs free taken) (hf : f ∈ free) :
    36 ≤ f.start ∧ f.start + f.size ≤ size ∧ 36 ≤ f.size :=
  have hw := h.tiles.within f (mem_append_left _ (mem_append_right _ hf))
  ⟨hw.1, hw.2, (h.free_ok f hf).min_le⟩

variable {t : Run}

section
variable (h : BodyOk m a id pages size recs free taken)
include h

theorem taken_within (ht : t ∈ taken) :
    36 ≤ t.start ∧ t.start + t.size ≤ size :=
  h.tiles.within t (mem_append_right _ ht)

theorem rec_apart (hr : r ∈ recs) (ht : t ∈ taken) :
    r.off + r.size ≤ t.start ∨ t.start + t.size ≤ r.off :=
  h.tiles.apart_append r.run (mem_append_left _ (List.mem_map_of_mem hr)) t ht

theorem free_apart (hf : f ∈ free) (ht : t ∈ taken) :
    f.start + f.size ≤ t.start ∨ t.start + t.size ≤ f.start :=
  h.tiles.apart_append f (mem_append_right _ hf) t ht

theorem rec_free_apart (hr : r ∈ recs)
    (hf : f ∈ free) : r.off + r.size ≤ f.start ∨ f.start + f.size ≤ r.off :=
  (pairwise_append.mp (pairwise_append.mp h.tiles.apart).1).2.2 r.run
    (List.mem_map_of_mem hr) f hf

theorem free_free_apart (hf : f ∈ free)
    (ht : t ∈ free) (hne : f ≠ t) : f.start + f.size ≤ t.start ∨ t.start + t.size ≤ f.start :=
  (pairwise_append.mp (pairwise_append.mp h.tiles.apart).1).2.1.forall hf ht hne

theorem free_start_inj (hf : f ∈ free)
    (ht : t ∈ free) (hs : f.start = t.start) : f = t := by
  by_contra hne
  have h1 := h.free_free_apart hf ht hne
  have h2 := h.free_within hf
  have h3 := h.free_within ht
  omega

theorem nodup_free : free.Nodup :=
  (nodup_append.mp (nodup_append.mp h.tiles.nodup).1).2.1

theorem congr_bytes (hs : m.SameOn m' a size)
    (hsize : 36 ≤ size) : BodyOk m' a id pages size recs free taken := by
  refine h.congr hs.mono hs.mono ?_ ?_
  · intro r hr
    have := h.rec_within hr
    exact hs.mono
  intro f hf
  have h2 := h.free_within hf
  exact hs.mono

end

theorem perm_move (recs : List Run) (free taken : List Run) (f : Run) :
    (recs ++ free ++ f :: taken).Perm (recs ++ (f :: free) ++ taken) := by
  rw [append_assoc, append_assoc, cons_append]
  exact List.perm_middle.append_left _

/-- **Saving a deleted record** turns a taken block into a deleted one. -/
theorem save (h : BodyOk m a id pages size recs free (f :: taken)) (hsize : size < 2 ^ 32)
    (hmin : minRecordSz ≤ f.size) (hmax : f.size ≤ recordMaxSz) (next : Option RecordID) :
    BodyOk (saveMem m a (a + f.start) f.start f.size next) a id pages size recs (f :: free)
      taken := by
  have hm36 : minRecordSz = 36 := rfl
  have hw := h.taken_within mem_cons_self
  have hsame : ∀ y n, y + n ≤ a + f.start ∨ a + f.start + f.size ≤ y →
      y + n ≤ a + 32 ∨ a + 36 ≤ y →
      m.SameOn (saveMem m a (a + f.start) f.start f.size next) y n := fun y n h1 h2 =>
    sameOn_saveMem m (by omega) h2
  have hsum : freeSpace m a + f.size < 2 ^ 32 := by
    have htot := h.tiles.total_eq
    simp only [map_append, sum_append, map_cons, sum_cons] at htot
    rw [h.freeSpace_eq]
    omega
  refine h.refree (hsame _ _ (by omega) (by omega)) (hsame _ _ (by omega) (by omega)) ?_
    (h.tiles.perm (perm_move _ _ _ f)) ?_ ?_
  · intro r hr
    have h1 := h.rec_apart hr mem_cons_self
    have h2 := h.rec_within hr
    exact hsame _ _ (by omega) (by omega)
  · rw [freeSpace_saveMem m (by omega) hsum, h.freeSpace_eq, map_cons, sum_cons, add_comm]
  · intro g hg
    rcases mem_cons.mp hg with rfl | hg
    · exact freeOk_saveMem m (by omega) (by omega) hmin hmax
    have h1 := h.free_apart hg mem_cons_self
    have h3 := h.free_within hg
    exact (h.free_ok g hg).congr (hsame _ _ (by omega) (by omega))

/-- **Taking a deleted record** turns it into a taken block. -/
theorem take (h : BodyOk m a id pages size recs (f :: free) taken) (hsize : size < 2 ^ 32) :
    BodyOk (setFreeSpace m a (freeSpace m a - f.size)) a id pages size recs free
      (f :: taken) := by
  have hsame : ∀ y n, y + n ≤ a + 32 ∨ a + 36 ≤ y →
      m.SameOn (setFreeSpace m a (freeSpace m a - f.size)) y n := fun y n hy =>
    m.sameOn_write
  have hsum : freeSpace m a - f.size = (free.map Run.size).sum := by
    rw [h.freeSpace_eq, map_cons, sum_cons, Nat.add_sub_cancel_left]
  have hlt : (free.map Run.size).sum < 256 ^ 4 := by
    have htot := h.tiles.total_eq
    simp only [map_append, sum_append, map_cons, sum_cons] at htot
    omega
  refine h.refree (hsame _ _ (by omega)) (hsame _ _ (by omega)) ?_
    (h.tiles.perm (perm_move _ _ _ f).symm) ?_ ?_
  · intro r hr
    have := h.rec_within hr
    exact hsame _ _ (by omega)
  · rw [hsum]
    exact (read_write_same _ _ _ _).trans (Nat.mod_eq_of_lt hlt)
  · intro g hg
    have := h.free_within (mem_cons_of_mem f hg)
    exact (h.free_ok g (mem_cons_of_mem f hg)).congr (hsame _ _ (by omega))

end BodyOk

/-! ## Appending a record -/

def fillRecord (m : Mem) (p : ℕ) (data : List UInt8) : Mem :=
  Record.setPrevOffset (Record.setNextOffset (Record.setData m p data) p none) p none

def linkLast (m : Mem) (a p off : ℕ) : Option ℕ → Mem
  | some o => Record.setPrevOffset (Record.setNextOffset m (a + o) (some off)) p (some o)
  | none => m

/-- The new record becomes the last of the extent, and the first if there was none. -/
def linkEnds (m : Mem) (a off : ℕ) : Mem :=
  let m := setLastRecordOffset m a (some off)
  if firstRecordOffset m a = none then setFirstRecordOffset m a (some off) else m

def linkRecord (m : Mem) (a p off : ℕ) : Mem :=
  linkEnds (linkLast (setRecCount m a (recCount m a + 1)) a p off
    (lastRecordOffset m a)) a off

theorem Col.appendRecord_eq (c : Col) (rid : RecordID) (off : ℕ) (data : List UInt8) :
    c.appendRecord rid off data true =
      { c with
        data := linkRecord (fillRecord c.data (c.recordAddr rid) data) (c.addr rid.extent)
          (c.recordAddr rid) off
        stat := { c.stat with totals := { c.stat.totals with
          totalRecords := c.stat.totals.totalRecords + 1
          totalOrgDataLen := c.stat.totals.totalOrgDataLen + data.length
          totalDataLen := c.stat.totals.totalDataLen + data.length } } } := by
  unfold appendRecord linkRecord linkEnds linkLast fillRecord
  rfl

section Fill
variable (m : Mem) {p : ℕ} {data : List UInt8}
variable {y n : ℕ}

theorem sameOn_fillRecord (h : y + n ≤ p ∨ p + recordMetadataSz + data.length ≤ y) :
    m.SameOn (fillRecord m p data) y n := by
  have h16 : recordMetadataSz = 16 := rfl
  have hdata : m.SameOn (Record.setData m p data) y n := by
    unfold Record.setData
    split
    · exact .rfl
    · exact m.sameOn_write.trans (sameOn_store _)
  exact hdata.writeOpt.writeOpt

theorem recOk_fillRecord {off size : ℕ} (hflag : Record.flag m p = 0)
    (hsize : Record.size m p = size) (hfits : recordMetadataSz + data.length ≤ size)
    (hmin : minRecordDataSz ≤ data.length)
    (hlen : decode (data.take 4) &&& 0x00FFFFFF = data.length) :
    RecOk (fillRecord m p data) p ⟨off, size, data⟩ := by
  have h16 : recordMetadataSz = 16 := rfl
  have h5 : minRecordDataSz = 5 := rfl
  have hne : data ≠ [] := by
    rintro rfl
    simp [minRecordDataSz] at hmin
  have hset : Record.setData m p data =
      (Record.unsetAttr m p 0x10).store (p + recordMetadataSz) data := if_neg hne
  have hlink : ∀ (m' : Mem) (y n : ℕ), y + n ≤ p + 8 ∨ p + 16 ≤ y →
      m'.SameOn (Record.setPrevOffset (Record.setNextOffset m' p none) p none) y n :=
    fun m' y n h => m'.sameOn_writeOpt.writeOpt
  have hload : (fillRecord m p data).load (p + recordMetadataSz) data.length = data := by
    refine (load_congr (hlink _ _ _ (by omega))).trans ?_
    rw [hset, load_store_same]
  refine ⟨?_, ?_, hload, ?_, hfits, hmin⟩
  · refine (read_congr (hlink _ _ _ (by omega))).trans ?_
    rw [hset]
    refine (read_congr (sameOn_store _)).trans ?_
    refine (read_write_same _ _ _ _).trans ?_
    rw [hflag, Nat.zero_and, Nat.zero_mod]
  · rw [← hsize]
    refine congrArg (· + 1) ((read_congr (hlink _ _ _ (by omega))).trans ?_)
    rw [hset]
    exact read_congr (m.sameOn_write.trans (sameOn_store _))
  · have htake := (fillRecord m p data).take_load (p + recordMetadataSz) data.length 4
    rw [hload, min_eq_left (by omega)] at htake
    rw [Record.dataLength, Mem.read, ← htake, hlen]

section Link
variable {a off : ℕ} {last : Option ℕ}

theorem sameOn_linkLast (hp : y + n ≤ p + 8 ∨ p + 12 ≤ y)
    (ho : ∀ o ∈ last, y + n ≤ a + o + 12 ∨ a + o + 16 ≤ y) :
    m.SameOn (linkLast m a p off last) y n := by
  cases last with
  | none => exact .rfl
  | some o =>
    have := ho o rfl
    exact m.sameOn_writeOpt.writeOpt

theorem sameOn_linkEnds (h : y + n ≤ a + 24 ∨ a + 32 ≤ y) : m.SameOn (linkEnds m a off) y n := by
  have hl : m.SameOn (setLastRecordOffset m a (some off)) y n :=
    m.sameOn_writeOpt
  unfold linkEnds
  dsimp only
  split
  · exact hl.writeOpt
  · exact hl

theorem lastRecordOffset_linkEnds (hoff : off < 2 ^ 31) :
    lastRecordOffset (linkEnds m a off) a = some off := by
  have hl : lastRecordOffset (setLastRecordOffset m a (some off)) a = some off :=
    m.readOpt_writeOpt_same _ _ (by rintro v ⟨⟩; omega)
  unfold linkEnds
  dsimp only
  split
  · exact (readOpt_congr (sameOn_writeOpt _)).trans hl
  · exact hl

theorem firstRecordOffset_linkEnds (hoff : off < 2 ^ 31) :
    firstRecordOffset (linkEnds m a off) a =
      some ((firstRecordOffset m a).getD off) := by
  have hl : firstRecordOffset (setLastRecordOffset m a (some off)) a =
      firstRecordOffset m a := readOpt_congr m.sameOn_writeOpt
  unfold linkEnds
  dsimp only
  split
  next h =>
    rw [← hl, h]
    exact readOpt_writeOpt_same _ _ _ (by rintro v ⟨⟩; omega)
  next h =>
    rw [← hl]
    obtain ⟨o, ho⟩ := Option.ne_none_iff_exists'.mp h
    rw [ho, Option.getD_some]

theorem sameOn_linkRecord (ha : y + n ≤ a + 20 ∨ a + 32 ≤ y) (hp : y + n ≤ p + 8 ∨ p + 12 ≤ y)
    (ho : ∀ o ∈ lastRecordOffset m a, y + n ≤ a + o + 12 ∨ a + o + 16 ≤ y) :
    m.SameOn (linkRecord m a p off) y n :=
  (m.sameOn_write.trans (sameOn_linkLast _ hp ho)).trans
    (sameOn_linkEnds _ (by omega))

end Link

theorem nextOffset_fillRecord : Record.nextOffset (fillRecord m p data) p = none :=
  (readOpt_congr (sameOn_writeOpt _)).trans
    (readOpt_writeOpt_same _ _ _ nofun)

theorem prevOffset_fillRecord : Record.prevOffset (fillRecord m p data) p = none :=
  readOpt_writeOpt_same _ _ _ nofun

end Fill

namespace BodyOk
variable {m : Mem} {a id pages size : ℕ} {recs : List Rec} {free taken : List Run}

theorem nodup_off (h : BodyOk m a id pages size recs free taken) : (recs.map Rec.off).Nodup := by
  have hap := (pairwise_append.mp (pairwise_append.mp h.tiles.apart).1).1
  rw [pairwise_map] at hap
  refine pairwise_map.mpr (List.Pairwise.imp_of_mem ?_ hap)
  intro r s hr hs hrs heq
  have h1 := h.tiles.pos r.run (mem_append_left _ (mem_append_left _
    (List.mem_map_of_mem hr)))
  have h2 := h.tiles.pos s.run (mem_append_left _ (mem_append_left _
    (List.mem_map_of_mem hs)))
  simp only [Run.Apart, Rec.run] at hrs h1 h2
  omega

theorem rec_rec_apart (h : BodyOk m a id pages size recs free taken) {s : Rec} (hr : r ∈ recs)
    (hs : s ∈ recs) (hne : r.off ≠ s.off) : r.off + r.size ≤ s.off ∨ s.off + s.size ≤ r.off := by
  have hap := (pairwise_append.mp (pairwise_append.mp h.tiles.apart).1).1
  exact hap.forall (List.mem_map_of_mem hr) (List.mem_map_of_mem hs)
    fun heq => hne (congrArg Run.start heq)

/-- **Appending a record** turns a taken block into the last record. -/
theorem link (h : BodyOk m a id pages size recs free (r.run :: taken)) (hsize : size < 2 ^ 31)
    (hr : RecOk m (a + r.off) r) (hnext : Record.nextOffset m (a + r.off) = none)
    (hprev : Record.prevOffset m (a + r.off) = none) :
    BodyOk (linkRecord m a (a + r.off) r.off) a id pages size (recs ++ [r]) free taken := by
  have h36 : extentMetadataSz = 36 := rfl
  have h16 : recordMetadataSz = 16 := rfl
  have hin : extentMetadataSz ≤ r.off ∧ r.off + r.size ≤ size := h.taken_within mem_cons_self
  have hfits := hr.fits
  -- The last record is one of the records, apart from the new one.
  have hlast : ∀ o ∈ lastRecordOffset m a, ∃ q ∈ recs, q.off = o := by
    intro o ho
    rw [h.last_eq] at ho
    exact List.mem_map.mp (mem_of_getLast? ho)
  have hq : ∀ q ∈ recs, 36 ≤ q.off ∧ q.off + q.size ≤ size ∧ 16 ≤ q.size ∧
      (q.off + q.size ≤ r.off ∨ r.off + r.size ≤ q.off) := by
    intro q hq
    have h2 := h.rec_within hq
    have h3 : q.off + q.size ≤ r.off ∨ r.off + r.size ≤ q.off := h.rec_apart hq mem_cons_self
    omega
  have hfar : ∀ o ∈ lastRecordOffset m a, 36 ≤ o ∧ o + 16 ≤ size ∧
      (o + 16 ≤ r.off ∨ r.off + r.size ≤ o) := by
    intro o ho
    obtain ⟨q, hqm, rfl⟩ := hlast o ho
    have := hq q hqm
    omega
  have hhead : ∀ y n, y + n ≤ a + 20 ∨ a + 32 ≤ y → y + n ≤ a + 36 →
      m.SameOn (linkRecord m a (a + r.off) r.off) y n := fun y n h1 h2 =>
    sameOn_linkRecord m h1 (by omega) fun o ho => by
      have := hfar o ho
      omega
  have htiles : Tiles extentMetadataSz size ((recs ++ [r]).map Rec.run ++ free ++ taken) := by
    refine h.tiles.perm ((perm_move _ _ _ _).trans ?_)
    rw [map_append, map_singleton, append_assoc, append_assoc, append_assoc]
    rfl
  have hcount : recs.length + 1 < 256 ^ 4 := by
    have h1 := length_le_sum_of_one_le _ fun i hi => by
      obtain ⟨t, ht, rfl⟩ := List.mem_map.mp hi
      exact h.tiles.pos t ht
    have h2 := h.tiles.total_eq
    simp only [length_map, List.length_append, length_cons] at h1
    omega
  -- A record keeps its bytes, except for the link of the last one.
  have hold : ∀ q ∈ recs, ∀ i n, i + n ≤ q.size →
      i + n ≤ 12 ∨ 16 ≤ i ∨ q.off ∉ lastRecordOffset m a →
      m.SameOn (linkRecord m a (a + r.off) r.off) (a + q.off + i) n := by
    intro q hqm i n hi hlink
    have h1 := hq q hqm
    refine sameOn_linkRecord m (by omega) (by omega) fun o ho => ?_
    rcases eq_or_ne q.off o with rfl | hne
    · have := hlink.imp_right (Or.resolve_right · (not_not_intro ho))
      omega
    obtain ⟨q', hqm', rfl⟩ := hlast o ho
    have h2 := h.rec_rec_apart hqm hqm' hne
    have h3 := hq q' hqm'
    omega
  refine ⟨(validate_congr (hhead _ _ (by omega) (by omega))).trans h.valid,
    (read_congr (hhead _ _ (by omega) (by omega))).trans h.blockSize_eq, htiles,
    (read_congr (hhead _ _ (by omega) (by omega))).trans h.freeSpace_eq, ?_, ?_, ?_, ?_, ?_, ?_⟩
  · refine (read_congr ((sameOn_linkLast _ (by omega) ?_).trans
      (sameOn_linkEnds _ (by omega)))).trans ((read_write_same _ _ _ _).trans ?_)
    · intro o ho
      have := hfar o ho
      omega
    · rw [h.recCount_eq, List.length_append, length_singleton, Nat.mod_eq_of_lt hcount]
  · refine (firstRecordOffset_linkEnds _ (by omega)).trans ?_
    have hf : firstRecordOffset (linkLast (setRecCount m a
        (recCount m a + 1)) a (a + r.off) r.off (lastRecordOffset m a)) a =
        (recs.map Rec.off).head? := by
      rw [← h.first_eq]
      refine readOpt_congr (m.sameOn_write.trans
        (sameOn_linkLast _ (by omega) ?_))
      intro o ho
      have := hfar o ho
      omega
    rw [hf, map_append, head?_append]
    cases (recs.map Rec.off).head? <;> rfl
  · refine (lastRecordOffset_linkEnds _ (by omega)).trans ?_
    rw [map_append, map_singleton, getLast?_concat]
  · rw [map_append, map_singleton]
    have hl0 : Linked (fun o => Record.nextOffset m (a + o)) (fun o => Record.prevOffset m (a + o))
        (recs.map Rec.off ++ []) := by
      rw [append_nil]
      exact h.linked
    have hends : ∀ (m' : Mem) (y : ℕ), a + 36 ≤ y → m'.SameOn (linkEnds m' a r.off) y 4 :=
      fun m' y hy => sameOn_linkEnds m' (by omega)
    refine hl0.insert (by rw [append_nil]; exact h.nodup_off) ?_ ?_ ?_ nofun ?_ ?_
    · refine (readOpt_congr (sameOn_linkRecord m (by omega) (by omega) ?_)).trans hnext
      intro o ho
      have := hfar o ho
      omega
    · refine (readOpt_congr (hends _ _ (by omega))).trans ?_
      rw [← h.last_eq]
      cases hl : lastRecordOffset m a with
      | none => exact (readOpt_congr m.sameOn_write).trans hprev
      | some o =>
        have := hfar o hl
        exact readOpt_writeOpt_same _ _ _ (by rintro v ⟨⟩; omega)
    · intro o ho
      rw [← h.last_eq] at ho
      have := hfar o ho
      refine (readOpt_congr (hends _ _ (by omega))).trans ?_
      rw [Option.mem_def.mp ho]
      exact (readOpt_congr (sameOn_writeOpt _)).trans
        (readOpt_writeOpt_same _ _ _ (by rintro v ⟨⟩; omega))
    · intro o ho hne
      rw [append_nil] at ho
      obtain ⟨q, hqm, rfl⟩ := List.mem_map.mp ho
      have h1 := hq q hqm
      refine readOpt_congr (hold q hqm 12 4 (by omega) (.inr (.inr fun ho => hne ?_)))
      rw [← h.last_eq]
      exact ho.symm
    · intro o ho _
      rw [append_nil] at ho
      obtain ⟨q, hqm, rfl⟩ := List.mem_map.mp ho
      have h1 := hq q hqm
      exact readOpt_congr (hold q hqm 8 4 (by omega) (by omega))
  · intro q hqm
    rcases mem_append.mp hqm with hqm | hqm
    · have h1 := hq q hqm
      have h2 := h.rec_within hqm
      exact (h.rec_ok q hqm).congr (hold q hqm 0 8 (by omega) (by omega))
        (hold q hqm 16 _ (by omega) (by omega))
    · obtain rfl := mem_singleton.mp hqm
      refine hr.congr (sameOn_linkRecord m (by omega) (by omega) ?_)
        (sameOn_linkRecord m (by omega) (by omega) ?_)
      all_goals
        intro o ho
        have := hfar o ho
        omega
  · intro f hf
    have h1 := h.free_apart hf mem_cons_self
    have h3 := h.free_within hf
    simp only [Rec.run] at h1
    refine (h.free_ok f hf).congr (sameOn_linkRecord m (by omega) (by omega) ?_)
    intro o ho
    obtain ⟨q', hqm', rfl⟩ := hlast o ho
    have h4 := hq q' hqm'
    have h5 := h.rec_free_apart hqm' hf
    omega

end BodyOk

end Novachains.Dms
