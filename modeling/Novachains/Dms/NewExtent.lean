import Novachains.Dms.ChainOrder
import Novachains.Dms.Insert

/-!
# A new extent

`_allocateExtent` initialises the pages it was given, adds them to the chain and cuts them
into deleted records.  Between the last two steps the extent is one taken block.
-/

namespace Novachains.Dms

open Lib List Function Extent

/-- The contents with a new extent of `n` pages that is one taken block. -/
def Contents.new (g : Contents) (x n bytes : ℕ) : Contents where
  pages := update g.pages x n
  recs := update g.recs x []
  free := update g.free x []
  taken := update g.taken x [⟨extentMetadataSz, n * bytes - extentMetadataSz⟩]
  dels := g.dels

theorem Contents.suffix_save (g : Contents) (slot j : ℕ) (rid : RecordID) :
    g.dels j <:+ if j = slot then rid :: g.dels j else g.dels j := by
  split
  · exact suffix_cons rid _
  · exact suffix_rfl

theorem Contents.forall_new {g : Contents} {added : List ℕ} {x n b : ℕ} (hx : x ∉ added)
    (P : ℕ → ℕ → List Rec → List Run → List Run → Prop)
    (h : ∀ e ∈ added, P e (g.pages e) (g.recs e) (g.free e) (g.taken e))
    (hnew : P x n [] [] [⟨extentMetadataSz, n * b - extentMetadataSz⟩]) :
    ∀ e ∈ added ++ [x], P e ((g.new x n b).pages e) ((g.new x n b).recs e) ((g.new x n b).free e)
      ((g.new x n b).taken e) := by
  refine forall_mem_append.mpr ⟨fun e he => ?_, forall_mem_singleton.mpr ?_⟩
  · have hne : e ≠ x := ne_of_mem_of_not_mem he hx
    simpa only [Contents.new, update_of_ne hne] using h e he
  · simpa only [Contents.new, update_self] using hnew

namespace Col

/-- The `n` pages from `x` on are mapped and belong to no extent. -/
structure NewPages (c : Col) (mbEx : ℕ) (added : List ℕ) (g : Contents) (x n : ℕ) : Prop where
  pos : 0 < n
  le : n ≤ c.pageSize.segmentPages
  within : x + n ≤ c.pages
  mbEx_apart : x + n ≤ mbEx ∨ mbEx + c.pageSize.mbExSize ≤ x
  apart : ∀ e ∈ added, e + g.pages e ≤ x ∨ x + n ≤ e

section Add
variable {c : Col} {mbEx x n : ℕ} {added : List ℕ} {g : Contents}

section
variable (hx : c.NewPages mbEx added g x n)
include hx

theorem NewPages.not_mem (h : c.ColOk mbEx added g) :
    x ∉ added := fun hm => by
  have h1 := hx.apart x hm
  have h2 := hx.pos
  have h3 := h.pages_pos x hm
  omega

theorem NewPages.fresh (h : c.ColOk mbEx added g) :
    c.Fresh mbEx added x := by
  have h1 := hx.pos
  have h2 := hx.within
  have h3 := hx.mbEx_apart
  exact ⟨hx.not_mem h, by omega, by omega⟩

theorem NewPages.bytes_apart {e : ℕ} (he : e ∈ added) :
    c.addr e + g.pages e * c.pageSize.bytes ≤ c.addr x ∨
      c.addr x + n * c.pageSize.bytes ≤ c.addr e := by
  rw [← c.addr_add, ← c.addr_add]
  exact (hx.apart e he).imp c.addr_le c.addr_le

theorem NewPages.mbEx_bytes_apart :
    c.addr x + n * c.pageSize.bytes ≤ c.addr mbEx ∨
      c.addr mbEx + 9 * c.pageSize.bytes ≤ c.addr x := by
  rw [← c.addr_add, ← c.addr_add]
  have := hx.mbEx_apart
  rw [c.pageSize.mbExSize_eq] at this
  exact this.imp c.addr_le c.addr_le

theorem NewPages.size_le :
    4096 ≤ n * c.pageSize.bytes ∧ n * c.pageSize.bytes ≤ 2 ^ 27 := by
  constructor
  · exact c.pageSize.le_bytes.trans (Nat.le_mul_of_pos_left _ hx.pos)
  · exact (Nat.mul_le_mul_right _ hx.le).trans
      (c.pageSize.segmentPages_mul_bytes.trans (by decide)).le

end

/-- What adding the extent does to the memory: bytes off the chain and outside the header of
the new extent stay. -/
structure Joined (c : Col) (mbEx : ℕ) (added : List ℕ) (x n : ℕ) (m : Mem) : Prop where
  same : ∀ y k, (y + k ≤ c.addr x ∨ c.addr x + 36 ≤ y) → c.OffChain mbEx (x :: added) y k →
    c.data.SameOn m y k
  valid : Extent.validate m (c.addr x) c.mb.blockID = true
  blockSize_eq : blockSize m (c.addr x) = n
  recCount_eq : recCount m (c.addr x) = 0
  first_eq : firstRecordOffset m (c.addr x) = none
  last_eq : lastRecordOffset m (c.addr x) = none

theorem ColOk.join (h : c.ColOk mbEx added g) (hx : c.NewPages mbEx added g x n) :
    ∃ data first last,
      (c.initExtent x n c.mb.blockID).addExtent2Meta (some .exclusive) x =
        (.ok, c.withEnds data first last) ∧
      ChainOk (c.withEnds data first last) mbEx (added ++ [x]) ∧
      c.Joined mbEx added x n data ∧
      freeSpace data (c.addr x) = n * c.pageSize.bytes - extentMetadataSz := by
  have hsz : extentMetadataSz = 36 := rfl
  have hfresh := hx.fresh h
  have hsize := hx.size_le
  have hmeta := hx.mbEx_bytes_apart
  have hn : n < 2 ^ 16 := hx.le.trans_lt (by cases c.pageSize <;> decide)
  have hid : c.mb.blockID < 2 ^ 16 := h.blockID_lt.trans (by decide)
  have hprev : (c.initExtent x n c.mb.blockID).prev x = none :=
    Extent.prevExtent_init c.data (c.addr x)
  have hnext : (c.initExtent x n c.mb.blockID).next x = none :=
    Extent.nextExtent_init c.data (c.addr x)
  obtain ⟨data, first, last, heq, hok, hsame⟩ := (h.chain.initExtent hfresh n c.mb.blockID
    ).addExtent2Meta ⟨hfresh.not_mem, hfresh.mapped, hfresh.apart⟩ hprev hnext
  have hinit : (c.initExtent x n c.mb.blockID).data =
      Extent.init c.data (c.addr x) n c.mb.blockID (n <<< c.pageSize.square) := rfl
  rw [hinit] at hsame
  -- The header keeps what `init` wrote, up to the links.
  have hhead : ∀ y k, c.addr x ≤ y → y + k ≤ c.addr x + 36 →
      (y + k ≤ c.addr x + 8 ∨ c.addr x + 20 ≤ y) →
      (Extent.init c.data (c.addr x) n c.mb.blockID (n <<< c.pageSize.square)).SameOn data y k := by
    intro y k h1 h2 h3
    refine hsame y k ⟨?_, fun e he => ?_⟩
    · change y + k ≤ c.addr mbEx + 12 ∨ c.addr mbEx + 9 * c.pageSize.bytes ≤ y
      omega
    change y + k ≤ c.addr e + 8 ∨ c.addr e + 20 ≤ y
    rcases mem_cons.mp he with rfl | he
    · exact h3
    · have h4 := hx.bytes_apart he
      have h5 := (h.size_le he).1
      omega
  refine ⟨data, first, last, heq, hok, ⟨fun y k h1 h2 => ?_, ?_, ?_, ?_, ?_, ?_⟩, ?_⟩
  · exact (Extent.sameOn_init c.data (a := c.addr x) (by omega)).trans (hsame y k ⟨h2.1, h2.2⟩)
  · exact (BodyOk.validate_congr (hhead _ _ le_rfl (by omega) (by omega))).trans
      (Extent.validate_init c.data (c.addr x) hid)
  · exact (Mem.read_congr (hhead _ _ (by omega) (by omega) (by omega))).trans
      (Extent.blockSize_init c.data (c.addr x) hn)
  · exact (Mem.read_congr (hhead _ _ (by omega) (by omega) (by omega))).trans
      (Extent.recCount_init c.data (c.addr x))
  · exact (Mem.readOpt_congr (hhead _ _ (by omega) (by omega) (by omega))).trans
      (Extent.firstRecordOffset_init c.data (c.addr x))
  · exact (Mem.readOpt_congr (hhead _ _ (by omega) (by omega) (by omega))).trans
      (Extent.lastRecordOffset_init c.data (c.addr x))
  have hshift : n <<< c.pageSize.square = n * c.pageSize.bytes := by
    rw [Nat.shiftLeft_eq, ← PageSize.bytes_eq]
  rw [hshift] at hhead
  exact (Mem.read_congr (hhead _ _ (by omega) (by omega) (by omega))).trans
    (Extent.freeSpace_init c.data (c.addr x) (by omega))

theorem ColOk.offChain (h : c.ColOk mbEx added g) (hx : c.NewPages mbEx added g x n) {e y k : ℕ}
    (he : e ∈ added) (hlo : c.addr e ≤ y) (hhi : y + k ≤ c.addr e + g.pages e * c.pageSize.bytes)
    (hl : y + k ≤ c.addr e + 8 ∨ c.addr e + 20 ≤ y) :
    (y + k ≤ c.addr x ∨ c.addr x + 36 ≤ y) ∧ c.OffChain mbEx (x :: added) y k := by
  have h1 := hx.bytes_apart he
  have h2 := hx.size_le.1
  have h3 := h.mbEx_bytes_apart he
  refine ⟨by omega, by omega, fun e' he' => ?_⟩
  rcases mem_cons.mp he' with rfl | he'
  · omega
  by_cases hee : e' = e
  · subst hee
    exact hl
  · have h4 := h.bytes_apart he' he hee
    have h5 := (h.size_le he').1
    omega

theorem ColOk.new (h : c.ColOk mbEx added g) (hx : c.NewPages mbEx added g x n) {m : Mem}
    {first last : Option ℕ} (hj : c.Joined mbEx added x n m)
    (hchain : ChainOk (c.withEnds m first last) mbEx (added ++ [x]))
    (hfree : freeSpace m (c.addr x) = 0) :
    ColOk (c.withEnds m first last) mbEx (added ++ [x])
      (g.new x n c.pageSize.bytes) := by
  have hsz : extentMetadataSz = 36 := rfl
  have hsize := hx.size_le
  have hnot := hx.not_mem h
  have hall := fun P => Contents.forall_new (g := g) (b := c.pageSize.bytes) (n := n) hnot P
  have hsame : ∀ e ∈ added, ∀ y k, c.addr e ≤ y →
      y + k ≤ c.addr e + g.pages e * c.pageSize.bytes →
      (y + k ≤ c.addr e + 8 ∨ c.addr e + 20 ≤ y) → c.data.SameOn m y k := fun e he y k h1 h2 h3 =>
    hj.same y k (h.offChain hx he h1 h2 h3).1 (h.offChain hx he h1 h2 h3).2
  have hbody : ∀ e ∈ added, BodyOk m (c.addr e) c.mb.blockID (g.pages e)
      (g.pages e * c.pageSize.bytes) (g.recs e) (g.free e) (g.taken e) := by
    intro e he
    have h1 := (h.size_le he).1
    have h2 := hsame e he
    refine (h.body e he).congr (h2 _ _ le_rfl (by omega) (by omega))
      (h2 _ _ (by omega) (by omega) (by omega)) (fun r hr => ?_) fun f hf => ?_
    · have h3 := (h.body e he).rec_within hr
      exact h2 _ _ (by omega) (by omega) (by omega)
    have h4 := (h.body e he).free_within hf
    exact h2 _ _ (by omega) (by omega) (by omega)
  have hnew : BodyOk m (c.addr x) c.mb.blockID n (n * c.pageSize.bytes) [] []
      [⟨extentMetadataSz, n * c.pageSize.bytes - extentMetadataSz⟩] := by
    have htiles : Tiles extentMetadataSz (n * c.pageSize.bytes)
        [⟨extentMetadataSz, n * c.pageSize.bytes - extentMetadataSz⟩] := by
      have hone : Tiles extentMetadataSz
          (extentMetadataSz + (n * c.pageSize.bytes - extentMetadataSz)) _ :=
        tiles_singleton (by omega)
      rwa [Nat.add_sub_cancel' (by omega)] at hone
    exact ⟨hj.valid, hj.blockSize_eq, htiles, hfree, hj.recCount_eq, hj.first_eq, hj.last_eq,
      linked_nil _ _, nofun, nofun⟩
  refine ⟨hchain, h.blockID_lt, hall (fun _ k _ _ _ => 0 < k) h.pages_pos hx.pos,
    hall (fun _ k _ _ _ => k ≤ c.pageSize.segmentPages) h.pages_le hx.le,
    hall (fun e k _ _ _ => e + k ≤ c.pages) h.within hx.within,
    hall (fun e k _ _ _ => e + k ≤ mbEx ∨ mbEx + c.pageSize.mbExSize ≤ e) h.mbEx_apart
      hx.mbEx_apart, ?_, ?_, ?_, h.nodup, ?_⟩
  · refine hall (fun e k _ _ _ => ∀ e' ∈ added ++ [x], e ≠ e' →
      e + k ≤ e' ∨ e' + (g.new x n c.pageSize.bytes).pages e' ≤ e) (fun e he => ?_) ?_
    · exact hall (fun e' k _ _ _ => e ≠ e' → e + g.pages e ≤ e' ∨ e' + k ≤ e)
        (h.exts_apart e he) fun _ => hx.apart e he
    · exact hall (fun e' k _ _ _ => x ≠ e' → x + n ≤ e' ∨ e' + k ≤ x)
        (fun e' he' _ => (hx.apart e' he').symm) fun hxx => absurd rfl hxx
  · exact hall (fun e k recs free taken => BodyOk m (c.addr e) c.mb.blockID k
      (k * c.pageSize.bytes) recs free taken) hbody hnew
  · intro j hj
    refine (h.path j hj).congr fun rid hr => ?_
    obtain ⟨he, h1, h2⟩ := h.rid_within hj hr
    exact Record.nextRID_congr (hsame _ he (c.recordAddr rid + 8) 8 (by omega) (by omega)
      (by omega))
  · -- The new extent has no deleted record yet.
    intro j hj rid
    rw [show (g.new x n c.pageSize.bytes).dels = g.dels from rfl, h.mem_dels j hj rid]
    by_cases hrx : rid.extent = x
    · rw [hrx]
      simp [Contents.new, hnot]
    · simp [Contents.new, hrx]

end Add

/-! ## Cutting a new extent -/

/-- Deleted records were cut from `x` and stand before those that were on the lists; `taken` is
left. -/
structure Carved (c c' : Col) (mbEx : ℕ) (added : List ℕ) (g : Contents) (x : ℕ)
    (taken : List Run) : Prop where
  ok : ∃ free dels, c'.ColOk mbEx added (g.set x (g.recs x) free taken dels) ∧
    ∀ j, g.dels j <:+ dels j
  touches : c.Touches c' mbEx added g.pages
  totals_eq : c'.stat.totals = { c.stat.totals with
    totalDataFreeSpace := c'.stat.totals.totalDataFreeSpace }

section Carve
variable {c c' c'' : Col} {mbEx x off size : ℕ} {added : List ℕ} {g : Contents}
  {taken taken' : List Run}

theorem ColOk.carved_rfl (h : c.ColOk mbEx added g) (ht : g.taken x = taken) :
    c.Carved c mbEx added g x taken :=
  ⟨⟨g.free x, g.dels, by rwa [← ht, Contents.set_self], fun _ => suffix_rfl⟩, .rfl, rfl⟩

theorem Carved.trans {free : List Run} {dels : ℕ → List RecordID}
    (h : c.Carved c' mbEx added g x taken) (hd : ∀ j, g.dels j <:+ dels j)
    (h' : c'.Carved c'' mbEx added (g.set x (g.recs x) free taken dels) x taken') :
    c.Carved c'' mbEx added g x taken' := by
  obtain ⟨⟨free', dels', hok', hd'⟩, htouch', htot'⟩ := h'
  rw [Contents.set_set, Contents.recs_set] at hok'
  exact ⟨⟨free', dels', hok', fun j => (hd j).trans (hd' j)⟩, h.touches.trans htouch',
    by rw [htot', h.totals_eq]⟩

theorem ColOk.carve_all (h : c.ColOk mbEx added g) (hx : x ∈ added) (ht : g.taken x = [⟨off, size⟩])
    (hmin : minRecordSz ≤ size) (hmax : size ≤ recordMaxSz) :
    c.Carved (c.saveDeleted ⟨x, off⟩ size) mbEx added g x [] := by
  have h36 : minRecordSz = 36 := rfl
  have h36' : extentMetadataSz = 36 := rfl
  have hw : 36 ≤ off ∧ off + size ≤ g.pages x * c.pageSize.bytes :=
    (h.body x hx).taken_within (ht ▸ mem_cons_self)
  have hsave := h.save hx ht hmin hmax
  rw [Contents.save] at hsave
  exact ⟨⟨_, _, hsave, fun j => g.suffix_save _ j _⟩, touches_save hx (by omega) (by omega) (by omega),
    by rw [c.saveDeleted_eq _ (by omega)]⟩

theorem ColOk.carve (h : c.ColOk mbEx added g) (hx : x ∈ added) (size rest : ℕ)
    (ht : g.taken x = [⟨off, size + rest⟩]) (hmin : minRecordSz ≤ size) (hmax : size ≤ recordMaxSz)
    (hrest : 0 < rest) :
    c.Carved (c.saveDeleted ⟨x, off⟩ size) mbEx added g x [⟨off + size, rest⟩] := by
  have h36 : minRecordSz = 36 := rfl
  have h36' : extentMetadataSz = 36 := rfl
  have hbody := h.body x hx
  rw [ht] at hbody
  have hw : 36 ≤ off ∧ off + (size + rest) ≤ g.pages x * c.pageSize.bytes :=
    hbody.taken_within mem_cons_self
  have hsplit := h.retake hx (hbody.split (by omega) hrest)
  have hsave := hsplit.save hx (Contents.taken_set ..) hmin hmax
  rw [Contents.save, Contents.set_set, Contents.recs_set] at hsave
  exact ⟨⟨_, _, hsave, fun j => g.suffix_save _ j _⟩, touches_save hx (by omega) (by omega) (by omega),
    by rw [c.saveDeleted_eq _ (by omega)]⟩

theorem ColOk.mapLoop (hx : x ∈ added) (del : ℕ) (hmin : minRecordSz ≤ del)
    (hmax : del ≤ recordMaxSz) (fuel : ℕ) {c : Col} {g : Contents} {cur : ℕ}
    (h : c.ColOk mbEx added g) (ht : g.taken x = [⟨off, cur⟩]) (hcur : minRecordSz ≤ cur)
    (hfuel : cur ≤ fuel) :
    ∃ c' cur' off', c.mapLoop x del fuel cur off = (c', cur', off') ∧
      c.Carved c' mbEx added g x [⟨off', cur'⟩] ∧ minRecordSz ≤ cur' ∧
      cur' < del + minRecordSz ∧ (cur ≤ del → cur' = cur) := by
  have h36 : minRecordSz = 36 := rfl
  induction fuel generalizing c g cur off with
  | zero => omega
  | succ fuel ih =>
    rw [Col.mapLoop]
    split
    next hge =>
      have hcut := h.carve hx del (cur - del)
        (by rw [ht, Nat.add_sub_cancel' (by omega)]) hmin hmax (by omega)
      obtain ⟨free, dels, hok, hd⟩ := hcut.ok
      obtain ⟨c', cur', off', heq, hcarved, hlo, hhi, -⟩ :=
        ih hok (Contents.taken_set ..) (by omega) (by omega)
      exact ⟨c', cur', off', heq, hcut.trans hd hcarved, hlo, hhi, fun hle => by omega⟩
    next hlt =>
      exact ⟨c, cur, off, rfl, h.carved_rfl ht, hcur, Nat.lt_of_not_le hlt, fun _ => rfl⟩

/-- **The new extent is cut into deleted records**, and nothing of it is left. -/
theorem ColOk.mapExtent2DelList {c : Col}
    (h : ColOk { c with data := setFreeSpace c.data (c.addr x) 0 } mbEx added g)
    (hx : x ∈ added) (ht : g.taken x =
      [⟨extentMetadataSz, g.pages x * c.pageSize.bytes - extentMetadataSz⟩])
    (hfree : freeSpace c.data (c.addr x) = g.pages x * c.pageSize.bytes - extentMetadataSz) :
    Carved { c with data := setFreeSpace c.data (c.addr x) 0 } (c.mapExtent2DelList x)
      mbEx added g x [] := by
  have h36 : minRecordSz = 36 := rfl
  have h36' : extentMetadataSz = 36 := rfl
  have hmax : recordMaxSz = 16777216 := rfl
  have hsize : 4096 ≤ g.pages x * c.pageSize.bytes := (h.size_le hx).1
  have hblock : blockSize c.data (c.addr x) = g.pages x :=
    (Mem.read_congr c.data.sameOn_write).symm.trans (h.body x hx).blockSize_eq
  have hshift : g.pages x <<< c.pageSize.square = g.pages x * c.pageSize.bytes := by
    rw [Nat.shiftLeft_eq, ← PageSize.bytes_eq]
  obtain ⟨useable, huse⟩ : ∃ u, u = g.pages x * c.pageSize.bytes - extentMetadataSz := ⟨_, rfl⟩
  rw [← huse] at hfree ht
  have hoff : g.pages x * c.pageSize.bytes - useable = extentMetadataSz := by omega
  unfold Col.mapExtent2DelList
  dsimp only
  rw [hfree, if_neg (by omega), hblock, hshift, hoff]
  obtain ⟨c₁, cur, off, heq, hcarved, hlo, hhi, hone⟩ :=
    ColOk.mapLoop hx (min useable recordMaxSz) (by omega) (by omega) useable h ht (by omega) le_rfl
  rw [heq]
  obtain ⟨free, dels, hok, hd⟩ := hcarved.ok
  by_cases hgt : cur > min useable recordMaxSz
  · -- More than the largest record is left: a small one goes first.
    have hlarge : min useable recordMaxSz = recordMaxSz := by
      by_contra hne
      have := hone (by omega)
      omega
    have hcut := hok.carve hx 4096 (cur - 4096)
      (by rw [Contents.taken_set, Nat.add_sub_cancel' (by omega)]) (by omega) (by omega) (by omega)
    obtain ⟨free', dels', hok', hd'⟩ := hcut.ok
    rw [if_pos hgt]
    dsimp only
    rw [if_pos (by omega)]
    exact hcarved.trans hd (hcut.trans hd' (hok'.carve_all hx (Contents.taken_set ..) (by omega)
      (by omega)))
  · rw [if_neg hgt]
    dsimp only
    rw [if_pos (by omega)]
    exact hcarved.trans hd (hok.carve_all hx (Contents.taken_set ..) hlo (by omega))

theorem mapExtent2DelList_eq (c : Col) {x n useable : ℕ}
    (hblock : blockSize c.data (c.addr x) = n)
    (hfree : freeSpace c.data (c.addr x) = useable)
    (huse : useable + extentMetadataSz = n * c.pageSize.bytes) (hmin : minRecordSz ≤ useable) :
    (useable ≤ recordMaxSz → c.mapExtent2DelList x =
      ({ c with data := setFreeSpace c.data (c.addr x) 0 } : Col).saveDeleted
        ⟨x, extentMetadataSz⟩ useable) ∧
    (recordMaxSz + minRecordSz ≤ useable → useable < 2 * recordMaxSz →
      c.mapExtent2DelList x =
        (({ c with data := setFreeSpace c.data (c.addr x) 0 } : Col).saveDeleted
          ⟨x, extentMetadataSz⟩ recordMaxSz).saveDeleted ⟨x, extentMetadataSz + recordMaxSz⟩
          (useable - recordMaxSz)) := by
  have h36 : minRecordSz = 36 := rfl
  have hoff : n <<< c.pageSize.square - useable = extentMetadataSz := by
    rw [Nat.shiftLeft_eq, ← PageSize.bytes_eq]
    omega
  unfold Col.mapExtent2DelList
  dsimp only
  rw [hblock, hfree, if_neg (by omega), hoff]
  generalize ({ c with data := setFreeSpace c.data (c.addr x) 0 } : Col) = c₀
  obtain ⟨fuel, rfl⟩ : ∃ fuel, useable = fuel + 2 := ⟨useable - 2, by omega⟩
  constructor
  · intro hle
    have hloop : c₀.mapLoop x (fuel + 2) (fuel + 2) (fuel + 2) extentMetadataSz =
        (c₀, fuel + 2, extentMetadataSz) := by
      rw [Col.mapLoop, if_neg (by omega)]
    rw [min_eq_left hle, hloop]
    rw [if_neg (lt_irrefl _)]
    exact if_pos (Nat.succ_pos _)
  · intro hge hlt
    have hloop : c₀.mapLoop x recordMaxSz (fuel + 2) (fuel + 2) extentMetadataSz =
        (c₀.saveDeleted ⟨x, extentMetadataSz⟩ recordMaxSz, fuel + 2 - recordMaxSz,
          extentMetadataSz + recordMaxSz) := by
      rw [Col.mapLoop, if_pos (by omega), Col.mapLoop, if_neg (by omega)]
    rw [min_eq_right (by omega), hloop]
    rw [if_neg (show ¬ fuel + 2 - recordMaxSz > recordMaxSz by omega)]
    exact if_pos (Nat.sub_pos_of_lt (by omega))

theorem ColOk.size_free (h : c.ColOk mbEx added g) (hx : x ∈ added) {f : Run}
    (hf : f ∈ g.free x) : Record.size c.data (c.recordAddr ⟨x, f.start⟩) = f.size :=
  ((h.body x hx).free_ok f hf).size_eq

theorem recordAddr_saveDeleted (c : Col) (rid rid' : RecordID) (h : 0 < size) :
    (c.saveDeleted rid size).recordAddr rid' = c.recordAddr rid' := by
  rw [c.saveDeleted_eq _ h]
  rfl

theorem deleteList_saveDeleted (c : Col) (rid : RecordID) (h : 0 < size) (j : ℕ) :
    (c.saveDeleted rid size).mb.deleteList j =
      if j = deleteSlot size then some rid else c.mb.deleteList j := by
  rw [c.saveDeleted_eq _ h]
  rfl

/-- **The large record of a new extent** is the first of its list. -/
theorem ColOk.mapExtent2DelList_head {c : Col} (useable : ℕ)
    (h : ColOk { c with data := setFreeSpace c.data (c.addr x) 0 } mbEx added g)
    (hx : x ∈ added) (ht : g.taken x = [⟨extentMetadataSz, useable⟩])
    (hfree : freeSpace c.data (c.addr x) = useable)
    (huse : useable + extentMetadataSz = g.pages x * c.pageSize.bytes)
    (hlarge : useable ≤ recordMaxSz ∨ recordMaxSz + minRecordSz ≤ useable ∧
      useable < recordMaxSz + 2 ^ 16) :
    ∃ rid, (c.mapExtent2DelList x).mb.deleteList (deleteSlot (min useable recordMaxSz)) =
        some rid ∧
      Record.size (c.mapExtent2DelList x).data (c.recordAddr rid) = min useable recordMaxSz := by
  have h36 : minRecordSz = 36 := rfl
  have h36' : extentMetadataSz = 36 := rfl
  have hmax : recordMaxSz = 16777216 := rfl
  have hsize : 4096 ≤ g.pages x * c.pageSize.bytes := (h.size_le hx).1
  have hblock : blockSize c.data (c.addr x) = g.pages x :=
    (Mem.read_congr c.data.sameOn_write).symm.trans (h.body x hx).blockSize_eq
  obtain ⟨hone, htwo⟩ := c.mapExtent2DelList_eq hblock hfree huse (by omega)
  refine ⟨⟨x, extentMetadataSz⟩, ?_⟩
  generalize hc₀ : ({ c with data := setFreeSpace c.data (c.addr x) 0 } : Col) = c₀ at *
  have haddr : ∀ rid, c₀.recordAddr rid = c.recordAddr rid := fun rid => by rw [← hc₀]; rfl
  rcases hlarge with hle | ⟨hge, hlt⟩
  · rw [hone hle, min_eq_left hle]
    have hsave := (h.save hx ht (by dsimp only; omega) hle).size_free hx
      (f := ⟨extentMetadataSz, useable⟩) (by simp [Contents.save])
    have hpos : 0 < useable := by omega
    refine ⟨?_, ?_⟩
    · rw [deleteList_saveDeleted _ _ hpos, if_pos rfl]
    · rwa [recordAddr_saveDeleted _ _ _ hpos, haddr] at hsave
  · rw [htwo hge (hlt.trans_le (by decide)), min_eq_right (le_of_add_le_left hge)]
    obtain ⟨rest, rfl⟩ : ∃ rest, useable = recordMaxSz + rest := ⟨useable - recordMaxSz, by omega⟩
    have hpos : 0 < recordMaxSz := by decide
    have hpos' : 0 < recordMaxSz + rest - recordMaxSz := by omega
    -- The block is seen as two, and both are saved.
    have hbody := h.body x hx
    rw [ht] at hbody
    have hsplit := h.retake hx (hbody.split (by omega) (by omega))
    have hfirst := hsplit.save hx (Contents.taken_set ..) (by dsimp only; omega) (by dsimp only; omega)
    rw [Contents.save, Contents.set_set, Contents.recs_set, Contents.free_set] at hfirst
    have hboth := (hfirst.save hx (Contents.taken_set ..) (by dsimp only; omega)
      (by dsimp only; omega)).size_free hx (f := ⟨extentMetadataSz, recordMaxSz⟩)
      (by simp [Contents.save])
    have hslot : deleteSlot recordMaxSz ≠ deleteSlot (recordMaxSz + rest - recordMaxSz) := by
      have h1 := (deleteSlot_le_iff hpos' (by omega) 18).mpr (by omega)
      have h2 := mt (deleteSlot_le_iff hpos (by decide) 18).mp (by decide)
      omega
    refine ⟨?_, ?_⟩
    · rw [deleteList_saveDeleted _ _ hpos', if_neg hslot, deleteList_saveDeleted _ _ hpos,
        if_pos rfl]
    · rw [Nat.add_sub_cancel_left] at hpos' ⊢
      rwa [recordAddr_saveDeleted _ _ _ hpos', recordAddr_saveDeleted _ _ _ hpos, haddr] at hboth

end Carve

/-- The load list of `_allocateExtent`: the extent becomes the last on it. -/
def addToLoadList (c : Col) (extID : ℕ) : Rc × Col :=
  let prev := c.mb.loadLastExtentID
  let data := setPrevExtent c.data (c.addr extID) prev
  let data := setNextExtent data (c.addr extID) none
  let first := c.mb.loadFirstExtentID.or (some extID)
  let mb := { c.mb with loadFirstExtentID := first, loadLastExtentID := some extID }
  match prev with
  | none => (.ok, { c with data := data, mb := mb })
  | some p =>
    match c.extentAddr (some p) with
    | none => (.sys, { c with data := data, mb := { c.mb with loadFirstExtentID := first } })
    | some a => (.ok, { c with data := setNextExtent data a (some extID), mb := mb })

/-- `_allocateExtent` once the pages have been found; `lock` is how the context is locked. -/
def enterExtent (c : Col) (lock : Option Latch) (mbID extID numPages : ℕ)
    (deepInit add2LoadList : Bool) : Rc × Col :=
  match c.extentAddr (some extID) with
  | none => (.sys, c)
  | some _ =>
    let c := c.initExtent extID numPages mbID
    match if add2LoadList then c.addToLoadList extID else c.addExtent2Meta lock extID with
    | (.ok, c) => (.ok, if deepInit then c.mapExtent2DelList extID else c)
    | (rc, c) => (rc, c)

/-- **A new extent** joins the chain and is cut into deleted records. -/
theorem ColOk.enterExtent {c : Col} {mbEx x n : ℕ} {added : List ℕ} {g : Contents}
    (h : c.ColOk mbEx added g) (hx : c.NewPages mbEx added g x n) :
    ∃ c' free dels,
      c.enterExtent (some .exclusive) c.mb.blockID x n true false = (.ok, c') ∧
      c'.ColOk mbEx (added ++ [x]) ((g.new x n c.pageSize.bytes).set x [] free [] dels) ∧
      (∀ j, g.dels j <:+ dels j) ∧
      c.Touches c' mbEx (added ++ [x]) (g.new x n c.pageSize.bytes).pages ∧
      c'.stat.totals = { c.stat.totals with
        totalDataFreeSpace := c'.stat.totals.totalDataFreeSpace } ∧
      ∀ useable, useable + extentMetadataSz = n * c.pageSize.bytes →
        (useable ≤ recordMaxSz ∨ recordMaxSz + minRecordSz ≤ useable ∧
          useable < recordMaxSz + 2 ^ 16) →
        ∃ rid, c'.mb.deleteList (deleteSlot (min useable recordMaxSz)) = some rid ∧
          Record.size c'.data (c.recordAddr rid) = min useable recordMaxSz := by
  have hsize := hx.size_le
  have hmeta := hx.mbEx_bytes_apart
  have hmem : x ∈ added ++ [x] := by simp
  obtain ⟨data, first, last, heq, hchain, hjoin, hfree⟩ := h.join hx
  -- The first thing `_mapExtent2DelList` does is to write the free space.
  have hsame : ∀ y k, y + k ≤ c.addr x + 32 ∨ c.addr x + 36 ≤ y →
      data.SameOn (setFreeSpace data (c.addr x) 0) y k := fun y k hy =>
    data.sameOn_write
  have hjoin' : c.Joined mbEx added x n (setFreeSpace data (c.addr x) 0) :=
    ⟨fun y k h1 h2 => (hjoin.same y k h1 h2).trans (hsame y k (by omega)),
      (BodyOk.validate_congr (hsame _ _ (by omega))).trans hjoin.valid,
      (Mem.read_congr (hsame _ _ (by omega))).trans hjoin.blockSize_eq,
      (Mem.read_congr (hsame _ _ (by omega))).trans hjoin.recCount_eq,
      (Mem.readOpt_congr (hsame _ _ (by omega))).trans hjoin.first_eq,
      (Mem.readOpt_congr (hsame _ _ (by omega))).trans hjoin.last_eq⟩
  have hzero : freeSpace (setFreeSpace data (c.addr x) 0) (c.addr x) = 0 :=
    Mem.read_write_same _ _ _ _
  have hchain' : ChainOk (c.withEnds (setFreeSpace data (c.addr x) 0) first last) mbEx
      (added ++ [x]) := by
    refine hchain.congr rfl le_rfl hchain.pages_le rfl rfl rfl (hsame (c.addr mbEx) _ ?_)
      fun e he => hsame (c.addr e + 8) 12 ?_
    · dsimp only
      omega
    by_cases hex : e = x
    · rw [hex]
      omega
    have := c.pageSize.page_apart hex
    have hb := c.pageSize.le_bytes
    simp only [addr]
    omega
  have hnew := h.new hx hjoin' hchain' hzero
  have htouch : c.Touches (c.withEnds (setFreeSpace data (c.addr x) 0) first last) mbEx
      (added ++ [x]) (g.new x n c.pageSize.bytes).pages := by
    refine ⟨rfl, rfl, rfl, rfl, fun y k hy => hjoin'.same y k ?_ ⟨?_, fun e he => ?_⟩⟩
    · have := hy.2 x hmem
      have hpg := (hnew.size_le hmem).1
      dsimp only at hpg
      omega
    · have := hy.1
      omega
    · have he' : e ∈ added ++ [x] := by
        rcases mem_cons.mp he with rfl | he
        · exact hmem
        · exact mem_append_left _ he
      have h1 := hy.2 e he'
      have hpg := (hnew.size_le he').1
      dsimp only at hpg
      omega
  have hpages : (g.new x n c.pageSize.bytes).pages x = n := update_self ..
  obtain ⟨⟨free, dels, hok, hd⟩, hmap, htot⟩ := ColOk.mapExtent2DelList
    (c := c.withEnds data first last) hnew hmem (by rw [hpages]; exact update_self ..)
      (by rw [hpages]; exact hfree)
  have hhead : ∀ useable, useable + extentMetadataSz = n * c.pageSize.bytes → _ := fun useable hu =>
    ColOk.mapExtent2DelList_head (c := c.withEnds data first last) useable hnew hmem
      (by rw [eq_tsub_of_add_eq hu]; exact update_self ..)
      (by rw [eq_tsub_of_add_eq hu]; exact hfree) (by rw [hpages]; exact hu)
  have haddr : c.extentAddr (some x) = some (c.addr x) :=
    c.extentAddr_of_lt (by have := hx.within; have := hx.pos; omega)
  refine ⟨_, free, dels, ?_, ?_, hd, htouch.trans hmap, htot, hhead⟩
  · rw [Col.enterExtent, haddr]
    dsimp only
    rw [if_neg Bool.false_ne_true, heq]
    dsimp only
    rw [if_pos rfl]
  rwa [show (g.new x n c.pageSize.bytes).recs x = [] from update_self ..] at hok

end Col

end Novachains.Dms
