import Novachains.Dms.Reading

/-!
# Scans

`_dmsExtScanner` walks along the records of an extent; its user advances it to the end of the
extent, moves it to the next extent, and so on.  The numbers of records still to skip and still
to return are carried along.
-/

namespace Novachains.Dms

open Lib Oss List

namespace Record

def isCompressed (m : Mem) (r : ℕ) : Bool := flag m r &&& 0xF0 &&& 0x10 ≠ 0

/-- `getData`: where the data begins. -/
def getData (m : Mem) (r : ℕ) : ℕ :=
  if isCompressed m r then r + 4 + recordMetadataSz else r + recordMetadataSz

def ovfRID (m : Mem) (r : ℕ) : Option RecordID :=
  (m.readOpt (r + recordMetadataSz) 4).map fun extent =>
    ⟨extent, m.read (r + recordMetadataSz + 4) 4⟩

end Record

/-- `BSONObj( data )`: the object is as long as its first word says; a length that cannot be is
an exception. -/
def bsonAt (m : Mem) (p : ℕ) : Except Rc (List UInt8) :=
  if 0 < m.read p 4 ∧ m.read p 4 ≤ bsonObjMaxInternalSize then .ok (m.load p (m.read p 4))
  else .error .sys

structure Entry where
  rid : RecordID
  bytes : List UInt8

/-- `_dmsExtScanner`; `extent` is the address behind `_extent`. -/
structure ExtScanner where
  maxRecords : ℤ
  skipNum : ℤ
  mbLockType : Latch
  extent : Option ℕ
  curExtent : Option ℕ
  curOffset : Option ℕ
  next : Option ℕ
  firstRun : Bool

/-- `extractData`: where the data of the record is.  There is no result when an address that
is not mapped is read. -/
def BlockData.extractData (bd : BlockData) (ctx : MBContext) (r : ℕ) : Option (Except Rc ℕ) :=
  if ctx.mbLockType = none then some (.error .sys)
  else if Record.isOvf bd.data r then
    match Record.ovfRID bd.data r with
    | none => none
    | some rid =>
      (bd.extentAddr (some rid.extent)).map fun a =>
        .ok (Record.getData bd.data (a + rid.offset))
  else some (.ok (Record.getData bd.data r))

namespace ExtScanner

def new (curExtentID : Option ℕ) (mbLockType : Latch) (maxRecords skipNum : ℤ) : ExtScanner where
  maxRecords := maxRecords
  skipNum := skipNum
  mbLockType := mbLockType
  extent := none
  curExtent := curExtentID
  curOffset := none
  next := none
  firstRun := true

def nextExtentID (sc : ExtScanner) (bd : BlockData) : Option ℕ :=
  sc.extent.bind fun a => Extent.nextExtent bd.data a

def stepToNextExtent (sc : ExtScanner) (bd : BlockData) : Rc × ExtScanner :=
  if sc.maxRecords ≠ 0 ∧ sc.nextExtentID bd ≠ none then
    (.ok, { sc with curExtent := sc.nextExtentID bd, firstRun := true })
  else (.dmsEOC, sc)

def firstInit (bd : BlockData) (ctx : MBContext) (sc : ExtScanner) : Rc × MBContext × ExtScanner :=
  let sc := { sc with extent := bd.extentAddr sc.curExtent }
  match sc.extent with
  | none => (.invalidArg, ctx, sc)
  | some a =>
    let (rc, ctx) :=
      if ctx.mbLockType = some sc.mbLockType then (.ok, ctx)
      else ctx.mbLock (bd.mme ctx.mbID) sc.mbLockType
    if rc ≠ .ok then (rc, ctx, sc)
    else if !Extent.validate bd.data a ctx.mbID then (.sys, ctx, sc)
    else (.ok, ctx, { sc with next := Extent.firstRecordOffset bd.data a, firstRun := false })

/-- The loop of `_fetchNext`, for at most `fuel` records. -/
def fetchNext (bd : BlockData) (ctx : MBContext) :
    ℕ → ExtScanner → Option (Rc × Option Entry × ExtScanner)
  | 0, _ => none
  | fuel + 1, sc =>
    match sc.next with
    | none => some (.dmsEOC, none, { sc with curOffset := none })
    | some o =>
      if sc.maxRecords = 0 then some (.dmsEOC, none, { sc with curOffset := none })
      else
        match sc.curExtent, bd.extentAddr sc.curExtent with
        | some e, some a =>
          let sc := { sc with
            curOffset := some o, next := Record.nextOffset bd.data (a + o) }
          match bd.extractData ctx (a + o) with
          | none => none
          | some (.error rc) => some (rc, none, { sc with curOffset := none })
          | some (.ok p) =>
            match bsonAt bd.data p with
            | .error rc => some (rc, none, { sc with curOffset := none })
            | .ok bytes =>
              if sc.skipNum > 0 then
                fetchNext bd ctx fuel { sc with skipNum := sc.skipNum - 1 }
              else if sc.maxRecords > 0 then
                some (.ok, some ⟨⟨e, o⟩, bytes⟩, { sc with maxRecords := sc.maxRecords - 1 })
              else some (.ok, some ⟨⟨e, o⟩, bytes⟩, sc)
        | _, _ => none

/-- The next entry, or none at the end of the extent. -/
def advance (bd : BlockData) (fuel : ℕ) (ctx : MBContext) (sc : ExtScanner) :
    Option (Rc × Option Entry × MBContext × ExtScanner) :=
  let (rc, ctx, sc) := if sc.firstRun then sc.firstInit bd ctx else (.ok, ctx, sc)
  if rc ≠ .ok then some (rc, none, ctx, { sc with curOffset := none })
  else (sc.fetchNext bd ctx fuel).map fun r => (r.1, r.2.1, ctx, r.2.2)

end ExtScanner

/-- A scan: the scanner is advanced to the end of its extent and moved to the next extent, until
there is none. -/
def scanLoop (bd : BlockData) :
    ℕ → MBContext → ExtScanner → Option (Except Rc (List Entry))
  | 0, _, _ => none
  | fuel + 1, ctx, sc =>
    match sc.advance bd fuel ctx with
    | none => none
    | some (.ok, some entry, ctx, sc) =>
      (scanLoop bd fuel ctx sc).map fun r => r.map (entry :: ·)
    | some (.dmsEOC, _, ctx, sc) =>
      match sc.stepToNextExtent bd with
      | (.ok, sc) => scanLoop bd fuel ctx sc
      | _ => some (.ok [])
    | some (rc, _, _, _) => some (.error rc)

/-- All entries that a scanner from the first extent on returns. -/
def scan (bd : BlockData) (fuel : ℕ) (ctx : MBContext) (mbLockType : Latch)
    (maxRecords skipNum : ℤ) : Option (Except Rc (List Entry)) :=
  scanLoop bd fuel ctx
    (.new (bd.mme ctx.mbID).firstExtentID mbLockType maxRecords skipNum)

/-- The list without its first `skipNum` entries, and at most `maxRecords` of them; all when
`maxRecords` is negative. -/
def window {α : Type} (skipNum maxRecords : ℤ) (l : List α) : List α :=
  if maxRecords < 0 then l.drop skipNum.toNat else (l.drop skipNum.toNat).take maxRecords.toNat

section Window
variable {α : Type} {s m : ℤ} {a : α} {l : List α}

@[simp] theorem window_zero_max : window s 0 l = [] := by simp [window]

@[simp] theorem window_nil : window s m ([] : List α) = [] := by simp [window]

theorem window_skip (h : 0 < s) : window s m (a :: l) = window (s - 1) m l := by
  obtain ⟨k, rfl⟩ : ∃ k : ℕ, s = k + 1 := ⟨(s - 1).toNat, by omega⟩
  have hk : ((k : ℤ) + 1).toNat = k + 1 := by omega
  have hk' : ((k : ℤ) + 1 - 1).toNat = k := by omega
  simp only [window, hk, hk', drop_succ_cons]

theorem window_take_all (h : m < 0) : window 0 m (a :: l) = a :: window 0 m l := by
  simp [window, h]

theorem window_take (h : 0 < m) : window 0 m (a :: l) = a :: window 0 (m - 1) l := by
  obtain ⟨k, rfl⟩ : ∃ k : ℕ, m = k + 1 := ⟨(m - 1).toNat, by omega⟩
  have hk : ((k : ℤ) + 1).toNat = k + 1 := by omega
  have hk' : ((k : ℤ) + 1 - 1).toNat = k := by omega
  have hneg : ¬ (k : ℤ) + 1 < 0 := by omega
  have hneg' : ¬ (k : ℤ) + 1 - 1 < 0 := by omega
  simp only [window, if_neg hneg, if_neg hneg', hk, hk', Int.toNat_zero, drop_zero, take_succ_cons]

end Window

/-! ## What a scanner returns -/

/-- The document of a record of the extent `e`. -/
def Rec.entry (e : ℕ) (r : Rec) : Entry := ⟨⟨e, r.off⟩, r.data⟩

def Rec.Whole (r : Rec) : Prop := decode (r.data.take 4) = r.data.length

theorem RecOk.bsonAt_getData {m : Mem} {p : ℕ} {r : Rec} (h : RecOk m p r) (hw : r.Whole) :
    bsonAt m (Record.getData m p) = .ok r.data := by
  have hmin : minRecordDataSz = 5 := rfl
  have hle := h.min_le
  have hdata : Record.getData m p = p + recordMetadataSz := by
    simp [Record.getData, Record.isCompressed, h.flag_eq]
  have hread : m.read (p + recordMetadataSz) 4 = r.data.length := by
    have htake := m.take_load (p + recordMetadataSz) r.data.length 4
    rw [min_eq_left (by omega), h.data_eq] at htake
    rw [Mem.read, ← htake, hw]
  have hmax : r.data.length ≤ bsonObjMaxInternalSize := by
    have hlt : Record.dataLength m p ≤ 0x00FFFFFF := Nat.and_le_right
    rw [h.length_eq] at hlt
    exact hlt.trans (by decide)
  rw [hdata, bsonAt, hread, if_pos ⟨by omega, hmax⟩, h.data_eq]

theorem RecOk.extractData {bd : BlockData} {p : ℕ} {r : Rec} (h : RecOk bd.data p r) {ctx : MBContext}
    (hlock : ctx.mbLockType ≠ none) :
    bd.extractData ctx p = some (.ok (Record.getData bd.data p)) := by
  have hovf : ¬ Record.isOvf bd.data p = true := by simp [Record.isOvf, h.flag_eq]
  rw [BlockData.extractData, if_neg hlock, if_neg hovf]

namespace ExtScanner

/-- The scanner is in the extent `e`, before the records `recs`. -/
structure On (sc : ExtScanner) (bd : BlockData) (e : ℕ) (recs : List Rec) : Prop where
  cur : sc.curExtent = some e
  mapped : bd.extentAddr (some e) = some (bd.addr e)
  extent_eq : sc.extent = some (bd.addr e)
  path : Path (fun o => Record.nextOffset bd.data (bd.addr e + o)) sc.next (recs.map Rec.off) none
  recs_ok : ∀ r ∈ recs, RecOk bd.data (bd.addr e + r.off) r ∧ r.Whole
  skip_nonneg : 0 ≤ sc.skipNum
  running : sc.firstRun = false

/-- `sc'` has the same extent and lock as `sc`. -/
structure Stays (sc sc' : ExtScanner) : Prop where
  extent_eq : sc'.extent = sc.extent
  lock_eq : sc'.mbLockType = sc.mbLockType
  skip_nonneg : 0 ≤ sc'.skipNum

variable {bd : BlockData} {ctx : MBContext} {sc : ExtScanner} {e : ℕ}

/-- **What `_fetchNext` does**: it returns the first entry of the window, or goes on behind the
extent. -/
theorem On.fetchNext {recs : List Rec} (h : sc.On bd e recs) (hlock : ctx.mbLockType ≠ none)
    {fuel : ℕ} (hfuel : recs.length < fuel) :
    (∃ sc', sc.fetchNext bd ctx fuel = some (.dmsEOC, none, sc') ∧ sc.Stays sc' ∧
      ∀ L, window sc.skipNum sc.maxRecords (recs.map (Rec.entry e) ++ L) =
        window sc'.skipNum sc'.maxRecords L) ∨
    (∃ (r : Rec) (recs' : List Rec) (sc' : ExtScanner),
      sc.fetchNext bd ctx fuel = some (.ok, some (r.entry e), sc') ∧ sc.Stays sc' ∧
      sc'.On bd e recs' ∧ recs'.length < recs.length ∧
      ∀ L, window sc.skipNum sc.maxRecords (recs.map (Rec.entry e) ++ L) =
        r.entry e :: window sc'.skipNum sc'.maxRecords (recs'.map (Rec.entry e) ++ L)) := by
  induction recs generalizing sc fuel with
  | nil =>
    obtain ⟨fuel, rfl⟩ : ∃ k, fuel = k + 1 := ⟨fuel - 1, by omega⟩
    have hnext : sc.next = none := h.path
    refine .inl ⟨{ sc with curOffset := none }, ?_, ⟨rfl, rfl, h.skip_nonneg⟩, fun L => rfl⟩
    rw [ExtScanner.fetchNext, hnext]
  | cons r recs ih =>
    obtain ⟨fuel, rfl⟩ : ∃ k, fuel = k + 1 := ⟨fuel - 1, by omega⟩
    obtain ⟨hnext, hpath⟩ := h.path
    obtain ⟨hrec, hwhole⟩ := h.recs_ok r mem_cons_self
    rw [ExtScanner.fetchNext, hnext]
    dsimp only
    by_cases hmax : sc.maxRecords = 0
    · rw [if_pos hmax]
      refine .inl ⟨_, rfl, ⟨rfl, rfl, h.skip_nonneg⟩, fun L => ?_⟩
      simp [hmax]
    rw [if_neg hmax, h.cur, h.mapped]
    dsimp only
    rw [hrec.extractData hlock]
    dsimp only
    rw [hrec.bsonAt_getData hwhole]
    dsimp only
    -- The scanner behind the record, whatever has been counted.
    have hon : ∀ skip max : ℤ, 0 ≤ skip → ExtScanner.On
        { sc with
          curExtent := some e
          curOffset := some r.off
          next := Record.nextOffset bd.data (bd.addr e + r.off)
          skipNum := skip
          maxRecords := max } bd e recs := fun skip max hskip =>
      ⟨rfl, h.mapped, h.extent_eq, hpath, fun r hr => h.recs_ok r (mem_cons_of_mem _ hr),
        hskip, h.running⟩
    by_cases hskip : 0 < sc.skipNum
    · rw [if_pos hskip]
      have hwin : ∀ L, window sc.skipNum sc.maxRecords ((r :: recs).map (Rec.entry e) ++ L) =
          window (sc.skipNum - 1) sc.maxRecords (recs.map (Rec.entry e) ++ L) := fun L =>
        window_skip hskip
      rcases ih (hon (sc.skipNum - 1) sc.maxRecords (by omega)) (by simpa using hfuel) with
        ⟨sc', heq, hstays, hrest⟩ | ⟨r', recs', sc', heq, hstays, hon', hlt, hrest⟩
      · exact .inl ⟨sc', heq, ⟨hstays.extent_eq, hstays.lock_eq, hstays.skip_nonneg⟩, fun L =>
          (hwin L).trans (hrest L)⟩
      · exact .inr ⟨r', recs', sc', heq, ⟨hstays.extent_eq, hstays.lock_eq, hstays.skip_nonneg⟩,
          hon', Nat.lt_succ_of_lt hlt, fun L => (hwin L).trans (hrest L)⟩
    · rw [if_neg hskip]
      have hzero : sc.skipNum = 0 := le_antisymm (Int.not_lt.mp hskip) h.skip_nonneg
      by_cases hpos : 0 < sc.maxRecords
      · rw [if_pos hpos]
        refine .inr ⟨r, recs, _, rfl, ⟨rfl, rfl, h.skip_nonneg⟩,
          hon sc.skipNum (sc.maxRecords - 1) h.skip_nonneg, Nat.lt_succ_self _, fun L => ?_⟩
        rw [hzero]
        exact window_take hpos
      · rw [if_neg hpos]
        refine .inr ⟨r, recs, _, rfl, ⟨rfl, rfl, h.skip_nonneg⟩,
          hon sc.skipNum sc.maxRecords h.skip_nonneg, Nat.lt_succ_self _, fun L => ?_⟩
        rw [hzero]
        exact window_take_all (by omega)

def entered (sc : ExtScanner) (bd : BlockData) (e : ℕ) : ExtScanner :=
  { sc with
    extent := some (bd.addr e)
    next := Extent.firstRecordOffset bd.data (bd.addr e)
    firstRun := false }

theorem advance_first (hrun : sc.firstRun = true) (hcur : sc.curExtent = some e)
    (hmapped : bd.extentAddr (some e) = some (bd.addr e)) (hctx : ctx.Valid bd.mme)
    (hvalid : Extent.validate bd.data (bd.addr e) ctx.mbID = true) (fuel : ℕ) :
    sc.advance bd fuel ctx =
      (sc.entered bd e).advance bd fuel { ctx with mbLockType := some sc.mbLockType } := by
  have hlock : (if ctx.mbLockType = some sc.mbLockType then (Rc.ok, ctx)
      else ctx.mbLock (bd.mme ctx.mbID) sc.mbLockType) =
      (.ok, { ctx with mbLockType := some sc.mbLockType }) := by
    split
    next heq => rw [← heq]
    next => exact hctx.mbLock _
  have hinit : sc.firstInit bd ctx =
      (.ok, { ctx with mbLockType := some sc.mbLockType }, sc.entered bd e) := by
    rw [firstInit, hcur, hmapped]
    rw [hlock]
    simp only [ne_eq, not_true_eq_false, if_false, hvalid, Bool.not_true, Bool.false_eq_true]
    rw [entered, hcur]
  simp only [advance, hrun, if_true, hinit, entered, Bool.false_eq_true, if_false]

end ExtScanner

/-- The extent `e` can be read, and its records are `recs`. -/
structure Readable (bd : BlockData) (id e : ℕ) (recs : List Rec) : Prop where
  mapped : bd.extentAddr (some e) = some (bd.addr e)
  valid : Extent.validate bd.data (bd.addr e) id = true
  list : RecordList bd.data (bd.addr e) (recs.map Rec.off)
  recs_ok : ∀ r ∈ recs, RecOk bd.data (bd.addr e + r.off) r ∧ r.Whole

section ScanSpec
variable {bd : BlockData} {ctx : MBContext} {sc : ExtScanner} {e : ℕ}

theorem Readable.on {id : ℕ} {recs : List Rec} (h : Readable bd id e recs)
    (hcur : sc.curExtent = some e) (hskip : 0 ≤ sc.skipNum) : (sc.entered bd e).On bd e recs :=
  ⟨hcur, h.mapped, rfl, h.list, h.recs_ok, hskip, rfl⟩

theorem scanLoop_first {recs : List Rec} (h : Readable bd ctx.mbID e recs)
    (hrun : sc.firstRun = true) (hcur : sc.curExtent = some e) (hctx : ctx.Valid bd.mme) (fuel : ℕ) :
    scanLoop bd fuel ctx sc =
      scanLoop bd fuel { ctx with mbLockType := some sc.mbLockType } (sc.entered bd e) := by
  cases fuel with
  | zero => rfl
  | succ fuel =>
    rw [scanLoop, scanLoop, ExtScanner.advance_first hrun hcur h.mapped hctx h.valid]

/-- The entries of the extents `es`, whose records are `recs`. -/
def entries (recs : ℕ → List Rec) (es : List ℕ) : List Entry :=
  es.flatMap fun e => (recs e).map (Rec.entry e)

/-- How many calls a scan of the extents `es` needs at most. -/
def scanCalls (recs : ℕ → List Rec) (es : List ℕ) : ℕ := (es.map fun e => (recs e).length + 2).sum

theorem scanLoop_on {recs : ℕ → List Rec} (fuel : ℕ) {es : List ℕ} {rest : List Rec}
    (hon : sc.On bd e rest) (hlock : ctx.mbLockType = some sc.mbLockType) (hctx : ctx.Valid bd.mme)
    (hpath : Path (fun e => Extent.nextExtent bd.data (bd.addr e))
      (Extent.nextExtent bd.data (bd.addr e)) es none)
    (hread : ∀ x ∈ es, Readable bd ctx.mbID x (recs x))
    (hfuel : rest.length + scanCalls recs es + 2 ≤ fuel) :
    scanLoop bd fuel ctx sc = some (.ok (window sc.skipNum sc.maxRecords
      (rest.map (Rec.entry e) ++ entries recs es))) := by
  induction fuel generalizing sc es e rest with
  | zero => omega
  | succ fuel ih =>
    have hne : ctx.mbLockType ≠ none := by
      rw [hlock]
      exact Option.some_ne_none _
    have hadv : ∀ r, sc.fetchNext bd ctx fuel = some r →
        sc.advance bd fuel ctx = some (r.1, r.2.1, ctx, r.2.2) := by
      intro r hr
      simp [ExtScanner.advance, hon.running, hr]
    rcases hon.fetchNext hne (by omega : rest.length < fuel) with
      ⟨sc', heq, hstays, hrest⟩ | ⟨r, rest', sc', heq, hstays, hon', hlt, hrest⟩
    · rw [scanLoop, hadv _ heq]
      dsimp only
      rw [hrest, ExtScanner.stepToNextExtent, ExtScanner.nextExtentID, hstays.extent_eq,
        hon.extent_eq, Option.bind_some]
      by_cases hmax : sc'.maxRecords = 0
      · simp [hmax]
      cases es with
      | nil =>
        have hnone : Extent.nextExtent bd.data (bd.addr e) = none := hpath
        simp [hnone, entries]
      | cons e' es =>
        obtain ⟨hnext, hpath⟩ := hpath
        have hr := hread e' mem_cons_self
        rw [hnext, if_pos ⟨hmax, Option.some_ne_none _⟩]
        dsimp only
        have hc : ({ ctx with mbLockType := some sc'.mbLockType } : MBContext) = ctx := by
          rw [hstays.lock_eq, ← hlock]
        have hcalls : scanCalls recs (e' :: es) = (recs e').length + 2 + scanCalls recs es := by
          simp [scanCalls]
        rw [scanLoop_first hr rfl rfl hctx, hc]
        have hon' : (ExtScanner.entered { sc' with curExtent := some e', firstRun := true } bd
            e').On bd e' (recs e') := hr.on rfl hstays.skip_nonneg
        refine (ih hon' ?_ hpath
          (fun x hx => hread x (mem_cons_of_mem _ hx)) (by omega)).trans ?_
        · exact hlock.trans (congrArg some hstays.lock_eq.symm)
        · simp [entries, ExtScanner.entered]
    · rw [scanLoop, hadv _ heq, hrest]
      dsimp only
      rw [ih hon' (hlock.trans (congrArg some hstays.lock_eq.symm)) hpath hread (by omega)]
      rfl

/-- **A scan of a collection returns the window of its records**, in the order of chain and lists.
-/
theorem scan_eq {recs : ℕ → List Rec} {chain : List ℕ} (hctx : ctx.Valid bd.mme)
    (hchain : bd.IsChain ctx.mbID chain) (hne : chain ≠ [])
    (hread : ∀ e ∈ chain, Readable bd ctx.mbID e (recs e)) (lock : Latch) (maxRecords : ℤ)
    {skipNum : ℤ} (hskip : 0 ≤ skipNum) {fuel : ℕ} (hfuel : scanCalls recs chain ≤ fuel) :
    scan bd fuel ctx lock maxRecords skipNum =
      some (.ok (window skipNum maxRecords (entries recs chain))) := by
  cases chain with
  | nil => exact absurd rfl hne
  | cons e es =>
    obtain ⟨hfirst, hpath⟩ := hchain
    have hr := hread e mem_cons_self
    have hcalls : scanCalls recs (e :: es) = (recs e).length + 2 + scanCalls recs es := by
      simp [scanCalls]
    rw [scan, hfirst, scanLoop_first hr rfl rfl hctx]
    have hon : ((ExtScanner.new (some e) lock maxRecords skipNum).entered bd e).On bd e (recs e) :=
      hr.on rfl hskip
    refine (scanLoop_on fuel hon ?_ (hctx.setLock (some lock)) hpath
      (fun x hx => hread x (mem_cons_of_mem _ hx)) (by omega)).trans ?_
    · rfl
    · simp [entries, ExtScanner.entered, ExtScanner.new]

end ScanSpec

end Novachains.Dms
