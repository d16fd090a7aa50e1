import Novachains.Basic
import Novachains.Lib.Bytes
import Mathlib.Algebra.Order.BigOperators.Group.List

/-!
# Trace records

`pdTraceFunc` adds up the sizes of its arguments, reserves that much of the trace buffer and copies
the record and the arguments there.  All sizes are kept in 16 bits, those of the arguments with a
header of four bytes.
-/

namespace Novachains.Pd

open Lib List

abbrev traceRecordMaxSize : ℕ := 65536

abbrev maxArgNum : ℕ := 9

abbrev argHeaderSz : ℕ := 4

abbrev recordHeaderSz : ℕ := 24

inductive ArgType
  | none | null | char | byte | short | ushort | int | uint | long | ulong | float | double
  | string | raw | bsonRaw
  deriving DecidableEq, Repr

def ArgType.code : ArgType → ℕ
  | .none => 0
  | .null => 1
  | .char => 2
  | .byte => 3
  | .short => 4
  | .ushort => 5
  | .int => 6
  | .uint => 7
  | .long => 8
  | .ulong => 9
  | .float => 10
  | .double => 11
  | .string => 12
  | .raw => 13
  | .bsonRaw => 14

structure TraceArgument where
  argumentType : ArgType := .none
  argumentSize : ℕ := argHeaderSz
  deriving DecidableEq, Repr

variable (a : TraceArgument)

namespace TraceArgument

def dataSize : ℕ := u16 (a.argumentSize + 2 ^ 16 - argHeaderSz)

def setDataSize (size : ℕ) : TraceArgument :=
  { a with argumentSize := u16 (argHeaderSz + size) }

def argSize : ℕ := a.argumentSize

def bytes : List UInt8 :=
  encode 1 a.argumentType.code ++ encode 1 0 ++ encode 2 a.argumentSize

end TraceArgument

/-- `_pdTraceArgTuple`; `y` is the memory from the data on. -/
structure ArgTuple where
  arg : TraceArgument
  y : Mem

/-- The constructor of `_pdTraceArgTuple`, which casts the length `c` to 16 bits. -/
def ArgTuple.ofData (a : ArgType) (y : Mem) (c : ℤ) : ArgTuple :=
  ⟨({ argumentType := a } : TraceArgument).setDataSize (c % 2 ^ 16).toNat, y⟩

structure TraceRecord where
  flag : ℕ := 0
  numArgs : ℕ := 0
  functionID : ℕ := 0
  tid : ℕ := 0
  line : ℕ := 0
  recordSize : ℕ := recordHeaderSz
  timestamp : ℕ := 0
  deriving DecidableEq, Repr

def TraceRecord.bytes (r : TraceRecord) : List UInt8 :=
  [84, 82] ++ encode 1 r.flag ++ encode 1 r.numArgs ++ encode 4 r.functionID ++ encode 4 r.tid
    ++ encode 2 r.line ++ encode 2 r.recordSize ++ encode 8 r.timestamp

def TraceRecord.count (record : TraceRecord) (a : TraceArgument) : TraceRecord :=
  { record with
    numArgs := (record.numArgs + 1) % 2 ^ 8
    recordSize := u16 (record.recordSize + a.argSize) }

/-- The loop of `pdTraceFunc` that counts the arguments; the first that does not fit ends it. -/
def account : List ArgTuple → ℕ → TraceRecord → TraceRecord × List ArgTuple
  | [], _, record => (record, [])
  | t :: ts, lastSize, record =>
    if t.arg.argumentType ≠ .none then
      if t.arg.argSize > lastSize then
        (record, { t with arg := { t.arg with argumentType := .none } } :: ts)
      else
        let r := account ts (u16 (lastSize + 2 ^ 16 - t.arg.argSize)) (record.count t.arg)
        (r.1, t :: r.2)
    else (record, t :: ts)

/-- The next position, the ranges that were copied to and the places of the arguments. -/
structure Filling where
  mem : Mem
  pos : ℕ
  copied : List (ℕ × ℕ) := []
  args : List ℕ := []

/-- A text that is as long as a record may be is not copied. -/
def fillIn (f : Filling) (input : List UInt8) : Filling :=
  if traceRecordMaxSize ≤ input.length then f
  else { f with
    mem := f.mem.store f.pos input
    pos := f.pos + input.length
    copied := f.copied ++ [(f.pos, input.length)] }

def fillArg (f : Filling) (t : ArgTuple) : Filling :=
  fillIn (fillIn { f with args := f.args ++ [f.pos] } t.arg.bytes) (t.y.load 0 t.arg.dataSize)

/-- The loop that copies the arguments behind the record. -/
def fillArgs (f : Filling) : List ArgTuple → Filling
  | [] => f
  | t :: ts => if t.arg.argumentType ≠ .none then fillArgs (fillArg f t) ts else f

/-- What `pdTraceFunc` has written: the reserved address, the record, its arguments and the
buffer. -/
structure Written where
  p : ℕ
  record : TraceRecord
  tuple : List ArgTuple
  filling : Filling

/-- `pdTraceFunc` from the record on, where `reserve` is `reserveMemory`. -/
def pdTraceWrite (reserve : ℕ → Option ℕ) (mem : Mem) (funcCode type line tid timestamp : ℕ)
    (tuple : List ArgTuple) : Option Written :=
  let lastSize := u16 (traceRecordMaxSize - recordHeaderSz)
  let r := account (tuple.take maxArgNum) lastSize {
    flag := type % 2 ^ 8
    functionID := u32 funcCode
    tid := tid
    line := u16 line
    timestamp := timestamp }
  match reserve r.1.recordSize with
  | none => none
  | some p => some ⟨p, r.1, r.2, fillArgs (fillIn ⟨mem, p, [], []⟩ r.1.bytes) r.2⟩

/-- `getArg`, which adds the stored sizes. -/
def getArg (mem : Mem) (record : ℕ) : ℕ → ℕ
  | 0 => record + recordHeaderSz
  | id + 1 => getArg mem record id + mem.read (getArg mem record id + 2) 2

def kept (tuple : List ArgTuple) : List ArgTuple :=
  tuple.takeWhile fun t => t.arg.argumentType ≠ .none

def fullSize (ts : List ArgTuple) : ℕ := (ts.map fun t => argHeaderSz + t.arg.dataSize).sum

/-- The record fills its reservation, says so, and its arguments are found again. -/
structure Fills (w : Written) : Prop where
  exact : ∀ a, (∃ c ∈ w.filling.copied, c.1 ≤ a ∧ a < c.1 + c.2)
    ↔ w.p ≤ a ∧ a < w.p + w.record.recordSize
  size_le : w.record.recordSize ≤ traceRecordMaxSize
  stored : w.filling.mem.read (w.p + 14) 2 = w.record.recordSize
  numArgs : w.filling.mem.read (w.p + 3) 1 = w.record.numArgs
  visits : (List.range w.record.numArgs).map (getArg w.filling.mem w.p) = w.filling.args
  ends : getArg w.filling.mem w.p w.record.numArgs = w.p + w.record.recordSize

def TraceArgument.Sized : Prop := a.argumentSize < 2 ^ 16

theorem ofData_sized (a : ArgType) (y : Mem) (c : ℤ) : (ArgTuple.ofData a y c).arg.Sized :=
  Nat.mod_lt _ (by decide)

theorem dataSize_lt : a.dataSize < 2 ^ 16 := Nat.mod_lt _ (by decide)

theorem argSize_eq {a : TraceArgument} (h : a.Sized) :
    a.argSize = (argHeaderSz + a.dataSize) % 2 ^ 16 := by
  simp only [TraceArgument.Sized] at h
  simp only [TraceArgument.argSize, TraceArgument.dataSize, u16, argHeaderSz]
  omega

/-- The record counts the arguments `ts`, which are some of `tuple`. -/
structure Accounted (record record' : TraceRecord) (tuple ts : List ArgTuple) : Prop where
  sub : ts.Sublist tuple
  size : record'.recordSize = (record.recordSize + fullSize ts) % 2 ^ 16
  num : record'.numArgs = (record.numArgs + ts.length) % 2 ^ 8

variable {record : TraceRecord}

variable {t : ArgTuple} {ts tuple : List ArgTuple}

theorem accounted_nil (hr : record.recordSize < 2 ^ 16) (hn : record.numArgs < 2 ^ 8) :
    Accounted record record tuple [] :=
  ⟨nil_sublist _, (Nat.mod_eq_of_lt hr).symm, (Nat.mod_eq_of_lt hn).symm⟩

theorem kept_cons_of_none (h : t.arg.argumentType = .none) (ts : List ArgTuple) :
    kept (t :: ts) = [] := by
  simp [kept, h]

theorem kept_cons_of_ne (h : t.arg.argumentType ≠ .none) (ts : List ArgTuple) :
    kept (t :: ts) = t :: kept ts := by
  simp [kept, h]

theorem Accounted.cons {record' : TraceRecord} (ht : t.arg.Sized)
    (h : Accounted (record.count t.arg) record' tuple ts) :
    Accounted record record' (t :: tuple) (t :: ts) := by
  refine ⟨h.sub.cons_cons t, ?_, ?_⟩
  · rw [h.size, fullSize, fullSize, map_cons, sum_cons]
    simp only [TraceRecord.count, u16, argSize_eq ht]
    omega
  · rw [h.num, length_cons]
    simp only [TraceRecord.count]
    omega

theorem account_spec (hs : ∀ t ∈ tuple, t.arg.Sized) (lastSize : ℕ)
    (hr : record.recordSize < 2 ^ 16) (hn : record.numArgs < 2 ^ 8) :
    Accounted record (account tuple lastSize record).1 tuple
      (kept (account tuple lastSize record).2) := by
  induction tuple generalizing lastSize record with
  | nil => exact accounted_nil hr hn
  | cons t ts ih =>
    obtain ⟨ht, hts⟩ := forall_mem_cons.mp hs
    rw [account]
    split
    · rename_i htype
      split
      · rw [kept_cons_of_none rfl]
        exact accounted_nil hr hn
      · rw [kept_cons_of_ne htype]
        exact (ih hts _ (Nat.mod_lt _ (by decide)) (Nat.mod_lt _ (by decide))).cons ht
    · rename_i htype
      rw [kept_cons_of_none (not_not.mp htype)]
      exact accounted_nil hr hn

/-- The copies so far cover `n` bytes from `p` on, and the next is behind them. -/
structure Covers (f : Filling) (p n : ℕ) : Prop where
  pos : f.pos = p + n
  copied : ∀ a, (∃ c ∈ f.copied, c.1 ≤ a ∧ a < c.1 + c.2) ↔ p ≤ a ∧ a < p + n

theorem covers_start (mem : Mem) (p : ℕ) : Covers ⟨mem, p, [], []⟩ p 0 where
  pos := rfl
  copied := fun a => by
    simp only [not_mem_nil, false_and, exists_false, false_iff]
    omega

variable {f : Filling} {p n : ℕ} {input : List UInt8}

theorem Covers.fillIn (h : Covers f p n) (hlen : input.length < traceRecordMaxSize) :
    Covers (fillIn f input) p (n + input.length) := by
  have hpos := h.pos
  rw [Pd.fillIn, if_neg (by omega)]
  refine ⟨by simp only; omega, ?_⟩
  intro a
  have hcopied := h.copied a
  simp only [mem_append, mem_singleton, or_and_right, exists_or, exists_eq_left]
  rw [hcopied]
  omega

theorem bytes_length : a.bytes.length = argHeaderSz := by
  simp [TraceArgument.bytes]

/-! ## The stored arguments -/

/-- The places of arguments stored one after another from `q` on. -/
def places : ℕ → List ArgTuple → List ℕ
  | _, [] => []
  | q, t :: ts => q :: places (q + (argHeaderSz + t.arg.dataSize)) ts

def Stored (mem : Mem) : ℕ → List ArgTuple → Prop
  | _, [] => True
  | q, t :: ts =>
    mem.read (q + 2) 2 = t.arg.argSize ∧ Stored mem (q + (argHeaderSz + t.arg.dataSize)) ts

theorem fillIn_mem (hlen : input.length < traceRecordMaxSize) :
    (fillIn f input).mem = f.mem.store f.pos input := by
  rw [fillIn, if_neg (by omega)]

theorem fillIn_pos (hlen : input.length < traceRecordMaxSize) :
    (fillIn f input).pos = f.pos + input.length := by
  rw [fillIn, if_neg (by omega)]

theorem fillIn_args (f : Filling) (input : List UInt8) : (fillIn f input).args = f.args := by
  rw [fillIn]
  split <;> rfl

theorem fillIn_sameOn (input : List UInt8) {b : ℕ} (h : b + n ≤ f.pos) :
    f.mem.SameOn (fillIn f input).mem b n := by
  rw [fillIn]
  split
  · exact .rfl
  · exact f.mem.sameOn_store (.inl h)

theorem bytes_lt : a.bytes.length < traceRecordMaxSize := by
  rw [bytes_length]
  decide

structure ArgFilled (f f' : Filling) (t : ArgTuple) : Prop where
  covers : ∀ {p n}, Covers f p n → Covers f' p (n + (argHeaderSz + t.arg.dataSize))
  pos : f'.pos = f.pos + (argHeaderSz + t.arg.dataSize)
  args : f'.args = f.args ++ [f.pos]
  size : f'.mem.read (f.pos + 2) 2 = t.arg.argSize
  sameOn : ∀ b n, b + n ≤ f.pos → f.mem.SameOn f'.mem b n

theorem fillArg_filled (f : Filling) (ht : t.arg.Sized) : ArgFilled f (fillArg f t) t := by
  have hdata : (t.y.load 0 t.arg.dataSize).length < traceRecordMaxSize := by
    rw [Mem.length_load]
    exact dataSize_lt t.arg
  set f₀ : Filling := { f with args := f.args ++ [f.pos] } with hf₀
  have hpos : (fillIn f₀ t.arg.bytes).pos = f.pos + argHeaderSz := by
    rw [fillIn_pos (bytes_lt _), bytes_length]
  refine ⟨?_, ?_, ?_, ?_, ?_⟩
  · intro p n h
    have hf : Covers f₀ p n := ⟨h.pos, h.copied⟩
    have hall := (hf.fillIn (bytes_lt t.arg)).fillIn hdata
    rwa [bytes_length, Mem.length_load, add_assoc] at hall
  · rw [fillArg, fillIn_pos hdata, hpos, Mem.length_load, add_assoc]
  · rw [fillArg, fillIn_args, fillIn_args]
  · -- the data is behind the header, so it leaves the size
    have hhead : (fillIn f₀ t.arg.bytes).mem.read (f.pos + 2) 2 = t.arg.argumentSize := by
      rw [fillIn_mem (bytes_lt _), TraceArgument.bytes]
      have hread := f.mem.read_store_part f.pos 2 t.arg.argumentSize
        (encode 1 t.arg.argumentType.code ++ encode 1 0) []
      rw [append_nil, List.length_append, length_encode, length_encode] at hread
      exact hread.trans (Nat.mod_eq_of_lt ht)
    have hbefore : f.pos + 2 + 2 ≤ (fillIn f₀ t.arg.bytes).pos := hpos.ge
    rw [fillArg, Mem.read_congr (fillIn_sameOn _ hbefore), hhead, TraceArgument.argSize]
  · intro b n hbn
    refine Mem.SameOn.trans (fillIn_sameOn (f := f₀) t.arg.bytes hbn) (fillIn_sameOn _ ?_)
    rw [hpos]
    omega

structure ArgsFilled (f f' : Filling) (ts : List ArgTuple) : Prop where
  covers : ∀ {p n}, Covers f p n → Covers f' p (n + fullSize ts)
  args : f'.args = f.args ++ places f.pos ts
  stored : Stored f'.mem f.pos ts
  sameOn : ∀ b n, b + n ≤ f.pos → f.mem.SameOn f'.mem b n

theorem ArgsFilled.cons {f₁ f' : Filling} (h₁ : ArgFilled f f₁ t) (h : ArgsFilled f₁ f' ts) :
    ArgsFilled f f' (t :: ts) := by
  have hpos := h₁.pos
  have hhead : argHeaderSz = 4 := rfl
  refine ⟨?_, ?_, ⟨?_, ?_⟩, ?_⟩
  · intro p n hcov
    rw [fullSize, map_cons, sum_cons, ← add_assoc]
    exact h.covers (h₁.covers hcov)
  · rw [h.args, h₁.args, hpos, places, append_assoc, singleton_append]
  · rw [Mem.read_congr (h.sameOn _ _ (by omega)), h₁.size]
  · rw [← hpos]
    exact h.stored
  · intro b n hbn
    exact (h₁.sameOn b n hbn).trans (h.sameOn b n (by omega))

theorem fillArgs_filled (f : Filling) (hs : ∀ t ∈ kept ts, t.arg.Sized) :
    ArgsFilled f (fillArgs f ts) (kept ts) := by
  have hnil (f : Filling) : ArgsFilled f f [] := ⟨id, (append_nil _).symm, trivial, fun _ _ _ => .rfl⟩
  induction ts generalizing f with
  | nil => exact hnil f
  | cons t ts ih =>
    rw [fillArgs]
    split
    · rename_i htype
      rw [kept_cons_of_ne htype] at hs ⊢
      obtain ⟨ht, hts⟩ := forall_mem_cons.mp hs
      exact .cons (fillArg_filled f ht) (ih (fillArg f t) hts)
    · rename_i htype
      rw [kept_cons_of_none (not_not.mp htype)]
      exact hnil f

variable {mem : Mem}

/-- **The walk finds the arguments** when no size has lost a bit. -/
theorem getArg_walk {q k : ℕ} (hq : getArg mem p k = q) (hst : Stored mem q ts)
    (hsz : ∀ t ∈ ts, t.arg.argSize = argHeaderSz + t.arg.dataSize) :
    (List.range ts.length).map (fun i => getArg mem p (k + i)) = places q ts
      ∧ getArg mem p (k + ts.length) = q + fullSize ts := by
  induction ts generalizing q k with
  | nil => exact ⟨rfl, hq⟩
  | cons t ts ih =>
    obtain ⟨ht, hts⟩ := forall_mem_cons.mp hsz
    have hnext : getArg mem p (k + 1) = q + (argHeaderSz + t.arg.dataSize) := by
      rw [getArg, hq, hst.1, ht]
    obtain ⟨hrange, hend⟩ := ih hnext hst.2 hts
    refine ⟨?_, ?_⟩
    · rw [length_cons, range_succ_eq_map, map_cons, List.map_map, places,
        ← hrange, add_zero, hq]
      refine congrArg (q :: ·) (map_congr_left fun i _ => ?_)
      rw [Function.comp_apply, Nat.succ_eq_add_one, add_right_comm, add_assoc k i 1,
        add_comm i 1, ← add_assoc]
    · rw [length_cons, add_comm ts.length 1, ← add_assoc, hend, fullSize, fullSize,
        map_cons, sum_cons, add_assoc]

/-! ## When a record fills its reservation -/

structure HeadStored (mem : Mem) (p : ℕ) (record : TraceRecord) : Prop where
  size : mem.read (p + 14) 2 = record.recordSize
  num : mem.read (p + 3) 1 = record.numArgs

theorem record_bytes_length (record : TraceRecord) : record.bytes.length = recordHeaderSz := by
  simp [TraceRecord.bytes]

theorem headStored_store (mem : Mem) (p : ℕ) (hr : record.recordSize < 2 ^ 16)
    (hn : record.numArgs < 2 ^ 8) : HeadStored (mem.store p record.bytes) p record := by
  refine ⟨?_, ?_⟩
  · have hread := mem.read_store_part p 2 record.recordSize
      ([84, 82] ++ encode 1 record.flag ++ encode 1 record.numArgs ++ encode 4 record.functionID
        ++ encode 4 record.tid ++ encode 2 record.line) (encode 8 record.timestamp)
    simp only [List.length_append, length_encode, length_cons, length_nil] at hread
    exact hread.trans (Nat.mod_eq_of_lt hr)
  · have hread := mem.read_store_part p 1 record.numArgs ([84, 82] ++ encode 1 record.flag)
      (encode 4 record.functionID ++ encode 4 record.tid ++ encode 2 record.line
        ++ encode 2 record.recordSize ++ encode 8 record.timestamp)
    have hbytes : record.bytes = [84, 82] ++ encode 1 record.flag ++ encode 1 record.numArgs
        ++ (encode 4 record.functionID ++ encode 4 record.tid ++ encode 2 record.line
          ++ encode 2 record.recordSize ++ encode 8 record.timestamp) := by
      simp only [TraceRecord.bytes, append_assoc]
    simp only [List.length_append, length_encode, length_cons, length_nil] at hread
    rw [hbytes]
    exact hread.trans (Nat.mod_eq_of_lt hn)

theorem HeadStored.congr {mem' : Mem} (h : HeadStored mem p record)
    (hsame : mem.SameOn mem' p recordHeaderSz) : HeadStored mem' p record where
  size := by
    have hin : p + 14 + 2 ≤ p + recordHeaderSz := by simp only [recordHeaderSz]; omega
    rw [Mem.read_congr (hsame.mono (by omega) hin), h.size]
  num := by
    have hin : p + 3 + 1 ≤ p + recordHeaderSz := by simp only [recordHeaderSz]; omega
    rw [Mem.read_congr (hsame.mono (by omega) hin), h.num]

/-- What `pdTraceFunc` has written when it has written a record. -/
structure WrittenOk (w : Written) : Prop where
  size : w.record.recordSize = (recordHeaderSz + fullSize (kept w.tuple)) % 2 ^ 16
  num : w.record.numArgs = (kept w.tuple).length
  covers : Covers w.filling w.p (recordHeaderSz + fullSize (kept w.tuple))
  head : HeadStored w.filling.mem w.p w.record
  args : w.filling.args = places (w.p + recordHeaderSz) (kept w.tuple)
  stored : Stored w.filling.mem (w.p + recordHeaderSz) (kept w.tuple)
  sized : ∀ t ∈ kept w.tuple, t.arg.Sized

variable {w : Written}

theorem pdTraceWrite_ok {reserve : ℕ → Option ℕ} {funcCode type line tid timestamp : ℕ}
    (hs : ∀ t ∈ tuple, t.arg.Sized)
    (h : pdTraceWrite reserve mem funcCode type line tid timestamp tuple = some w) :
    WrittenOk w := by
  have htake : ∀ t ∈ tuple.take maxArgNum, t.arg.Sized := fun t ht =>
    hs t (mem_of_mem_take ht)
  set record₀ : TraceRecord :=
    { flag := type % 2 ^ 8
      functionID := u32 funcCode
      tid := tid
      line := u16 line
      timestamp := timestamp } with hrecord₀
  have hsize₀ : record₀.recordSize < 2 ^ 16 := (by decide : recordHeaderSz < 2 ^ 16)
  have hnum₀ : record₀.numArgs < 2 ^ 8 := (by decide : 0 < 2 ^ 8)
  have hacc := account_spec htake (u16 (traceRecordMaxSize - recordHeaderSz)) hsize₀ hnum₀
  rw [pdTraceWrite] at h
  simp only [← hrecord₀] at h
  generalize account (tuple.take maxArgNum) (u16 (traceRecordMaxSize - recordHeaderSz)) record₀ = r
    at hacc h
  split at h
  · cases h
  rename_i p _
  cases h
  have hsized : ∀ t ∈ kept r.2, t.arg.Sized := fun t ht => htake t (hacc.sub.subset ht)
  have hlen : (kept r.2).length ≤ maxArgNum :=
    hacc.sub.length_le.trans (length_take_le _ _)
  have hnum : r.1.numArgs = (kept r.2).length := by
    have hmax : maxArgNum = 9 := rfl
    have hn := hacc.num
    simp only [hrecord₀] at hn
    omega
  have hbytes : r.1.bytes.length < traceRecordMaxSize := by
    rw [record_bytes_length]
    decide
  have hsize : r.1.recordSize < 2 ^ 16 := by
    rw [hacc.size]
    exact Nat.mod_lt _ (Nat.two_pow_pos 16)
  have hfill := fillArgs_filled (fillIn ⟨mem, p, [], []⟩ r.1.bytes) hsized
  have hcov := hfill.covers ((covers_start mem p).fillIn hbytes)
  rw [zero_add, record_bytes_length] at hcov
  have hpos : (fillIn ⟨mem, p, [], []⟩ r.1.bytes).pos = p + recordHeaderSz := by
    rw [fillIn_pos hbytes, record_bytes_length]
  have hhead : HeadStored (fillIn ⟨mem, p, [], []⟩ r.1.bytes).mem p r.1 := by
    rw [fillIn_mem hbytes]
    exact headStored_store mem p hsize (by rw [hacc.num]; exact Nat.mod_lt _ (by decide))
  have hargs := hfill.args
  have hstored := hfill.stored
  rw [fillIn_args, nil_append, hpos] at hargs
  rw [hpos] at hstored
  exact ⟨hacc.size, hnum, hcov, hhead.congr (hfill.sameOn _ _ hpos.ge), hargs, hstored, hsized⟩

theorem WrittenOk.fills (h : WrittenOk w)
    (hlt : recordHeaderSz + fullSize (kept w.tuple) < traceRecordMaxSize) : Fills w := by
  have hsize : w.record.recordSize = recordHeaderSz + fullSize (kept w.tuple) :=
    h.size.trans (Nat.mod_eq_of_lt hlt)
  have hfull : ∀ t ∈ kept w.tuple, t.arg.argSize = argHeaderSz + t.arg.dataSize := by
    intro t ht
    have hle : argHeaderSz + t.arg.dataSize ≤ fullSize _ :=
      single_le_sum (fun _ _ => Nat.zero_le _) _ (List.mem_map_of_mem ht)
    have hlt16 : argHeaderSz + t.arg.dataSize < 2 ^ 16 :=
      (hle.trans (Nat.le_add_left _ _)).trans_lt hlt
    rw [argSize_eq (h.sized t ht), Nat.mod_eq_of_lt hlt16]
  have hstart : getArg w.filling.mem w.p 0 = w.p + recordHeaderSz := rfl
  obtain ⟨hvisits, hends⟩ := getArg_walk hstart h.stored hfull
  simp only [zero_add] at hvisits hends
  refine ⟨?_, ?_, h.head.size, h.head.num, ?_, ?_⟩
  · rw [hsize]
    exact h.covers.copied
  · rw [hsize]
    exact hlt.le
  · rw [h.num, h.args]
    exact hvisits
  · rw [h.num, hends, hsize, add_assoc]

theorem WrittenOk.not_fills (h : WrittenOk w)
    (hle : traceRecordMaxSize ≤ recordHeaderSz + fullSize (kept w.tuple)) : ¬Fills w := by
  intro hf
  have hlt : w.record.recordSize < 2 ^ 16 := by
    rw [h.size]
    exact Nat.mod_lt _ (Nat.two_pow_pos 16)
  have hin := (h.covers.copied (w.p + w.record.recordSize)).mpr
    ⟨Nat.le_add_right _ _, Nat.add_lt_add_left (hlt.trans_le hle) _⟩
  have hout := (hf.exact _).mp hin
  exact lt_irrefl _ hout.2

theorem WrittenOk.fills_iff (h : WrittenOk w) :
    Fills w ↔ recordHeaderSz + fullSize (kept w.tuple) < traceRecordMaxSize := by
  refine ⟨fun hf => ?_, h.fills⟩
  by_contra hle
  exact h.not_fills (not_lt.mp hle) hf

/-- Arguments of the lengths `ls` fit behind `n` bytes: none fills the record up to 65536 bytes, and
none longer than 16 bits can say comes where the bits that are kept of its size fit. -/
def Fitting (n : ℕ) (ls : List ℕ) : Prop :=
  (∀ pre, pre <+: ls → n + (pre.map (argHeaderSz + ·)).sum ≠ traceRecordMaxSize)
    ∧ ∀ pre l, pre ++ [l] <+: ls →
      n + (pre.map (argHeaderSz + ·)).sum + (argHeaderSz + l) % 2 ^ 16 ≤ traceRecordMaxSize →
        argHeaderSz + l < 2 ^ 16

variable {l : ℕ} {ls : List ℕ}

theorem fitting_nil : Fitting n [] ↔ n ≠ traceRecordMaxSize := by
  simp [Fitting]

theorem fitting_cons : Fitting n (l :: ls) ↔ n ≠ traceRecordMaxSize
    ∧ (n + (argHeaderSz + l) % 2 ^ 16 ≤ traceRecordMaxSize → argHeaderSz + l < 2 ^ 16)
    ∧ Fitting (n + (argHeaderSz + l)) ls := by
  constructor
  · rintro ⟨hsum, hlen⟩
    refine ⟨hsum [] nil_prefix, hlen [] l ((prefix_cons_inj l).mpr nil_prefix), ?_, ?_⟩
    · intro pre hpre
      simpa [add_assoc] using hsum (l :: pre) ((prefix_cons_inj l).mpr hpre)
    · intro pre l' hpre
      simpa [add_assoc] using hlen (l :: pre) l' ((prefix_cons_inj l).mpr hpre)
  · rintro ⟨hn, hl, hsum, hlen⟩
    refine ⟨fun pre hpre => ?_, fun pre l' hpre => ?_⟩
    · cases pre with
      | nil => exact hn
      | cons x pre =>
        obtain ⟨rfl, htail⟩ := cons_prefix_cons.mp hpre
        simpa [add_assoc] using hsum pre htail
    · cases pre with
      | nil =>
        obtain ⟨rfl, -⟩ := cons_prefix_cons.mp hpre
        exact hl
      | cons x pre =>
        obtain ⟨rfl, htail⟩ := cons_prefix_cons.mp hpre
        simpa [add_assoc] using hlen pre l' htail

theorem fitting_of_lt (h : traceRecordMaxSize < n) : Fitting n ls :=
  ⟨fun _ _ => by omega, fun _ _ _ hle => by omega⟩

theorem fits_nil_iff (hn : n ≤ traceRecordMaxSize) :
    n + fullSize [] < traceRecordMaxSize ↔ n ≠ traceRecordMaxSize := by
  rw [fullSize, map_nil, sum_nil, add_zero, Nat.lt_iff_le_and_ne, and_iff_right hn]

/-- **`account` keeps the sizes apart** exactly for the arguments that fit. -/
theorem account_fitting (hs : ∀ t ∈ tuple, t.arg.Sized) (h0 : 0 < n) (hn : n ≤ traceRecordMaxSize) :
    n + fullSize (kept (account tuple (traceRecordMaxSize - n) record).2) < traceRecordMaxSize
      ↔ Fitting n ((kept tuple).map fun t => t.arg.dataSize) := by
  induction tuple generalizing n record with
  | nil =>
    rw [show kept [] = [] from rfl, map_nil, fitting_nil]
    exact fits_nil_iff hn
  | cons t ts ih =>
    obtain ⟨ht, hts⟩ := forall_mem_cons.mp hs
    have hsize := argSize_eq ht
    rw [account]
    split
    swap
    · rename_i htype
      rw [kept_cons_of_none (not_not.mp htype), map_nil, fitting_nil]
      exact fits_nil_iff hn
    rename_i htype
    rw [kept_cons_of_ne htype, map_cons, fitting_cons]
    split
    · -- the argument is left out, with all behind it
      rename_i hlong
      rw [kept_cons_of_none rfl, fits_nil_iff hn]
      have hmod := Nat.mod_le (argHeaderSz + t.arg.dataSize) (2 ^ 16)
      refine (and_iff_left ⟨fun h => ?_, fitting_of_lt ?_⟩).symm <;> omega
    · rename_i hfits
      rw [kept_cons_of_ne htype, fullSize, map_cons, sum_cons, ← fullSize, ← add_assoc]
      by_cases hwrap : argHeaderSz + t.arg.dataSize < 2 ^ 16
      · rw [Nat.mod_eq_of_lt hwrap] at hsize ⊢
        have hlast : u16 (traceRecordMaxSize - n + 2 ^ 16 - t.arg.argSize)
            = traceRecordMaxSize - (n + (argHeaderSz + t.arg.dataSize)) := by
          simp only [u16, traceRecordMaxSize] at *
          omega
        have hle : n + (argHeaderSz + t.arg.dataSize) ≤ traceRecordMaxSize := by omega
        rw [hlast, ih hts (by omega) hle]
        have hne : n ≠ traceRecordMaxSize := by simp only [argHeaderSz] at hle; omega
        rw [and_iff_right hne, and_iff_right fun _ => hwrap]
      · refine iff_of_false (by simp only [traceRecordMaxSize]; omega) fun h => hwrap (h.2.1 (by omega))

theorem pdTraceWrite_tuple {reserve : ℕ → Option ℕ} {funcCode type line tid timestamp : ℕ}
    (h : pdTraceWrite reserve mem funcCode type line tid timestamp tuple = some w) :
    ∃ record, w.tuple
      = (account (tuple.take maxArgNum) (traceRecordMaxSize - recordHeaderSz) record).2 := by
  rw [pdTraceWrite] at h
  split at h
  · cases h
  · cases h
    exact ⟨_, rfl⟩

/-- The lengths that are passed, cast to 16 bits, of the first nine arguments up to one without a
type. -/
def lengths (args : List (ArgType × Mem × ℤ)) : List ℕ :=
  ((args.take maxArgNum).takeWhile fun a => a.1 ≠ .none).map fun a => (a.2.2 % 2 ^ 16).toNat

theorem dataSize_setDataSize (a : TraceArgument) {size : ℕ} (h : size < 2 ^ 16) :
    (a.setDataSize size).dataSize = size := by
  simp only [TraceArgument.setDataSize, TraceArgument.dataSize, u16, argHeaderSz]
  omega

theorem kept_ofData (args : List (ArgType × Mem × ℤ)) :
    (kept (args.map fun a => ArgTuple.ofData a.1 a.2.1 a.2.2)).map (fun t => t.arg.dataSize)
      = (args.takeWhile fun a => a.1 ≠ .none).map fun a => (a.2.2 % 2 ^ 16).toNat := by
  rw [kept, takeWhile_map, List.map_map]
  refine map_congr_left fun a _ => ?_
  have hlt : (a.2.2 % 2 ^ 16).toNat < 2 ^ 16 := by omega
  rw [Function.comp_apply, ArgTuple.ofData, dataSize_setDataSize _ hlt]

/-- **A record fills its reservation exactly when its arguments fit**, by the lengths that are
passed. -/
theorem record_filled_iff (reserve : ℕ → Option ℕ) (mem : Mem)
    (funcCode type line tid timestamp : ℕ) (args : List (ArgType × Mem × ℤ)) (w : Written)
    (h : pdTraceWrite reserve mem funcCode type line tid timestamp
      (args.map fun a => ArgTuple.ofData a.1 a.2.1 a.2.2) = some w) :
    Fills w ↔ Fitting recordHeaderSz (lengths args) := by
  have hsized : ∀ t ∈ args.map (fun a => ArgTuple.ofData a.1 a.2.1 a.2.2), t.arg.Sized := by
    intro t ht
    obtain ⟨a, _, rfl⟩ := List.mem_map.mp ht
    exact ofData_sized a.1 a.2.1 a.2.2
  obtain ⟨record, htuple⟩ := pdTraceWrite_tuple h
  rw [(pdTraceWrite_ok hsized h).fills_iff, htuple,
    account_fitting (fun t ht => hsized t (mem_of_mem_take ht)) (by decide) (by decide), ← map_take,
    kept_ofData, lengths]

/-- A record with an integer and a text of ten bytes. -/
theorem record_filled_two :
    ∃ w, pdTraceWrite (fun _ => some 0) (fun _ => 0) 0 0 0 0 0
        ([(.int, fun _ => 0, 4), (.string, fun _ => 65, 10)].map fun a =>
          ArgTuple.ofData a.1 a.2.1 a.2.2) = some w
      ∧ w.record.numArgs = 2 ∧ w.record.recordSize = 46 ∧ Fills w := by
  refine ⟨_, rfl, by decide, by decide, (record_filled_iff (fun _ => some 0) (fun _ => 0) 0 0 0 0 0
    [(.int, fun _ => 0, 4), (.string, fun _ => 65, 10)] _ rfl).mpr ?_⟩
  change Fitting recordHeaderSz [4, 10]
  simp only [fitting_cons, fitting_nil]
  decide

/-- Data of 65533 bytes counts as one byte with its header: 25 bytes are reserved, and 65561 are
copied. -/
theorem wrapped_argument_overruns :
    ∃ w, pdTraceWrite (fun _ => some 0) (fun _ => 0) 0 0 0 0 0
        [ArgTuple.ofData .raw (fun _ => 0) 65533] = some w
      ∧ w.record.recordSize = 25 ∧ recordHeaderSz + fullSize (kept w.tuple) = 65561
      ∧ ¬Fills w := by
  have hsized : ∀ t ∈ [ArgTuple.ofData .raw (fun _ => 0) 65533], t.arg.Sized :=
    forall_mem_singleton.mpr (ofData_sized _ _ _)
  have hw : pdTraceWrite (fun _ => some 0) (fun _ => 0) 0 0 0 0 0
      [ArgTuple.ofData .raw (fun _ => 0) 65533] = some _ := rfl
  exact ⟨_, hw, by decide, by decide, (pdTraceWrite_ok hsized hw).not_fills (by decide)⟩

end Novachains.Pd
