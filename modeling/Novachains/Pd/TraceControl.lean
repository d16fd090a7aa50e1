import Novachains.Pd.TraceAlloc
import Mathlib.Algebra.Order.BigOperators.Group.Finset

/-!
# Starting, stopping and dumping the trace

`pdTraceFunc` counts itself in `_currentWriter` and looks at `_traceStarted` before and after.
`start`, `stop`, `destroy` and `dump` exclude each other by `_metaOpr`; `stop` and `destroy` clear
`_traceStarted` and wait until nobody is counted.

Every read or write of a shared word is one step.  The bytes of the buffer are left out.  The
counter is a number without bound.
-/

namespace Novachains.Pd

open Lib Function

/-! ## The code -/

def roundUp (x n : ℕ) : ℕ := (x + n - 1) / n * n

/-- `_pdTraceHeader`, without the constant fields. -/
structure TraceHeader where
  bufSize : ℕ := 0
  bufHeader : ℕ := 0
  bufTail : ℕ := 0
  deriving DecidableEq, Repr

/-- The oldest chunk and the end of the last record. -/
def TraceHeader.savePosition (current bufSize : ℕ) : TraceHeader :=
  let tail := current % bufSize
  if current > bufSize then
    ⟨bufSize, (current + traceChunkSize - 1) / traceChunkSize * traceChunkSize % bufSize, tail⟩
  else ⟨roundUp tail traceChunkSize, 0, tail⟩

abbrev maxMonitoredThreadNum : ℕ := 10

/-- The shared words of `_pdTraceCB`; `allocated` says that `_pBuffer` has not been freed. -/
structure TraceCB where
  metaOpr : Bool := false
  traceStarted : Bool := false
  gIsTraceStarted : Bool := false
  currentWriter : ℤ := 0
  pBuffer : ℕ := 0
  allocated : Bool := false
  size : ℕ := 0
  componentMask : UInt32 := 0xFFFFFFFF
  nMonitoredNum : ℕ := 0
  monitoredThreads : ℕ → UInt32 := fun _ => 0
  header : TraceHeader := {}
  info : Alloc := .reset

def TraceCB.checkMask (cb : TraceCB) (funcCode : UInt64) : Bool :=
  (funcCode >>> 32).toUInt32 &&& cb.componentMask != 0

/-- The size of the buffer for an argument of `start`. -/
def bufferSize (size : ℕ) : ℕ := roundUp (min (max size 1) 1024 * (1024 * 1024)) traceChunkSize

/-- A call of `pdTraceFunc`: its code, its thread, the size of its record and how often it calls
`fillIn`. -/
structure TraceCall where
  funcCode : UInt64
  tid : UInt32
  recordSize : ℕ
  copies : ℕ

/-- The operation of `pdTraceFunc` that comes next. -/
inductive WriterPc
  | check
  | startWrite
  | check2
  | mask
  -- `checkThread`
  | threadNum
  | threadLoop (i : ℕ)
  | threadAt (i : ℕ)
  -- `reserveMemory`, its zero byte at the end of a chunk, and the address it returns
  | reserve (r : ReservePc)
  | padSize (r : ReservePc) (b : ℕ)
  | pad (r : ReservePc) (off : ℕ)
  | addrSize (b : ℕ)
  | addr (off : ℕ)
  | fillIn (p n : ℕ)
  | finishWrite
  | done

inductive ControlCall
  | start (size : ℕ) (mask : UInt32) (tids : List UInt32)
  | stop
  | destroy
  | dump

/-- The operation of `_reset` that comes next. -/
inductive ResetPc
  | started | gStarted | testBuffer | free | null | size | header | mask | num | tids
  | b1 | e1 | b2 | e2 | ptr | ptr2

inductive ControlPc
  | cas
  | check
  -- `stop` and `destroy`
  | clear | clearG | wait
  | reset (r : ResetPc)
  -- `_addTidFilter` for the threads that are left, and `_removeAllTidFilter`
  | addLoop (tids : List UInt32) (i : ℕ)
  | addAt (tid : UInt32) (tids : List UInt32) (i : ℕ)
  | addFull (tid : UInt32) (tids : List UInt32)
  | addIndex (tid : UInt32) (tids : List UInt32)
  | addSlot (tid : UInt32) (tids : List UInt32) (n : ℕ)
  | addRead (tids : List UInt32)
  | addInc (tids : List UInt32) (n : ℕ)
  | dropNum | dropTids
  -- the rest of `start`
  | setMask
  | setSize (size : ℕ)
  | setBuffer | testBuffer | setStarted | setStartedG
  -- `dump`
  | dumpBuffer | dumpSize | dumpPtr
  | dumpB (p : Info)
  | dumpPosition (b : ℕ)
  | dumpSave (b size : ℕ)
  | dumpTail | dumpHeader | dumpData
  | release

inductive TracePc
  | idle
  | writer (c : TraceCall) (w : WriterPc)
  | control (c : ControlCall) (k : ControlPc)

/-- A thread; `passed` is its second test, `starts` and `finishes` count `startWrite` and
`finishWrite`. -/
structure Tracer where
  pc : TracePc := .idle
  hasStarted : Bool := false
  passed : Bool := false
  starts : ℕ := 0
  finishes : ℕ := 0
  rc : Rc := .ok

variable (t : Tracer)

namespace Tracer

def goto (pc : TracePc) : Tracer := { t with pc := pc }

/-- Begin a call of `pdTraceFunc`. -/
def trace (c : TraceCall) : Tracer :=
  { t with pc := .writer c .check, hasStarted := false, passed := false, starts := 0, finishes := 0 }

def control (c : ControlCall) : Tracer := { t with pc := .control c .cas, rc := .ok }

/-- `reserveMemory` is called; it fails at once for a size over a chunk. -/
def reserve (c : TraceCall) : Tracer :=
  match ReservePc.enter c.recordSize with
  | .idle => t.goto (.writer c .done)
  | r => t.goto (.writer c (.reserve r))

/-- What follows an operation of `reserveMemory`. -/
def afterReserve (a : Alloc) (r : ReservePc) : WriterPc :=
  let x := r.next a
  match x.2.2 with
  | (b, _) :: _ => .addrSize b
  | [] =>
    match r with
    | .add _ p e =>
      if (a.pair p).b < e then .padSize x.2.1 (a.pair p).b else .reserve x.2.1
    | _ => .reserve x.2.1

/-- The next operation of `pdTraceFunc`. -/
def writerNext (c : TraceCall) (cb : TraceCB) (t : Tracer) : WriterPc → TraceCB × Tracer
  | .check => (cb, t.goto (if cb.traceStarted then .writer c .startWrite else .idle))
  | .startWrite =>
    ({ cb with currentWriter := cb.currentWriter + 1 },
      { t with pc := .writer c .check2, hasStarted := true, starts := t.starts + 1 })
  | .check2 =>
    if cb.traceStarted then (cb, { t with pc := .writer c .mask, passed := true })
    else (cb, t.goto (.writer c .done))
  | .mask => (cb, t.goto (.writer c (if cb.checkMask c.funcCode then .threadNum else .done)))
  | .threadNum => (cb, if cb.nMonitoredNum > 0 then t.goto (.writer c (.threadLoop 0)) else t.reserve c)
  | .threadLoop i => (cb, t.goto (.writer c (if i < cb.nMonitoredNum then .threadAt i else .done)))
  | .threadAt i =>
    (cb, if cb.monitoredThreads i = c.tid then t.reserve c
      else t.goto (.writer c (.threadLoop (i + 1))))
  | .reserve r =>
    ({ cb with info := (r.next cb.info).1 }, t.goto (.writer c (afterReserve cb.info r)))
  | .padSize r b => (cb, t.goto (.writer c (.pad r (b % cb.size))))
  | .pad r _ => (cb, t.goto (.writer c (.reserve r)))
  | .addrSize b => (cb, t.goto (.writer c (.addr (b % cb.size))))
  | .addr off =>
    (cb, t.goto (.writer c (if cb.pBuffer + off = 0 then .done
      else .fillIn (cb.pBuffer + off) c.copies)))
  | .fillIn _ 0 => (cb, t.goto (.writer c .finishWrite))
  | .fillIn p (n + 1) => (cb, t.goto (.writer c (.fillIn p n)))
  | .finishWrite =>
    ({ cb with currentWriter := cb.currentWriter - 1 },
      { t with pc := .writer c .done, hasStarted := false, finishes := t.finishes + 1 })
  | .done =>
    if t.hasStarted then
      ({ cb with currentWriter := cb.currentWriter - 1 },
        { t with pc := .idle, hasStarted := false, finishes := t.finishes + 1 })
    else (cb, t.goto .idle)

end Tracer

/-- The next operation of `_reset`, and the one after it. -/
def ResetPc.next (cb : TraceCB) : ResetPc → TraceCB × Option ResetPc
  | .started => ({ cb with traceStarted := false }, some .gStarted)
  | .gStarted => ({ cb with gIsTraceStarted := false }, some .testBuffer)
  | .testBuffer => (cb, some (if cb.pBuffer ≠ 0 then .free else .size))
  | .free => ({ cb with allocated := false }, some .null)
  | .null => ({ cb with pBuffer := 0 }, some .size)
  | .size => ({ cb with size := 0 }, some .header)
  | .header => ({ cb with header := {} }, some .mask)
  | .mask => ({ cb with componentMask := 0xFFFFFFFF }, some .num)
  | .num => ({ cb with nMonitoredNum := 0 }, some .tids)
  | .tids => ({ cb with monitoredThreads := fun _ => 0 }, some .b1)
  | .b1 => ({ cb with info := cb.info.setB .info1 0 }, some .e1)
  | .e1 => ({ cb with info := cb.info.setE .info1 traceChunkSize }, some .b2)
  | .b2 => ({ cb with info := cb.info.setB .info2 0 }, some .e2)
  | .e2 => ({ cb with info := cb.info.setE .info2 traceChunkSize }, some .ptr)
  | .ptr => ({ cb with info := { cb.info with ptr := .info1 } }, some .ptr2)
  | .ptr2 => ({ cb with info := { cb.info with ptr2 := .info2 } }, none)

namespace Tracer

def fail (c : ControlCall) (rc : Rc) : Tracer :=
  { t with pc := .control c .release, rc := rc }

/-- What a control call does under `_metaOpr` when it has looked at `_traceStarted`. -/
def checked (started : Bool) (t : Tracer) (c : ControlCall) : Tracer :=
  match c with
  | .start .. =>
    if started then t.fail c .pdTraceIsStarted else t.goto (.control c (.reset .started))
  | .stop => t.goto (.control c (if started then .clear else .release))
  | .destroy => t.goto (.control c (if started then .clear else .reset .started))
  | .dump => if started then t.fail c .pdTraceIsStarted else t.goto (.control c .dumpBuffer)

def waited (c : ControlCall) : Tracer :=
  match c with
  | .destroy => t.goto (.control c (.reset .started))
  | _ => t.goto (.control c .release)

def wasReset (c : ControlCall) : Tracer :=
  match c with
  | .start _ _ tids => t.goto (.control c (.addLoop tids 0))
  | _ => t.goto (.control c .release)

/-- The mask and the size that `start` was given. -/
def startArgs : ControlCall → UInt32 × ℕ
  | .start size mask _ => (mask, size)
  | _ => (0, 0)

/-- The next operation of a control call; `ev` is an address or whether the file was written. -/
def controlNext (ev : ℕ) (c : ControlCall) (cb : TraceCB) (t : Tracer) :
    ControlPc → TraceCB × Tracer
  | .cas =>
    if cb.metaOpr then (cb, t) else ({ cb with metaOpr := true }, t.goto (.control c .check))
  | .check => (cb, t.checked cb.traceStarted c)
  | .clear => ({ cb with traceStarted := false }, t.goto (.control c .clearG))
  | .clearG => ({ cb with gIsTraceStarted := false }, t.goto (.control c .wait))
  | .wait => (cb, if cb.currentWriter = 0 then t.waited c else t)
  | .reset r =>
    match r.next cb with
    | (cb', some r') => (cb', t.goto (.control c (.reset r')))
    | (cb', none) => (cb', t.wasReset c)
  | .addLoop [] _ => (cb, t.goto (.control c .setMask))
  | .addLoop (tid :: tids) i =>
    (cb, t.goto (.control c (if i < cb.nMonitoredNum then .addAt tid tids i else .addFull tid tids)))
  | .addAt tid tids i =>
    (cb, t.goto (.control c (if tid = cb.monitoredThreads i then .addLoop tids 0
      else .addLoop (tid :: tids) (i + 1))))
  | .addFull tid tids =>
    if cb.nMonitoredNum ≥ maxMonitoredThreadNum then
      (cb, { t with pc := .control c .dropNum, rc := .invalidArg })
    else (cb, t.goto (.control c (.addIndex tid tids)))
  | .addIndex tid tids => (cb, t.goto (.control c (.addSlot tid tids cb.nMonitoredNum)))
  | .addSlot tid tids n =>
    ({ cb with monitoredThreads := update cb.monitoredThreads n tid },
      t.goto (.control c (.addRead tids)))
  | .addRead tids => (cb, t.goto (.control c (.addInc tids cb.nMonitoredNum)))
  | .addInc tids n => ({ cb with nMonitoredNum := n + 1 }, t.goto (.control c (.addLoop tids 0)))
  | .dropNum => ({ cb with nMonitoredNum := 0 }, t.goto (.control c .dropTids))
  | .dropTids => ({ cb with monitoredThreads := fun _ => 0 }, t.goto (.control c .release))
  | .setMask =>
    ({ cb with componentMask := (startArgs c).1 },
      t.goto (.control c (.setSize (bufferSize (startArgs c).2))))
  | .setSize size => ({ cb with size := size }, t.goto (.control c .setBuffer))
  | .setBuffer =>
    ({ cb with pBuffer := ev, allocated := ev ≠ 0 }, t.goto (.control c .testBuffer))
  | .testBuffer =>
    (cb, if cb.pBuffer = 0 then t.fail c .oom else t.goto (.control c .setStarted))
  | .setStarted => ({ cb with traceStarted := true }, t.goto (.control c .setStartedG))
  | .setStartedG => ({ cb with gIsTraceStarted := true }, t.goto (.control c .release))
  | .dumpBuffer =>
    (cb, if cb.pBuffer = 0 then t.fail c .pdTraceHasNoBuffer else t.goto (.control c .dumpSize))
  | .dumpSize =>
    (cb, if cb.size = 0 then t.fail c .pdTraceHasNoBuffer else t.goto (.control c .dumpPtr))
  | .dumpPtr => (cb, t.goto (.control c (.dumpB cb.info.ptr)))
  | .dumpB p => (cb, t.goto (.control c (.dumpPosition (cb.info.pair p).b)))
  | .dumpPosition b => (cb, t.goto (.control c (.dumpSave b cb.size)))
  | .dumpSave b size => ({ cb with header := .savePosition b size }, t.goto (.control c .dumpTail))
  | .dumpTail => (cb, t.goto (.control c .dumpHeader))
  | .dumpHeader => (cb, if ev = 0 then t.fail c .io else t.goto (.control c .dumpData))
  | .dumpData => (cb, if ev = 0 then t.fail c .io else t.goto (.control c .release))
  | .release => ({ cb with metaOpr := false }, t.goto .idle)

def next (ev : ℕ) (cb : TraceCB) (t : Tracer) : TraceCB × Tracer :=
  match t.pc with
  | .idle => (cb, t)
  | .writer c w => t.writerNext c cb w
  | .control c k => t.controlNext ev c cb k

end Tracer

structure TraceState (T : Type) where
  cb : TraceCB
  thread : T → Tracer

namespace TraceState
variable {T : Type} [DecidableEq T]

def set (s : TraceState T) (cb : TraceCB) (t : T) (x : Tracer) : TraceState T :=
  ⟨cb, update s.thread t x⟩

def run (ev : ℕ) (s : TraceState T) (t : T) : TraceState T :=
  let x := (s.thread t).next ev s.cb
  s.set x.1 t x.2

end TraceState

def TracePc.isIdle : TracePc → Bool
  | .idle => true
  | _ => false

inductive TraceStep {T : Type} [DecidableEq T] : TraceState T → TraceState T → Prop
  | trace (s : TraceState T) (t : T) (c : TraceCall) : (s.thread t).pc.isIdle →
      TraceStep s (s.set s.cb t ((s.thread t).trace c))
  | control (s : TraceState T) (t : T) (c : ControlCall) : (s.thread t).pc.isIdle →
      TraceStep s (s.set s.cb t ((s.thread t).control c))
  | run (s : TraceState T) (t : T) (ev : ℕ) : TraceStep s (s.run ev t)

def traceSystem (T : Type) [DecidableEq T] : System (TraceState T) where
  init s := s = ⟨{}, fun _ => {}⟩
  step := TraceStep

def TracePc.inTraceFunc : TracePc → Bool
  | .writer .. => true
  | _ => false

/-- The thread is in the part of `dump` that writes the file. -/
def TracePc.dumping : TracePc → Bool
  | .control _ k =>
    match k with
    | .dumpPtr | .dumpB _ | .dumpPosition _ | .dumpSave .. | .dumpTail | .dumpHeader => true
    | .dumpData => true
    | _ => false
  | _ => false

/-- The thread is between a second test that answered true and its `finishWrite`. -/
def Tracer.active : Bool := t.passed && t.hasStarted

structure SameBuffer (cb cb' : TraceCB) : Prop where
  pBuffer : cb'.pBuffer = cb.pBuffer
  allocated : cb'.allocated = cb.allocated
  size : cb'.size = cb.size

/-- **What the control calls promise.**  A writer keeps its buffer and meets no dump; `finishWrite`
follows `startWrite` once; at rest the counter is 0. -/
structure ControlSafe {T : Type} [DecidableEq T] (s : TraceState T) : Prop where
  buffer : ∀ t s', (s.thread t).active = true → TraceStep s s' → SameBuffer s.cb s'.cb
  dump : ∀ t u, (s.thread t).active = true → (s.thread u).pc.dumping = false
  once : ∀ t, (s.thread t).starts ≤ 1 ∧ (s.thread t).finishes ≤ (s.thread t).starts
    ∧ ((s.thread t).pc.inTraceFunc = false → (s.thread t).finishes = (s.thread t).starts)
  at_rest : (∀ t, (s.thread t).pc.inTraceFunc = false) → s.cb.currentWriter = 0

/-! ## One step -/

/-- A thread has nothing to do with the trace, has set `_metaOpr`, waits for the writers, or is
alone. -/
inductive Phase
  | out | held | waits | quiet
  deriving DecidableEq

def ControlPc.phase : ControlPc → Phase
  | .cas => .out
  | .check | .clear | .setStartedG | .release => .held
  | .clearG | .wait => .waits
  | _ => .quiet

def TracePc.phase : TracePc → Phase
  | .control _ k => k.phase
  | _ => .out

/-- The thread has set `_metaOpr`. -/
def Phase.holds (p : Phase) : Bool := p != .out

theorem TracePc.quiet_of_dumping {pc : TracePc} (h : pc.dumping = true) : pc.phase = .quiet := by
  cases pc with
  | idle | writer => cases h
  | control c k => cases k <;> first | rfl | cases h

structure Leaves (cb cb' : TraceCB) : Prop where
  metaOpr : cb'.metaOpr = cb.metaOpr
  traceStarted : cb'.traceStarted = cb.traceStarted
  buffer : SameBuffer cb cb'

theorem leaves_rfl (cb : TraceCB) : Leaves cb cb := ⟨rfl, rfl, rfl, rfl, rfl⟩

/-- How a thread goes from phase to phase: the trace is cleared by a thread that then waits and set
by a quiet one, and only that touches the buffer. -/
inductive Turn (cb : TraceCB) : Phase → TraceCB → Phase → Prop
  | leave {cb' : TraceCB} (p : Phase) (hcb : Leaves cb cb') : Turn cb p cb' p
  | take (hfree : cb.metaOpr = false) : Turn cb .out { cb with metaOpr := true } .held
  | off (hoff : cb.traceStarted = false) : Turn cb .held cb .quiet
  | clear : Turn cb .held { cb with traceStarted := false } .waits
  | waited (hzero : cb.currentWriter = 0) {p : Phase} (hp : p = .held ∨ p = .quiet) :
      Turn cb .waits cb p
  | work {cb' : TraceCB} (hmeta : cb'.metaOpr = cb.metaOpr)
      (hoff : cb.traceStarted = false → cb'.traceStarted = false) : Turn cb .quiet cb' .quiet
  | ends {cb' : TraceCB} (hmeta : cb'.metaOpr = cb.metaOpr) : Turn cb .quiet cb' .held
  | release : Turn cb .held { cb with metaOpr := false } .out

namespace Turn
variable {cb cb' : TraceCB} {p p' : Phase}

section
variable (h : Turn cb p cb' p')
include h

theorem raised (hon : cb'.traceStarted = true) :
    cb.traceStarted = true ∨ p = .quiet := by
  cases h with
  | leave p hcb => exact .inl (hcb.traceStarted.symm.trans hon)
  | clear => cases hon
  | work | ends => exact .inr rfl
  | take | off | waited | release => exact .inl hon

theorem dropped (hon : cb.traceStarted = true) :
    cb'.traceStarted = true ∨ p' = .waits ∨ p = .quiet := by
  cases h with
  | leave p hcb => exact .inl (hcb.traceStarted.trans hon)
  | clear => exact .inr (.inl rfl)
  | work | ends => exact .inr (.inr rfl)
  | take | off | waited | release => exact .inl hon

theorem still_waits (hp : p = .waits) :
    p' = .waits ∨ cb.currentWriter = 0 := by
  cases h with
  | leave => exact .inl hp
  | waited hzero => exact .inr hzero
  | take | off | clear | work | ends | release => cases hp

theorem stays_off (hoff : p = .quiet ∨ p = .waits → cb.traceStarted = false)
    (hp' : p' = .quiet ∨ p' = .waits) : cb'.traceStarted = false := by
  cases h with
  | leave p hcb => exact hcb.traceStarted.trans (hoff hp')
  | off h => exact h
  | clear => rfl
  | waited => exact hoff (.inr rfl)
  | work _ h => exact h (hoff (.inl rfl))
  | take | ends | release => simp at hp'

theorem buffer : p = .quiet ∨ SameBuffer cb cb' := by
  cases h with
  | leave p hcb => exact .inr hcb.buffer
  | work | ends => exact .inl rfl
  | take | off | clear | waited | release => exact .inr ⟨rfl, rfl, rfl⟩

theorem takes (hmeta : p.holds = true → cb.metaOpr = true)
    (hp' : p'.holds = true) : cb'.metaOpr = true ∧ (p.holds = true ∨ cb.metaOpr = false) := by
  cases h with
  | leave p hcb => exact ⟨hcb.metaOpr.trans (hmeta hp'), .inl hp'⟩
  | take hfree => exact ⟨rfl, .inr hfree⟩
  | release => cases hp'
  | work h | ends h => exact ⟨h.trans (hmeta rfl), .inl rfl⟩
  | off | clear | waited => exact ⟨hmeta rfl, .inl rfl⟩

theorem keeps (hp : p.holds = false) (hmeta : cb.metaOpr = true) :
    cb'.metaOpr = true := by
  cases h with
  | leave _ hcb => exact hcb.metaOpr.trans hmeta
  | take => rfl
  | off | clear | waited | work | ends | release => cases hp

end

end Turn

namespace Tracer

def count (t : Tracer) : ℕ := t.hasStarted.toNat

/-- The call has executed `startWrite` and not yet `finishWrite`. -/
def Counted (t : Tracer) : Prop := t.hasStarted = true ∧ t.starts = 1 ∧ t.finishes = 0

def Balanced (t : Tracer) : Prop :=
  t.hasStarted = false ∧ t.starts ≤ 1 ∧ t.finishes = t.starts

/-- The call has executed of `startWrite` and `finishWrite` what its place says. -/
def Settled (t : Tracer) : Prop :=
  match t.pc with
  | .writer _ .check | .writer _ .startWrite =>
    t.hasStarted = false ∧ t.starts = 0 ∧ t.finishes = 0 ∧ t.passed = false
  | .writer _ .done => t.Counted ∨ t.Balanced
  | .writer _ _ => t.Counted
  | _ => t.Balanced

/-- **One step of a thread**: a writer becomes active only while the trace is on. -/
structure Moves (cb : TraceCB) (t : Tracer) (cb' : TraceCB) (t' : Tracer) : Prop where
  turn : Turn cb t.pc.phase cb' t'.pc.phase
  counter : cb'.currentWriter + t.count = cb.currentWriter + t'.count
  active : t'.active = true →
    t.active = true ∨ cb.traceStarted = true ∧ cb'.traceStarted = true
  settled : t'.Settled

variable {cb cb' : TraceCB} {t t' : Tracer}

theorem Moves.stay (ht : t.Settled) : Moves cb t cb t :=
  ⟨.leave _ (leaves_rfl cb), rfl, .inl, ht⟩

/-! ### In `pdTraceFunc` -/

variable {c : TraceCall} {w : WriterPc}

theorem Moves.ofGoto (hpc : t.pc = .writer c w) {pc : TracePc} (hpc' : pc.phase = .out)
    (hcb : Leaves cb cb') (hcount : cb'.currentWriter = cb.currentWriter)
    (hsettled : (t.goto pc).Settled) : Moves cb t cb' (t.goto pc) := by
  refine ⟨?_, by rw [hcount]; rfl, .inl, hsettled⟩
  rw [hpc]
  exact (hpc' ▸ .leave .out hcb : Turn cb .out cb' pc.phase)

/-- A step that changes the counter, or passes the second test. -/
theorem Moves.ofWriter (hpc : t.pc = .writer c w) (hpc' : t'.pc.phase = .out) (hcb : Leaves cb cb')
    (hcounter : cb'.currentWriter + t.count = cb.currentWriter + t'.count)
    (hactive : t'.active = true → cb.traceStarted = true) (hsettled : t'.Settled) :
    Moves cb t cb' t' := by
  refine ⟨?_, hcounter, fun h => .inr ⟨hactive h, hcb.traceStarted.trans (hactive h)⟩, hsettled⟩
  rw [hpc, hpc']
  exact .leave .out hcb

theorem reserve_moves (hpc : t.pc = .writer c w) (ht : t.Counted) :
    Moves cb t cb (t.reserve c) := by
  rw [reserve]
  split
  · exact .ofGoto hpc rfl (leaves_rfl cb) rfl (.inl ht)
  · exact .ofGoto hpc rfl (leaves_rfl cb) rfl ht

theorem afterReserve_settled (c : TraceCall) (a : Alloc) (r : ReservePc) (ht : t.Counted) :
    (t.goto (.writer c (afterReserve a r))).Settled := by
  unfold afterReserve
  dsimp only
  split
  · exact ht
  · split
    · split <;> exact ht
    · exact ht

theorem writerNext_moves (hpc : t.pc = .writer c w) (ht : t.Settled) :
    Moves cb t (t.writerNext c cb w).1 (t.writerNext c cb w).2 := by
  have hcb := leaves_rfl cb
  rw [Settled, hpc] at ht
  cases w with
  | check =>
    rw [writerNext]
    split
    · exact .ofGoto hpc rfl hcb rfl ht
    · obtain ⟨hoff, hstarts, hfinishes, _⟩ := ht
      exact .ofGoto hpc rfl hcb rfl ⟨hoff, by simp [goto, hstarts],
        by simp [goto, hstarts, hfinishes]⟩
  | startWrite =>
    obtain ⟨hoff, hstarts, hfinishes, hpassed⟩ := ht
    refine .ofWriter hpc rfl ⟨rfl, rfl, rfl, rfl, rfl⟩ ?_ ?_ ?_
    · simp [writerNext, count, hoff]
    · simp [writerNext, active, hpassed]
    · exact ⟨rfl, by simp [writerNext, hstarts], hfinishes⟩
  | check2 =>
    rw [writerNext]
    split
    · rename_i hon
      exact .ofWriter hpc rfl hcb rfl (fun _ => hon) ht
    · exact .ofGoto hpc rfl hcb rfl (.inl ht)
  | mask =>
    rw [writerNext]
    split
    · exact .ofGoto hpc rfl hcb rfl ht
    · exact .ofGoto hpc rfl hcb rfl (.inl ht)
  | threadNum =>
    rw [writerNext]
    split
    · exact .ofGoto hpc rfl hcb rfl ht
    · exact reserve_moves hpc ht
  | threadLoop i =>
    rw [writerNext]
    split
    · exact .ofGoto hpc rfl hcb rfl ht
    · exact .ofGoto hpc rfl hcb rfl (.inl ht)
  | threadAt i =>
    rw [writerNext]
    split
    · exact reserve_moves hpc ht
    · exact .ofGoto hpc rfl hcb rfl ht
  | reserve r =>
    exact .ofGoto hpc rfl ⟨rfl, rfl, rfl, rfl, rfl⟩ rfl (afterReserve_settled c cb.info r ht)
  | padSize r b => exact .ofGoto hpc rfl hcb rfl ht
  | pad r off => exact .ofGoto hpc rfl hcb rfl ht
  | addrSize b => exact .ofGoto hpc rfl hcb rfl ht
  | addr off =>
    rw [writerNext]
    split
    · exact .ofGoto hpc rfl hcb rfl (.inl ht)
    · exact .ofGoto hpc rfl hcb rfl ht
  | fillIn p n =>
    cases n with
    | zero => exact .ofGoto hpc rfl hcb rfl ht
    | succ n => exact .ofGoto hpc rfl hcb rfl ht
  | finishWrite =>
    obtain ⟨hon, hstarts, hfinishes⟩ := ht
    refine .ofWriter hpc rfl ⟨rfl, rfl, rfl, rfl, rfl⟩ ?_ ?_ ?_
    · simp [writerNext, count, hon]
    · simp [writerNext, active]
    · exact .inr ⟨rfl, by simp [writerNext, hstarts], by simp [writerNext, hstarts, hfinishes]⟩
  | done =>
    rw [writerNext]
    split
    · rename_i hon
      obtain ⟨_, hstarts, hfinishes⟩ | hbal := ht
      · refine .ofWriter hpc rfl ⟨rfl, rfl, rfl, rfl, rfl⟩ ?_ ?_ ?_
        · simp [count, hon]
        · simp [active]
        · exact ⟨rfl, by simp [hstarts], by simp [hstarts, hfinishes]⟩
      · cases hbal.1.symm.trans hon
    · rename_i hoff
      obtain hcounted | hbal := ht
      · exact absurd hcounted.1 hoff
      · exact .ofGoto hpc rfl hcb rfl hbal

/-! ### In a control call -/

variable {c : ControlCall} {k : ControlPc}

theorem Moves.ofControl (pc : TracePc) (rc : Rc) (hpc : t.pc = .control c k)
    (ht : t.Balanced) (hpc' : pc.inTraceFunc = false)
    (hcount : cb'.currentWriter = cb.currentWriter) (hturn : Turn cb k.phase cb' pc.phase) :
    Moves cb t cb' { t with pc := pc, rc := rc } := by
  refine ⟨?_, by rw [hcount]; rfl, .inl, ?_⟩
  · rw [hpc]
    exact hturn
  · cases pc with
    | idle | control => exact ht
    | writer => cases hpc'.symm

theorem reset_off (r : ResetPc) (cb : TraceCB) :
    (r.next cb).1.metaOpr = cb.metaOpr ∧ (r.next cb).1.currentWriter = cb.currentWriter
      ∧ (cb.traceStarted = false → (r.next cb).1.traceStarted = false) := by
  cases r <;> exact ⟨rfl, rfl, by simp [ResetPc.next]⟩

theorem reset_moves (ev : ℕ) {r : ResetPc} (hpc : t.pc = .control c (.reset r))
    (ht : t.Balanced) :
    Moves cb t (t.controlNext ev c cb (.reset r)).1 (t.controlNext ev c cb (.reset r)).2 := by
  obtain ⟨hmeta, hcount, hoff⟩ := reset_off r cb
  rw [controlNext]
  split
  · rename_i cb' r' hnext
    rw [hnext] at hmeta hcount hoff
    exact .ofControl _ t.rc hpc ht rfl hcount (.work hmeta hoff)
  · rename_i cb' hnext
    rw [hnext] at hmeta hcount hoff
    cases c with
    | start => exact .ofControl _ t.rc hpc ht rfl hcount (.work hmeta hoff)
    | stop | destroy | dump => exact .ofControl _ t.rc hpc ht rfl hcount (.ends hmeta)

theorem checked_moves (hpc : t.pc = .control c .check) (ht : t.Balanced) :
    Moves cb t cb (t.checked cb.traceStarted c) := by
  have hgo (k' : ControlPc) (rc : Rc) (hturn : Turn cb .held cb k'.phase) :
      Moves cb t cb { t with pc := .control c k', rc := rc } :=
    .ofControl _ rc hpc ht rfl rfl hturn
  have hheld : Turn cb .held cb .held := .leave _ (leaves_rfl cb)
  cases hon : cb.traceStarted with
  | true =>
    cases c with
    | start | dump => exact hgo .release _ hheld
    | stop | destroy => exact hgo .clear t.rc hheld
  | false =>
    cases c with
    | start | destroy => exact hgo (.reset .started) t.rc (.off hon)
    | stop => exact hgo .release t.rc hheld
    | dump => exact hgo .dumpBuffer t.rc (.off hon)

theorem waited_moves (hpc : t.pc = .control c .wait) (ht : t.Balanced)
    (hzero : cb.currentWriter = 0) : Moves cb t cb (t.waited c) := by
  cases c with
  | destroy => exact .ofControl _ t.rc hpc ht rfl rfl (.waited hzero (.inr rfl))
  | start | stop | dump => exact .ofControl _ t.rc hpc ht rfl rfl (.waited hzero (.inl rfl))

theorem controlNext_moves (ev : ℕ) (hpc : t.pc = .control c k) (ht : t.Settled) :
    Moves cb t (t.controlNext ev c cb k).1 (t.controlNext ev c cb k).2 := by
  have hbal : t.Balanced := by rwa [Settled, hpc] at ht
  have hwork : Turn cb .quiet cb .quiet := .work rfl id
  cases k with
  | cas =>
    rw [controlNext]
    split
    · exact .stay ht
    · rename_i hbusy
      exact .ofControl _ t.rc hpc hbal rfl rfl (.take (by simpa using hbusy))
  | check => exact checked_moves hpc hbal
  | clear => exact .ofControl _ t.rc hpc hbal rfl rfl .clear
  | clearG | setStartedG =>
    exact .ofControl _ t.rc hpc hbal rfl rfl (.leave _ ⟨rfl, rfl, rfl, rfl, rfl⟩)
  | wait =>
    rw [controlNext]
    split
    · rename_i hzero
      exact waited_moves hpc hbal hzero
    · exact .stay ht
  | release => exact .ofControl _ t.rc hpc hbal rfl rfl .release
  | reset r => exact reset_moves ev hpc hbal
  | addLoop tids i =>
    cases tids with
    | nil => exact .ofControl _ t.rc hpc hbal rfl rfl hwork
    | cons tid tids =>
      rw [controlNext]
      split <;> exact .ofControl _ t.rc hpc hbal rfl rfl hwork
  | addAt tid tids i =>
    rw [controlNext]
    split <;> exact .ofControl _ t.rc hpc hbal rfl rfl hwork
  | addFull tid tids =>
    rw [controlNext]
    split
    · exact .ofControl _ .invalidArg hpc hbal rfl rfl hwork
    · exact .ofControl _ t.rc hpc hbal rfl rfl hwork
  | testBuffer | dumpBuffer | dumpSize | dumpHeader =>
    rw [controlNext]
    split
    · exact .ofControl _ _ hpc hbal rfl rfl (.ends rfl)
    · exact .ofControl _ t.rc hpc hbal rfl rfl hwork
  | dumpData =>
    rw [controlNext]
    split <;> exact .ofControl _ _ hpc hbal rfl rfl (.ends rfl)
  | dropTids | setStarted => exact .ofControl _ t.rc hpc hbal rfl rfl (.ends rfl)
  | _ => exact .ofControl _ t.rc hpc hbal rfl rfl (.work rfl id)

theorem next_moves (ev : ℕ) (ht : t.Settled) : Moves cb t (t.next ev cb).1 (t.next ev cb).2 := by
  unfold next
  split
  · exact .stay ht
  · rename_i c w hpc
    exact writerNext_moves hpc ht
  · rename_i c k hpc
    exact controlNext_moves ev hpc ht

theorem isIdle_iff {pc : TracePc} : pc.isIdle = true ↔ pc = .idle := by
  cases pc <;> simp [TracePc.isIdle]

theorem balanced_of_isIdle (ht : t.Settled) (hidle : t.pc.isIdle = true) : t.Balanced := by
  rwa [Settled, isIdle_iff.mp hidle] at ht

theorem balanced_of_settled (ht : t.Settled) (hout : t.pc.inTraceFunc = false) : t.Balanced := by
  unfold Settled at ht
  generalize t.pc = pc at ht hout
  cases pc with
  | idle | control => exact ht
  | writer => cases hout.symm

theorem Counted.once (ht : t.Counted) : t.starts ≤ 1 ∧ t.finishes ≤ t.starts := by
  obtain ⟨_, hstarts, hfinishes⟩ := ht
  omega

theorem Balanced.once (ht : t.Balanced) : t.starts ≤ 1 ∧ t.finishes ≤ t.starts := by
  obtain ⟨_, hstarts, hfinishes⟩ := ht
  omega

theorem once_of_settled (ht : t.Settled) : t.starts ≤ 1 ∧ t.finishes ≤ t.starts := by
  unfold Settled at ht
  split at ht
  · omega
  · omega
  · exact ht.elim Counted.once Balanced.once
  · exact ht.once
  · exact ht.once

theorem trace_moves (c : TraceCall) (ht : t.Settled) (hidle : t.pc.isIdle = true) :
    Moves cb t cb (t.trace c) := by
  have hbal := balanced_of_isIdle ht hidle
  refine ⟨?_, by simp [count, trace, hbal.1], by simp [active, trace], ⟨rfl, rfl, rfl, rfl⟩⟩
  rw [isIdle_iff.mp hidle]
  exact .leave .out (leaves_rfl cb)

theorem control_moves (c : ControlCall) (ht : t.Settled) (hidle : t.pc.isIdle = true) :
    Moves cb t cb (t.control c) := by
  have hbal := balanced_of_isIdle ht hidle
  refine ⟨?_, rfl, .inl, hbal⟩
  rw [isIdle_iff.mp hidle]
  exact .leave .out (leaves_rfl cb)

end Tracer

section Runs
variable {T : Type} [Fintype T] {s : TraceState T}

/-- **The invariant.**  An active writer has the trace on, or somebody waits for it. -/
structure TraceInv (s : TraceState T) : Prop where
  counter : s.cb.currentWriter = (∑ t, (s.thread t).count : ℕ)
  guard : Guarded (fun t : Tracer => t.pc.phase.holds) s.cb.metaOpr s.thread
  off : ∀ t, (s.thread t).pc.phase = .quiet ∨ (s.thread t).pc.phase = .waits →
    s.cb.traceStarted = false
  active : ∀ t, (s.thread t).active = true →
    s.cb.traceStarted = true ∨ ∃ u, (s.thread u).pc.phase = .waits
  settled : ∀ t, (s.thread t).Settled

namespace TraceInv

variable {t : T}

theorem counter_ne_zero (h : TraceInv s) (ht : (s.thread t).active = true) :
    s.cb.currentWriter ≠ 0 := by
  have hcount : (s.thread t).count = 1 := by
    rw [Tracer.active, Bool.and_eq_true] at ht
    rw [Tracer.count, ht.2]
    rfl
  have hle : (s.thread t).count ≤ ∑ u, (s.thread u).count :=
    Finset.single_le_sum (f := fun u => (s.thread u).count) (fun _ _ => Nat.zero_le _)
      (Finset.mem_univ t)
  have hcounter := h.counter
  omega

theorem not_active_of_quiet (h : TraceInv s) {u : T} (hu : (s.thread u).pc.phase = .quiet)
    (t : T) : (s.thread t).active = false := by
  refine Bool.eq_false_iff.mpr ?_
  intro ht
  obtain hon | ⟨v, hv⟩ := h.active t ht
  · cases (h.off u (.inl hu)).symm.trans hon
  · -- the thread that waits would be the quiet one
    obtain rfl := h.guard.alone u v (congrArg Phase.holds hu) (congrArg Phase.holds hv)
    cases hu.symm.trans hv

variable [DecidableEq T]

theorem active_step (h : TraceInv s) {cb' : TraceCB} {x : Tracer}
    (hm : Tracer.Moves s.cb (s.thread t) cb' x) {u : T} (hu : (s.thread u).active = true) :
    cb'.traceStarted = true ∨ ∃ v, (update s.thread t x v).pc.phase = .waits := by
  obtain hon | ⟨v, hv⟩ := h.active u hu
  · obtain hon' | hwait | hquiet := hm.turn.dropped hon
    · exact .inl hon'
    · exact .inr ⟨t, by rwa [update_self]⟩
    · cases (h.off t (.inl hquiet)).symm.trans hon
  · by_cases hvt : v = t
    · subst hvt
      -- the wait does not end while the writer is in the counter
      obtain hwait | hzero := hm.turn.still_waits hv
      · exact .inr ⟨v, by rwa [update_self]⟩
      · exact absurd hzero (h.counter_ne_zero hu)
    · exact .inr ⟨v, by rwa [update_of_ne hvt]⟩

theorem moves (h : TraceInv s) {cb' : TraceCB} {x : Tracer}
    (hm : Tracer.Moves s.cb (s.thread t) cb' x) : TraceInv (s.set cb' t x) where
  counter := by
    have hsum := sum_update_add Tracer.count s.thread t x
    have hcounter := hm.counter
    rw [h.counter] at hcounter
    simp only [TraceState.set]
    omega
  guard := h.guard.update (hm.turn.takes (h.guard.locked t)) hm.turn.keeps
  off := by
    intro u hu
    by_cases hut : u = t
    · simp only [TraceState.set, hut, update_self] at hu
      exact hm.turn.stays_off (h.off t) hu
    simp only [TraceState.set, update_of_ne hut] at hu
    refine Bool.eq_false_iff.mpr ?_
    intro hon'
    obtain hon | hquiet := hm.turn.raised hon'
    · cases (h.off u hu).symm.trans hon
    · -- both would have `_metaOpr`
      have huholds := hu.elim (congrArg Phase.holds) (congrArg Phase.holds)
      exact hut (h.guard.alone u t huholds (congrArg Phase.holds hquiet))
  active := by
    intro u hu
    by_cases hut : u = t
    · simp only [TraceState.set, hut, update_self] at hu
      obtain hact | ⟨_, hon'⟩ := hm.active hu
      · exact h.active_step hm hact
      · exact .inl hon'
    · simp only [TraceState.set, update_of_ne hut] at hu
      exact h.active_step hm hu
  settled := by
    intro u
    by_cases hut : u = t
    · simp only [TraceState.set, hut, update_self]
      exact hm.settled
    · simp only [TraceState.set, update_of_ne hut]
      exact h.settled u

theorem exists_moves (h : TraceInv s) {s' : TraceState T} (hstep : TraceStep s s') :
    ∃ t x, Tracer.Moves s.cb (s.thread t) s'.cb x ∧ s' = s.set s'.cb t x := by
  cases hstep with
  | trace t c hidle => exact ⟨t, _, Tracer.trace_moves c (h.settled t) hidle, rfl⟩
  | control t c hidle => exact ⟨t, _, Tracer.control_moves c (h.settled t) hidle, rfl⟩
  | run t ev => exact ⟨t, _, Tracer.next_moves ev (h.settled t), rfl⟩

omit [DecidableEq T] in
theorem at_rest (h : TraceInv s) (hrest : ∀ t, (s.thread t).pc.inTraceFunc = false) :
    s.cb.currentWriter = 0 := by
  have hcount : ∀ t, (s.thread t).count = 0 := by
    intro t
    rw [Tracer.count, (Tracer.balanced_of_settled (h.settled t) (hrest t)).1]
    rfl
  rw [h.counter]
  simp [hcount]

theorem controlSafe (h : TraceInv s) : ControlSafe s where
  buffer := by
    intro t s' hact hstep
    obtain ⟨u, x, hm, _⟩ := h.exists_moves hstep
    obtain hquiet | hsame := hm.turn.buffer
    · cases (h.not_active_of_quiet hquiet t).symm.trans hact
    · exact hsame
  dump := by
    intro t u hact
    refine Bool.eq_false_iff.mpr ?_
    intro hdump
    have hidle := h.not_active_of_quiet (TracePc.quiet_of_dumping hdump) t
    cases hidle.symm.trans hact
  once := by
    intro t
    obtain ⟨hstarts, hfinishes⟩ := Tracer.once_of_settled (h.settled t)
    exact ⟨hstarts, hfinishes, fun hout => (Tracer.balanced_of_settled (h.settled t) hout).2.2⟩
  at_rest := h.at_rest

end TraceInv

theorem trace_invariant [DecidableEq T] : (traceSystem T).Invariant TraceInv where
  init := by
    intro s hs
    subst hs
    refine ⟨by simp [Tracer.count], .of_forall_outside fun _ => rfl, ?_, ?_, ?_⟩
    · intro _ _
      rfl
    · intro _ h
      cases h
    · intro _
      exact ⟨rfl, Nat.zero_le _, rfl⟩
  step := by
    intro s s' h hstep
    obtain ⟨t, x, hm, hs'⟩ := h.exists_moves hstep
    rw [hs']
    exact h.moves hm

/-- **Nobody takes the buffer from a writer**, in every run of any number of threads. -/
theorem control_safe [DecidableEq T] (h : (traceSystem T).Reachable s) : ControlSafe s :=
  (trace_invariant.reachable h).controlSafe

end Runs

/-- One thread starts the trace, another is in `pdTraceFunc`, and the first waits in `destroy`. -/
theorem control_safe_waiting : ∃ s : TraceState Bool, (traceSystem Bool).Reachable s
    ∧ (s.thread false).active = true ∧ (s.thread true).pc = .control .destroy .wait
    ∧ ControlSafe s := by
  have hrun : ∀ t, ∀ s : TraceState Bool, TraceStep s (s.run 1 t) := fun t s => .run s t 1
  have h₁ : (traceSystem Bool).Reachable _ :=
    .step (.init rfl) (.control ⟨{}, fun _ => {}⟩ true (.start 1 0xFFFFFFFF []) rfl)
  have h₂ := h₁.iterate (hrun true) 24
  have h₃ : (traceSystem Bool).Reachable _ := .step h₂ (.trace _ false ⟨0x100000000, 7, 24, 1⟩ rfl)
  have h₄ := h₃.iterate (hrun false) 3
  have h₅ : (traceSystem Bool).Reachable _ := .step h₄ (.control _ true .destroy rfl)
  have h₆ := h₅.iterate (hrun true) 5
  exact ⟨_, h₆, rfl, rfl, control_safe h₆⟩

end Novachains.Pd
