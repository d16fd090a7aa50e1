import Novachains.Basic
import Novachains.Lib.Threads
import Novachains.Lib.Transition
import Mathlib.Algebra.Order.BigOperators.Group.Finset
import Mathlib.Tactic.Linarith

/-!
# The reader-writer mutex

The mutex has two counters and no lock.  A reader announces itself in `_r` and takes that back if it
finds a writer in `_w`; a writer enters `_w` and then waits until it finds no reader.  Every
operation on a counter is one step, and the steps interleave in any way.  The event only ends waits:
a wait may end at any time.

A counter is a number without bound here.  It exceeds the locks held by at most one for each thread,
so the 32 bits of the source suffice for fewer than `2 ^ 32` locks and threads.
-/

namespace Novachains.Oss

open Lib Function

/-! ## The code -/

def rwShardWrite : UInt32 := 0x0001

def rwMaxTimeout : ℤ := 0x7FFFFFFF

def rwReadTimeout : ℤ := 203

def rwWriteTimeout : ℤ := 107

/-- `_makeTimeout`: the time to wait in all, and at once. -/
def makeTimeout (millisec timeout : ℤ) : ℤ × ℤ :=
  let millisec := if millisec < 0 then rwMaxTimeout else if millisec = 0 then 1 else millisec
  (millisec, if millisec < timeout then millisec else timeout)

inductive Pc
  | idle
  -- `lock_r`
  | rInc | rFetch | rDec | rWait
  -- `lock_w`
  | wCas | wInc | wWait | wFetch | wReaders | wDec | wSignal
  -- `release_r`
  | relRCompare | relRDec | relRFetch | relRSignal
  -- `release_w`
  | relWCompare | relWDec | relWSignal
  deriving DecidableEq

@[ext]
structure Counters where
  r : ℤ
  w : ℤ
  deriving DecidableEq

/-- A thread: the locks it has, and what its current or last call has added to the counters. -/
structure Thread where
  pc : Pc
  millisec : ℤ
  timeout : ℤ
  rc : Rc
  reads : ℕ
  writes : ℕ
  addedR : ℤ
  addedW : ℤ
  deriving DecidableEq

inductive MutexCall
  | lockR (millisec : ℤ)
  | lockW (millisec : ℤ)
  | releaseR
  | releaseW

variable (t : Thread)

namespace Thread

def fresh : Thread := ⟨.idle, 0, 0, .ok, 0, 0, 0, 0⟩

def goto (pc : Pc) : Thread := { t with pc := pc }

def ret (rc : Rc) : Thread := { t with pc := .idle, rc := rc }

def addR (n : ℤ) (pc : Pc) : Thread := { t with pc := pc, addedR := t.addedR + n }

def addW (n : ℤ) (pc : Pc) : Thread := { t with pc := pc, addedW := t.addedW + n }

/-- A wait ends: go on, or expire if it was a timeout and the time is used up. -/
def waited (ev : Rc) (pc : Pc) (expire : Thread → Thread) : Thread :=
  if ev = .timeout then
    let t := { t with millisec := t.millisec - t.timeout }
    if t.millisec < 0 then expire t else t.goto pc
  else t.goto pc

def enter : MutexCall → Thread
  | .lockR millisec =>
    let time := makeTimeout millisec rwReadTimeout
    { t with pc := .rInc, millisec := time.1, timeout := time.2, addedR := 0, addedW := 0 }
  | .lockW millisec =>
    let time := makeTimeout millisec rwWriteTimeout
    { t with pc := .wCas, millisec := time.1, timeout := time.2, addedR := 0, addedW := 0 }
  | .releaseR => { t with pc := .relRCompare, reads := t.reads - 1, addedR := 0, addedW := 0 }
  | .releaseW => { t with pc := .relWCompare, writes := t.writes - 1, addedR := 0, addedW := 0 }

/-- The next operation of a thread on a mutex of the given type; `ev` is what a wait returns. -/
def next (type : UInt32) (ev : Rc) (c : Counters) (t : Thread) : Counters × Thread :=
  match t.pc with
  | .idle => (c, t)
  | .rInc => ({ c with r := c.r + 1 }, t.addR 1 .rFetch)
  | .rFetch =>
    if c.w ≠ 0 then (c, t.goto .rDec)
    else (c, { t.ret .ok with reads := t.reads + 1 })
  | .rDec => ({ c with r := c.r - 1 }, t.addR (-1) .rWait)
  | .rWait => (c, t.waited ev .rInc (·.ret .timeout))
  | .wCas =>
    if c.w = 0 then ({ c with w := 1 }, t.addW 1 .wFetch)
    else if type &&& rwShardWrite ≠ 0 then (c, t.goto .wInc)
    else (c, t.goto .wWait)
  | .wInc => ({ c with w := c.w + 1 }, t.addW 1 .wFetch)
  | .wWait => (c, t.waited ev .wCas (·.ret .timeout))
  | .wFetch =>
    if c.r ≠ 0 then (c, t.goto .wReaders)
    else (c, { t.ret .ok with writes := t.writes + 1 })
  | .wReaders => (c, t.waited ev .wFetch (·.goto .wDec))
  | .wDec => ({ c with w := c.w - 1 }, t.addW (-1) .wSignal)
  | .wSignal => (c, t.ret .timeout)
  | .relRCompare => if c.r = 0 then (c, t.ret .sys) else (c, t.goto .relRDec)
  | .relRDec => ({ c with r := c.r - 1 }, t.addR (-1) .relRFetch)
  | .relRFetch => if c.w ≠ 0 then (c, t.goto .relRSignal) else (c, t.ret .ok)
  | .relRSignal => (c, t.ret .ok)
  | .relWCompare => if c.w = 0 then (c, t.ret .sys) else (c, t.goto .relWDec)
  | .relWDec => ({ c with w := c.w - 1 }, t.addW (-1) .relWSignal)
  | .relWSignal => (c, t.ret .ok)

def MayCall : MutexCall → Prop
  | .lockR _ | .lockW _ => True
  | .releaseR => 0 < t.reads
  | .releaseW => 0 < t.writes

end Thread

structure MutexState (T : Type) where
  counters : Counters
  thread : T → Thread

namespace MutexState
variable {T : Type} [DecidableEq T]

def call (s : MutexState T) (t : T) (c : MutexCall) : MutexState T :=
  { s with thread := update s.thread t ((s.thread t).enter c) }

def run (type : UInt32) (ev : Rc) (s : MutexState T) (t : T) : MutexState T :=
  let x := (s.thread t).next type ev s.counters
  ⟨x.1, update s.thread t x.2⟩

end MutexState

inductive MutexStep {T : Type} [DecidableEq T] (type : UInt32) : MutexState T → MutexState T → Prop
  | call (s : MutexState T) (t : T) (c : MutexCall) : (s.thread t).pc = .idle →
      (s.thread t).MayCall c → MutexStep type s (s.call t c)
  | run (s : MutexState T) (t : T) (ev : Rc) : MutexStep type s (s.run type ev t)

def mutexSystem (T : Type) [DecidableEq T] (type : UInt32) : System (MutexState T) where
  init s := s = ⟨⟨0, 0⟩, fun _ => .fresh⟩
  step := MutexStep type

namespace Pc

/-- A reader is in `_r` and does not know yet whether it may stay. -/
def announced : Pc → ℕ
  | .rFetch | .rDec => 1
  | _ => 0

/-- A writer is in `_w` and waits for the readers. -/
def entered : Pc → ℕ
  | .wFetch | .wReaders | .wDec => 1
  | _ => 0

/-- A read lock is being released and still in `_r`. -/
def leavingR : Pc → ℕ
  | .relRCompare | .relRDec => 1
  | _ => 0

/-- A write lock is being released and still in `_w`. -/
def leavingW : Pc → ℕ
  | .relWCompare | .relWDec => 1
  | _ => 0

end Pc

namespace Thread

def heldR : ℕ := t.reads + t.pc.leavingR

def heldW : ℕ := t.writes + t.pc.leavingW

end Thread

/-- **What the mutex promises.**  Writers exclude readers, and writers unless they share; a timeout
has added nothing; at rest the counters are 0. -/
structure Excludes {T : Type} (type : UInt32) (s : MutexState T) : Prop where
  write_write : type &&& rwShardWrite = 0 →
    ∀ t u, 0 < (s.thread t).heldW → 0 < (s.thread u).heldW → t = u
  read_write : ∀ t u, 0 < (s.thread t).heldW → ¬ 0 < (s.thread u).heldR
  timed_out : ∀ t, (s.thread t).pc = .idle → (s.thread t).rc = .timeout →
    (s.thread t).addedR = 0 ∧ (s.thread t).addedW = 0
  at_rest : (∀ t, (s.thread t).pc = .idle ∧ (s.thread t).reads = 0 ∧ (s.thread t).writes = 0) →
    s.counters = ⟨0, 0⟩

namespace Thread

/-- What a thread has in `_r`. -/
def shareR : ℕ := t.heldR + t.pc.announced

/-- What a thread has in `_w`. -/
def shareW : ℕ := t.heldW + t.pc.entered

def Settled : Prop :=
  match t.pc with
  | .rInc | .rWait | .wCas | .wInc | .wWait | .wSignal => t.addedR = 0 ∧ t.addedW = 0
  | .rFetch | .rDec => t.addedR = 1 ∧ t.addedW = 0
  | .wFetch | .wReaders | .wDec => t.addedR = 0 ∧ t.addedW = 1
  | .idle => t.rc = .timeout → t.addedR = 0 ∧ t.addedW = 0
  | _ => True

/-- **One step of a thread**: a read lock is given only where `_w` is 0, a write lock only where
`_r` is, and without sharing `_w` is raised only from 0. -/
structure Moves (type : UInt32) (c : Counters) (t : Thread) (c' : Counters) (t' : Thread) :
    Prop where
  r : c'.r + t.shareR = c.r + t'.shareR
  w : c'.w + t.shareW = c.w + t'.shareW
  heldR : t'.heldR ≤ t.heldR ∨ c.w = 0 ∧ t'.heldW ≤ t.heldW
  heldW : t'.heldW ≤ t.heldW ∨ c.r = 0 ∧ t'.heldR ≤ t.heldR
  settled : t.Settled → t'.Settled
  exclusive : type &&& rwShardWrite = 0 → t.pc ≠ .wInc → t'.pc ≠ .wInc ∧ (c'.w ≤ c.w ∨ c'.w = 1)

attribute [local simp] enter addR addW shareR shareW heldR heldW Settled Pc.announced
  Pc.entered Pc.leavingR Pc.leavingW

theorem enter_moves (type : UInt32) (c : Counters) {t : Thread} {call : MutexCall}
    (hidle : t.pc = .idle) (hmay : t.MayCall call) : Moves type c t c (t.enter call) := by
  cases call with
  | lockR millisec => constructor <;> simp [hidle]
  | lockW millisec => constructor <;> simp [hidle]
  | releaseR =>
    have hpos : 0 < t.reads := hmay
    constructor <;> simp [hidle, Nat.sub_add_cancel hpos]
  | releaseW =>
    have hpos : 0 < t.writes := hmay
    constructor <;> simp [hidle, Nat.sub_add_cancel hpos]

theorem waited_cases (ev : Rc) (pc : Pc) (expire : Thread → Thread) :
    ∃ millisec, t.waited ev pc expire = { t with millisec := millisec, pc := pc } ∨
      t.waited ev pc expire = expire { t with millisec := millisec } := by
  dsimp only [waited, goto]
  split_ifs
  · exact ⟨_, .inr rfl⟩
  · exact ⟨_, .inl rfl⟩
  · exact ⟨t.millisec, .inl rfl⟩

theorem next_moves (type : UInt32) (ev : Rc) {c : Counters} {t : Thread} (hr : t.shareR ≤ c.r)
    (hw : t.shareW ≤ c.w) :
    Moves type c t (t.next type ev c).1 (t.next type ev c).2 := by
  cases hpc : t.pc with
  | idle | wSignal | relRDec | relRSignal | relWDec | relWSignal =>
    constructor <;> simp [next, hpc, ret]
  | rInc | rDec | wInc | wDec =>
    constructor <;> simp [next, hpc]
    omega
  | rFetch | relRFetch => by_cases h : c.w = 0 <;> constructor <;> simp [next, hpc, h, ret, goto]
  | wFetch => by_cases h : c.r = 0 <;> constructor <;> simp [next, hpc, h, ret, goto]
  | rWait =>
    simp only [next, hpc]
    obtain ⟨_, h | h⟩ := t.waited_cases ev .rInc (·.ret .timeout) <;> rw [h] <;>
      constructor <;> simp [hpc, ret]
  | wWait =>
    simp only [next, hpc]
    obtain ⟨_, h | h⟩ := t.waited_cases ev .wCas (·.ret .timeout) <;> rw [h] <;>
      constructor <;> simp [hpc, ret]
  | wReaders =>
    simp only [next, hpc]
    obtain ⟨_, h | h⟩ := t.waited_cases ev .wFetch (·.goto .wDec) <;> rw [h] <;>
      constructor <;> simp [hpc, goto]
  | wCas =>
    by_cases h : c.w = 0
    · constructor <;> simp [next, hpc, h]
      omega
    · by_cases hshared : type &&& rwShardWrite = 0 <;>
        constructor <;> simp [next, hpc, h, hshared, goto]
  | relRCompare =>
    -- its own share keeps the counter above 0, so the call does not fail
    have h : c.r ≠ 0 := by simp [hpc] at hr; omega
    constructor <;> simp [next, hpc, h, goto]
  | relWCompare =>
    have h : c.w ≠ 0 := by simp [hpc] at hw; omega
    constructor <;> simp [next, hpc, h, goto]

end Thread

/-! ## Runs -/

section
variable {T : Type} [Fintype T]

/-- **The invariant.**  The counters are the sums of the threads' shares. -/
structure MutexInv (type : UInt32) (s : MutexState T) : Prop where
  r : s.counters.r = (∑ t, (s.thread t).shareR : ℕ)
  w : s.counters.w = (∑ t, (s.thread t).shareW : ℕ)
  apart : (∀ t, (s.thread t).heldR = 0) ∨ ∀ t, (s.thread t).heldW = 0
  settled : ∀ t, (s.thread t).Settled
  exclusive : type &&& rwShardWrite = 0 →
    s.counters.w ≤ 1 ∧ ∀ t, (s.thread t).pc ≠ .wInc

namespace MutexInv
variable {type : UInt32} {s : MutexState T}

section
variable (h : MutexInv type s)
include h

theorem shareR_le (t : T) : (s.thread t).shareR ≤ s.counters.r := by
  rw [h.r, Int.ofNat_le]
  exact Finset.single_le_sum (f := fun t => (s.thread t).shareR)
    (fun _ _ => Nat.zero_le _) (Finset.mem_univ t)

theorem shareW_le (t : T) : (s.thread t).shareW ≤ s.counters.w := by
  rw [h.w, Int.ofNat_le]
  exact Finset.single_le_sum (f := fun t => (s.thread t).shareW)
    (fun _ _ => Nat.zero_le _) (Finset.mem_univ t)

theorem heldR_eq_zero (hr : s.counters.r = 0) (t : T) : (s.thread t).heldR = 0 := by
  have := h.shareR_le t
  unfold Thread.shareR at this
  omega

theorem heldW_eq_zero (hw : s.counters.w = 0) (t : T) : (s.thread t).heldW = 0 := by
  have := h.shareW_le t
  unfold Thread.shareW at this
  omega

theorem moves [DecidableEq T] {t : T} {c : Counters} {x : Thread}
    (hx : Thread.Moves type s.counters (s.thread t) c x) :
    MutexInv type ⟨c, update s.thread t x⟩ where
  r := by
    have hsum := sum_update_add Thread.shareR s.thread t x
    have hr := hx.r
    rw [h.r] at hr
    dsimp only
    omega
  w := by
    have hsum := sum_update_add Thread.shareW s.thread t x
    have hw := hx.w
    rw [h.w] at hw
    dsimp only
    omega
  apart := by
    have keep (f : Thread → ℕ) (hf : ∀ u, f (s.thread u) = 0) (hle : f x ≤ f (s.thread t)) (u : T) :
        f (update s.thread t x u) = 0 := by
      revert u
      rw [forall_update_iff s.thread fun _ y => f y = 0]
      exact ⟨Nat.le_zero.mp (hf t ▸ hle), fun u _ => hf u⟩
    rcases hx.heldR with hR | ⟨hw, hW⟩
    · rcases hx.heldW with hW | ⟨hr, -⟩
      · exact h.apart.imp (keep _ · hR) (keep _ · hW)
      · exact .inl (keep _ (h.heldR_eq_zero hr) hR)
    · exact .inr (keep _ (h.heldW_eq_zero hw) hW)
  settled := by
    rw [forall_update_iff s.thread fun _ y => y.Settled]
    exact ⟨hx.settled (h.settled t), fun u _ => h.settled u⟩
  exclusive htype := by
    obtain ⟨hle, hpc⟩ := h.exclusive htype
    obtain ⟨hxpc, hc⟩ := hx.exclusive htype (hpc t)
    refine ⟨by dsimp only; omega, ?_⟩
    rw [forall_update_iff s.thread fun _ y => y.pc ≠ .wInc]
    exact ⟨hxpc, fun u _ => hpc u⟩

theorem step [DecidableEq T] {s' : MutexState T}
    (hstep : MutexStep type s s') : MutexInv type s' := by
  cases hstep with
  | call t c hidle hmay => exact h.moves (Thread.enter_moves type s.counters hidle hmay)
  | run t ev => exact h.moves (Thread.next_moves type ev (h.shareR_le t) (h.shareW_le t))

theorem write_unique (htype : type &&& rwShardWrite = 0) {t u : T}
    (ht : 0 < (s.thread t).heldW) (hu : 0 < (s.thread u).heldW) : t = u := by
  classical
  by_contra hne
  have hle : ∑ v ∈ {t, u}, (s.thread v).shareW ≤ ∑ v, (s.thread v).shareW :=
    Finset.sum_le_sum_of_subset (Finset.subset_univ _)
  rw [Finset.sum_pair hne] at hle
  have hone := (h.exclusive htype).1
  rw [h.w] at hone
  unfold Thread.shareW at hle hone
  omega

theorem at_rest (hrest : ∀ t, (s.thread t).pc = .idle ∧
    (s.thread t).reads = 0 ∧ (s.thread t).writes = 0) : s.counters = ⟨0, 0⟩ := by
  have hR t : (s.thread t).shareR = 0 := by
    simp [Thread.shareR, Thread.heldR, hrest, Pc.leavingR, Pc.announced]
  have hW t : (s.thread t).shareW = 0 := by
    simp [Thread.shareW, Thread.heldW, hrest, Pc.leavingW, Pc.entered]
  have hr := h.r
  have hw := h.w
  simp only [hR, Finset.sum_const_zero, Nat.cast_zero] at hr
  simp only [hW, Finset.sum_const_zero, Nat.cast_zero] at hw
  exact Counters.ext hr hw

theorem excludes : Excludes type s where
  write_write htype _ _ ht hu := h.write_unique htype ht hu
  read_write t u ht hu := by
    rcases h.apart with hR | hW
    · exact hu.ne' (hR u)
    · exact ht.ne' (hW t)
  timed_out t hidle := by
    have := h.settled t
    rwa [Thread.Settled, hidle] at this
  at_rest := h.at_rest

end

end MutexInv

theorem mutexInv_invariant (T : Type) [Fintype T] [DecidableEq T] (type : UInt32) :
    (mutexSystem T type).Invariant (MutexInv type) where
  init s hs := by
    subst hs
    constructor <;> simp [Thread.fresh, Thread.shareR, Thread.shareW, Thread.heldR, Thread.heldW,
      Thread.Settled, Pc.announced, Pc.entered, Pc.leavingR, Pc.leavingW]
  step _ _ h hstep := h.step hstep

/-- **The counters do not wrap**: each exceeds the locks held by at most one for each thread. -/
theorem counters_bounded [DecidableEq T] (type : UInt32) {s : MutexState T}
    (h : (mutexSystem T type).Reachable s) :
    (0 ≤ s.counters.r ∧ s.counters.r ≤ (∑ t, ((s.thread t).reads + 1) : ℕ)) ∧
      0 ≤ s.counters.w ∧ s.counters.w ≤ (∑ t, ((s.thread t).writes + 1) : ℕ) := by
  have hinv := (mutexInv_invariant T type).reachable h
  have hR t : (s.thread t).shareR ≤ (s.thread t).reads + 1 := by
    cases hpc : (s.thread t).pc <;> simp [Thread.shareR, Thread.heldR, hpc, Pc.leavingR, Pc.announced]
  have hW t : (s.thread t).shareW ≤ (s.thread t).writes + 1 := by
    cases hpc : (s.thread t).pc <;> simp [Thread.shareW, Thread.heldW, hpc, Pc.leavingW, Pc.entered]
  rw [hinv.r, hinv.w, Int.ofNat_le, Int.ofNat_le]
  exact ⟨⟨Int.natCast_nonneg _, Finset.sum_le_sum fun t _ => hR t⟩, Int.natCast_nonneg _,
    Finset.sum_le_sum fun t _ => hW t⟩

/-- **Reader-writer mutual exclusion**, in every run of any number of threads. -/
theorem rw_exclusion [DecidableEq T] (type : UInt32) {s : MutexState T}
    (h : (mutexSystem T type).Reachable s) : Excludes type s :=
  ((mutexInv_invariant T type).reachable h).excludes

end

/-- The first thread is reading and the second, which wants to write, has found it. -/
def readerAndWriter : MutexState (Fin 2) :=
  ((((((⟨⟨0, 0⟩, fun _ => .fresh⟩ : MutexState (Fin 2)).call 0 (.lockR (-1))).run 0 .ok 0).run 0 .ok 0
    ).call 1 (.lockW 50)).run 0 .ok 1).run 0 .ok 1

theorem readerAndWriter_reachable : (mutexSystem (Fin 2) 0).Reachable readerAndWriter :=
  .step (.step (.step (.step (.step (.step (.init rfl) (.call _ 0 (.lockR (-1)) rfl trivial))
    (.run _ 0 .ok)) (.run _ 0 .ok)) (.call _ 1 (.lockW 50) rfl trivial)) (.run _ 1 .ok))
    (.run _ 1 .ok)

/-- A run with a reader and a waiting writer. -/
theorem rw_exclusion_two : ∃ s : MutexState (Fin 2), (mutexSystem (Fin 2) 0).Reachable s ∧
    0 < (s.thread 0).heldR ∧ (s.thread 1).pc = .wReaders ∧ Excludes 0 s :=
  ⟨readerAndWriter, readerAndWriter_reachable, by decide, by decide,
    rw_exclusion 0 readerAndWriter_reachable⟩

/-- Both counters are one there: the lock of the reader, and the announcement of the writer. -/
theorem counters_bounded_two :
    (readerAndWriter.thread 0).reads = 1 ∧ readerAndWriter.counters = ⟨1, 1⟩ ∧
      readerAndWriter.counters.r ≤ 3 ∧ readerAndWriter.counters.w ≤ 2 := by
  obtain ⟨⟨-, hr⟩, -, hw⟩ := counters_bounded 0 readerAndWriter_reachable
  exact ⟨by decide, by decide, hr.trans (by decide), hw.trans (by decide)⟩

end Novachains.Oss
