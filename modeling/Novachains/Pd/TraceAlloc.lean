import Novachains.Basic
import Novachains.Lib.Threads
import Novachains.Lib.Transition
import Mathlib.Algebra.Ring.Divisibility.Basic

/-!
# Reserving room for trace records

`reserveMemory` adds the size to the position of the current chunk.  Where that runs over the end,
one of the threads prepares the other of two pairs for the next chunk and makes it the current one.
There is no lock: a thread keeps the pair it has fetched while others go on.

Every atomic operation, and every read or write of `_e` and `_ptr2`, is one step.  Positions are
absolute and only grow, by at most a chunk in a step: the 64 bits that hold them do not wrap around
in the first `2^48 - 1` steps after `_reset`, and here they are numbers without bound.
-/

namespace Novachains.Pd

open Lib

abbrev traceChunkSize : ℕ := 65536

/-! ## The code -/

/-- `_info1` or `_info2`. -/
inductive Info
  | info1
  | info2
  deriving DecidableEq, Repr

def Info.other : Info → Info
  | .info1 => .info2
  | .info2 => .info1

structure AllocPair where
  b : ℕ := 0
  e : ℕ := traceChunkSize
  deriving DecidableEq, Repr

structure Alloc where
  pair : Info → AllocPair
  ptr : Info
  ptr2 : Info
  alloc : Bool

namespace Alloc

def reset : Alloc := ⟨fun _ => {}, .info1, .info2, false⟩

def setB (a : Alloc) (p : Info) (b : ℕ) : Alloc :=
  { a with pair := Function.update a.pair p { a.pair p with b := b } }

def setE (a : Alloc) (p : Info) (e : ℕ) : Alloc :=
  { a with pair := Function.update a.pair p { a.pair p with e := e } }

end Alloc

/-- The operation of `reserveMemory` that a thread makes next. -/
inductive ReservePc
  | idle
  | fetch (size : ℕ)
  | readEnd (size : ℕ) (p : Info)
  | add (size : ℕ) (p : Info) (e : ℕ)
  | cas (size : ℕ) (p : Info) (e : ℕ)
  | compare (size : ℕ) (p : Info) (e : ℕ)
  -- `_ptr2->_b.swap( end )`
  | readForB (size e : ℕ)
  | swapB (size e : ℕ) (q : Info)
  -- `_ptr2->_e = end + TRACE_CHUNK_SIZE`
  | readForE (size e : ℕ)
  | writeE (size e : ℕ) (q : Info)
  -- `_ptr2 = _ptr.swap( _ptr2 )`
  | readForPtr (size : ℕ)
  | swapPtr (size : ℕ) (q : Info)
  | writePtr2 (size : ℕ) (old : Info)
  | release (size : ℕ)
  | wait (size : ℕ)
  deriving DecidableEq, Repr

namespace ReservePc

def enter (size : ℕ) : ReservePc := if size > traceChunkSize then .idle else .fetch size

/-- One step of `reserveMemory`. -/
def next (a : Alloc) : ReservePc → Alloc × ReservePc × List (ℕ × ℕ)
  | .idle => (a, .idle, [])
  | .fetch size => (a, .readEnd size a.ptr, [])
  | .readEnd size p => (a, .add size p (a.pair p).e, [])
  | .add size p e =>
    if (a.pair p).b + size > e then (a.setB p ((a.pair p).b + size), .cas size p e, [])
    else (a.setB p ((a.pair p).b + size), .idle, [((a.pair p).b, size)])
  | .cas size p e =>
    if a.alloc then (a, .wait size, []) else ({ a with alloc := true }, .compare size p e, [])
  | .compare size p e => if a.ptr = p then (a, .readForB size e, []) else (a, .release size, [])
  | .readForB size e => (a, .swapB size e a.ptr2, [])
  | .swapB size e q => (a.setB q e, .readForE size e, [])
  | .readForE size e => (a, .writeE size e a.ptr2, [])
  | .writeE size e q => (a.setE q (e + traceChunkSize), .readForPtr size, [])
  | .readForPtr size => (a, .swapPtr size a.ptr2, [])
  | .swapPtr size q => ({ a with ptr := q }, .writePtr2 size a.ptr, [])
  | .writePtr2 size old => ({ a with ptr2 := old }, .release size, [])
  | .release size => ({ a with alloc := false }, .fetch size, [])
  | .wait size => if a.alloc then (a, .wait size, []) else (a, .fetch size, [])

end ReservePc

structure ReserveState (T : Type) where
  shared : Alloc
  pc : T → ReservePc
  done : List (ℕ × ℕ)

namespace ReserveState
variable {T : Type} [DecidableEq T]

/-- After `_reset`, with no call under way. -/
def start : ReserveState T := ⟨.reset, fun _ => .idle, []⟩

def call (s : ReserveState T) (t : T) (size : ℕ) : ReserveState T :=
  { s with pc := Function.update s.pc t (.enter size) }

def run (s : ReserveState T) (t : T) : ReserveState T :=
  let x := (s.pc t).next s.shared
  ⟨x.1, Function.update s.pc t x.2.1, x.2.2 ++ s.done⟩

end ReserveState

/-- One step of one thread, where `ok` restricts the operations. -/
inductive ReserveStep {T : Type} [DecidableEq T] (ok : Alloc → ReservePc → Prop) :
    ReserveState T → ReserveState T → Prop
  | call (s : ReserveState T) (t : T) (size : ℕ) : s.pc t = .idle → 1 ≤ size →
      ReserveStep ok s (s.call t size)
  | run (s : ReserveState T) (t : T) : ok s.shared (s.pc t) → ReserveStep ok s (s.run t)

def reserveSystem (T : Type) [DecidableEq T] (ok : Alloc → ReservePc → Prop) :
    System (ReserveState T) where
  init s := s = .start
  step := ReserveStep ok

def RangesApart (r r' : ℕ × ℕ) : Prop := r.1 + r.2 ≤ r'.1 ∨ r'.1 + r'.2 ≤ r.1

def InChunk (r : ℕ × ℕ) : Prop :=
  ∃ k, k * traceChunkSize ≤ r.1 ∧ r.1 + r.2 ≤ (k + 1) * traceChunkSize

/-- **What the allocator promises.** -/
structure RangesOk (done : List (ℕ × ℕ)) : Prop where
  apart : done.Pairwise RangesApart
  inChunk : ∀ r ∈ done, InChunk r

def Fresh (a : Alloc) : ReservePc → Prop
  | .compare _ p e => a.ptr = p → e = (a.pair p).e
  | _ => True

namespace Info

@[simp] theorem other_other (p : Info) : p.other.other = p := by cases p <;> rfl

@[simp] theorem other_ne (p : Info) : p.other ≠ p := by cases p <;> decide

@[simp] theorem ne_other (p : Info) : p ≠ p.other := p.other_ne.symm

theorem eq_or_eq_other (p q : Info) : p = q ∨ p = q.other := by
  cases p <;> cases q <;> decide

end Info

namespace Alloc
variable (a : Alloc) (p : Info) (n : ℕ)

@[simp] theorem setB_ptr : (a.setB p n).ptr = a.ptr := rfl
@[simp] theorem setB_ptr2 : (a.setB p n).ptr2 = a.ptr2 := rfl
@[simp] theorem setB_alloc : (a.setB p n).alloc = a.alloc := rfl
@[simp] theorem setE_ptr : (a.setE p n).ptr = a.ptr := rfl
@[simp] theorem setE_ptr2 : (a.setE p n).ptr2 = a.ptr2 := rfl
@[simp] theorem setE_alloc : (a.setE p n).alloc = a.alloc := rfl

@[simp] theorem setB_b_same : ((a.setB p n).pair p).b = n := by simp [setB]

@[simp] theorem setB_e (q : Info) : ((a.setB p n).pair q).e = (a.pair q).e := by
  by_cases hq : q = p
  · subst hq
    simp [setB]
  · simp [setB, hq]

@[simp] theorem setE_e_same : ((a.setE p n).pair p).e = n := by simp [setE]

@[simp] theorem setE_b (q : Info) : ((a.setE p n).pair q).b = (a.pair q).b := by
  by_cases hq : q = p
  · subst hq
    simp [setE]
  · simp [setE, hq]

variable {a p n} {q : Info}

@[simp] theorem setB_b_of_ne (h : q ≠ p) : ((a.setB p n).pair q).b = (a.pair q).b := by
  simp [setB, h]

@[simp] theorem setE_e_of_ne (h : q ≠ p) : ((a.setE p n).pair q).e = (a.pair q).e := by
  simp [setE, h]

theorem le_setB_b (h : (a.pair p).b ≤ n) (q : Info) :
    (a.pair q).b ≤ ((a.setB p n).pair q).b := by
  by_cases hq : q = p
  · subst hq
    rw [setB_b_same]
    exact h
  · rw [setB_b_of_ne hq]

end Alloc

/-- The current pair has the last chunk, and `_ptr2` is the other one. -/
structure Normal (a : Alloc) : Prop where
  ptr2 : a.ptr2 = a.ptr.other
  le : (a.pair a.ptr.other).e ≤ (a.pair a.ptr).e

structure Prepared (a : Alloc) : Prop where
  ptr2 : a.ptr2 = a.ptr.other
  e : (a.pair a.ptr.other).e = (a.pair a.ptr).e + traceChunkSize

/-- The shared words and the ranges; the pairs in `used` have been current or are made so. -/
structure SharedOk (used : Info → Prop) (a : Alloc) (done : List (ℕ × ℕ)) : Prop where
  ptr : used a.ptr
  free : a.alloc = false → Normal a
  dvd : ∀ p, traceChunkSize ∣ (a.pair p).e
  near : ∀ p, (a.pair p).e ≤ (a.pair p).b + traceChunkSize
  chunks : ∀ p, used p → used p.other →
    (a.pair p).e ≤ (a.pair p.other).b ∨ (a.pair p.other).e ≤ (a.pair p).b
  sep : ∀ p, used p → ∀ r ∈ done, r.1 + r.2 ≤ (a.pair p).b ∨ (a.pair p).e ≤ r.1
  bound : ∀ r ∈ done, ∃ p, r.1 + r.2 ≤ (a.pair p).e
  ranges : RangesOk done

namespace ReservePc

/-- The thread has set `_alloc`. -/
def crit : ReservePc → Bool
  | .compare .. | .readForB .. | .swapB .. | .readForE .. | .writeE .. | .readForPtr .. => true
  | .swapPtr .. | .writePtr2 .. | .release .. => true
  | _ => false

end ReservePc

def PcOk (used : Info → Prop) (a : Alloc) : ReservePc → Prop
  | .idle => True
  | .fetch size | .wait size => 1 ≤ size
  | .cas size _ _ => 1 ≤ size
  | .readEnd size p => 1 ≤ size ∧ used p
  -- an end that is no longer the pair's is behind its position
  | .add size p e =>
    1 ≤ size ∧ used p ∧ e ≤ (a.pair p).e ∧ (e = (a.pair p).e ∨ e ≤ (a.pair p).b)
  | .compare size _ _ | .release size => 1 ≤ size ∧ Normal a
  | .readForB size e => 1 ≤ size ∧ Normal a ∧ e = (a.pair a.ptr).e
  | .swapB size e q => 1 ≤ size ∧ Normal a ∧ e = (a.pair a.ptr).e ∧ q = a.ptr.other
  | .readForE size e => 1 ≤ size ∧ Normal a ∧ e = (a.pair a.ptr).e ∧ used a.ptr.other
      ∧ e ≤ (a.pair a.ptr.other).b
  | .writeE size e q => 1 ≤ size ∧ Normal a ∧ e = (a.pair a.ptr).e ∧ used a.ptr.other
      ∧ e ≤ (a.pair a.ptr.other).b ∧ q = a.ptr.other
  | .readForPtr size => 1 ≤ size ∧ Prepared a ∧ used a.ptr.other
  | .swapPtr size q => 1 ≤ size ∧ Prepared a ∧ used a.ptr.other ∧ q = a.ptr.other
  | .writePtr2 size old => 1 ≤ size ∧ old = a.ptr.other
      ∧ (a.pair a.ptr.other).e ≤ (a.pair a.ptr).e

variable {used : Info → Prop} {a a' : Alloc} {done : List (ℕ × ℕ)} {p : Info} {n : ℕ}
  {pc : ReservePc}

theorem Normal.setB (h : Normal a) (p : Info) (n : ℕ) : Normal (a.setB p n) where
  ptr2 := h.ptr2
  le := by simpa using h.le

theorem Prepared.setB (h : Prepared a) (p : Info) (n : ℕ) : Prepared (a.setB p n) where
  ptr2 := h.ptr2
  e := by simpa using h.e

theorem SharedOk.le_current (h : SharedOk used a done) (hn : Normal a) {r : ℕ × ℕ}
    (hr : r ∈ done) : r.1 + r.2 ≤ (a.pair a.ptr).e := by
  obtain ⟨p, hp⟩ := h.bound r hr
  have hle := hn.le
  obtain rfl | rfl := p.eq_or_eq_other a.ptr
  · exact hp
  · exact hp.trans hle

/-! ## What the operations do to the shared words -/

section
variable (h : SharedOk used a done)
include h

theorem SharedOk.raise (hn : (a.pair p).b ≤ n) :
    SharedOk used (a.setB p n) done where
  ptr := h.ptr
  free := fun hfree => (h.free hfree).setB p n
  dvd := fun q => by simpa using h.dvd q
  near := fun q => by
    have hq := Alloc.le_setB_b hn q
    have hnear := h.near q
    rw [Alloc.setB_e]
    omega
  chunks := fun q hq hq' => by
    have hb := Alloc.le_setB_b hn q
    have hb' := Alloc.le_setB_b hn q.other
    have hchunks := h.chunks q hq hq'
    rw [Alloc.setB_e, Alloc.setB_e]
    omega
  sep := fun q hq r hr => by
    have hb := Alloc.le_setB_b hn q
    have hsep := h.sep q hq r hr
    rw [Alloc.setB_e]
    omega
  bound := fun r hr => by
    obtain ⟨q, hq⟩ := h.bound r hr
    exact ⟨q, by rwa [Alloc.setB_e]⟩
  ranges := h.ranges

theorem SharedOk.inChunk {size : ℕ} (hsize : 1 ≤ size)
    (hle : (a.pair p).b + size ≤ (a.pair p).e) : InChunk ((a.pair p).b, size) := by
  obtain ⟨k, hk⟩ := h.dvd p
  have hnear := h.near p
  cases k with
  | zero => omega
  | succ k =>
    refine ⟨k, ?_, ?_⟩
    · simp only [traceChunkSize] at hk hnear ⊢
      omega
    · simp only [traceChunkSize] at hk ⊢
      omega

theorem SharedOk.reserve (hp : used p) {size : ℕ} (hsize : 1 ≤ size)
    (hle : (a.pair p).b + size ≤ (a.pair p).e) :
    SharedOk used (a.setB p ((a.pair p).b + size)) (((a.pair p).b, size) :: done) := by
  have hraise := h.raise (Nat.le_add_right (a.pair p).b size)
  refine { hraise with sep := ?_, bound := ?_, ranges := ⟨?_, ?_⟩ }
  · intro q hq r hr
    obtain rfl | hr := List.mem_cons.mp hr
    · obtain rfl | rfl := q.eq_or_eq_other p
      · exact .inl (by rw [Alloc.setB_b_same])
      -- the chunks of the two pairs do not meet
      have hchunks := h.chunks p hp hq
      rw [Alloc.setB_b_of_ne p.other_ne, Alloc.setB_e]
      omega
    · exact hraise.sep q hq r hr
  · intro r hr
    obtain rfl | hr := List.mem_cons.mp hr
    · exact ⟨p, by rwa [Alloc.setB_e]⟩
    · exact hraise.bound r hr
  · refine List.pairwise_cons.mpr ⟨?_, h.ranges.apart⟩
    intro r hr
    have hsep := h.sep p hp r hr
    simp only [RangesApart]
    omega
  · intro r hr
    obtain rfl | hr := List.mem_cons.mp hr
    · exact h.inChunk hsize hle
    · exact h.ranges.inChunk r hr

theorem SharedOk.swapB (hlock : a.alloc = true) (hn : Normal a) :
    SharedOk (fun _ => True) (a.setB a.ptr.other (a.pair a.ptr).e) done where
  ptr := trivial
  free := fun hfree => absurd (hlock.symm.trans hfree) (by decide)
  dvd := fun q => by simpa using h.dvd q
  near := fun q => by
    obtain rfl | rfl := q.eq_or_eq_other a.ptr
    · simpa using h.near a.ptr
    · simpa using hn.le.trans (Nat.le_add_right _ _)
  chunks := fun q _ _ => by obtain rfl | rfl := q.eq_or_eq_other a.ptr <;> simp
  sep := fun q _ r hr => by
    obtain rfl | rfl := q.eq_or_eq_other a.ptr
    · simpa using h.sep a.ptr h.ptr r hr
    · exact .inl (by simpa using h.le_current hn hr)
  bound := fun r hr => ⟨a.ptr, by simpa using h.le_current hn hr⟩
  ranges := h.ranges

theorem SharedOk.writeE (hlock : a.alloc = true) (hn : Normal a)
    (hb : (a.pair a.ptr).e ≤ (a.pair a.ptr.other).b) :
    SharedOk used (a.setE a.ptr.other ((a.pair a.ptr).e + traceChunkSize)) done where
  ptr := h.ptr
  free := fun hfree => absurd (hlock.symm.trans hfree) (by decide)
  dvd := fun q => by
    obtain rfl | rfl := q.eq_or_eq_other a.ptr <;> simpa using h.dvd a.ptr
  near := fun q => by
    obtain rfl | rfl := q.eq_or_eq_other a.ptr
    · simpa using h.near a.ptr
    · simpa using hb
  chunks := fun q _ _ => by
    obtain rfl | rfl := q.eq_or_eq_other a.ptr
    · exact .inl (by simpa using hb)
    · exact .inr (by simpa using hb)
  sep := fun q hq r hr => by
    obtain rfl | rfl := q.eq_or_eq_other a.ptr
    · simpa using h.sep a.ptr hq r hr
    · exact .inl (by simpa using (h.le_current hn hr).trans hb)
  bound := fun r hr => ⟨a.ptr, by simpa using h.le_current hn hr⟩
  ranges := h.ranges

theorem SharedOk.congr (hpair : a'.pair = a.pair) (hptr : used a'.ptr)
    (hfree : a'.alloc = false → Normal a') : SharedOk used a' done := by
  cases a
  cases a'
  cases hpair
  exact ⟨hptr, hfree, h.dvd, h.near, h.chunks, h.sep, h.bound, h.ranges⟩

end

theorem PcOk.raise (h : PcOk used a pc) (hn : (a.pair p).b ≤ n) :
    PcOk used (a.setB p n) pc := by
  have hb := Alloc.le_setB_b hn
  cases pc with
  | idle | fetch | readEnd | cas | wait => exact h
  | add size q e =>
    obtain ⟨hsize, hq, hle, hend⟩ := h
    have hbq := hb q
    refine ⟨hsize, hq, ?_, ?_⟩
    · rwa [Alloc.setB_e]
    · rw [Alloc.setB_e]
      omega
  | compare | release => exact ⟨h.1, h.2.setB p n⟩
  | readForB size e => exact ⟨h.1, h.2.1.setB p n, by simpa using h.2.2⟩
  | swapB size e q => exact ⟨h.1, h.2.1.setB p n, by simpa using h.2.2.1, h.2.2.2⟩
  | readForE size e =>
    obtain ⟨hsize, hnormal, hend, hused, hle⟩ := h
    exact ⟨hsize, hnormal.setB p n, by simpa using hend, hused, hle.trans (hb _)⟩
  | writeE size e q =>
    obtain ⟨hsize, hnormal, hend, hused, hle, hq⟩ := h
    exact ⟨hsize, hnormal.setB p n, by simpa using hend, hused, hle.trans (hb _), hq⟩
  | readForPtr | swapPtr => exact ⟨h.1, h.2.1.setB p n, h.2.2⟩
  | writePtr2 size old => exact ⟨h.1, h.2.1, by simpa using h.2.2⟩

theorem PcOk.congr (h : PcOk used a pc) (hcrit : pc.crit = false) (hpair : a'.pair = a.pair) :
    PcOk used a' pc := by
  cases pc with
  | idle | fetch | readEnd | cas | wait => exact h
  | add size q e =>
    simp only [PcOk, hpair]
    exact h
  | _ => exact absurd hcrit (by simp [ReservePc.crit])

theorem PcOk.swapB (h : PcOk used a pc) (hcrit : pc.crit = false) (hn : Normal a) :
    PcOk (fun _ => True) (a.setB a.ptr.other (a.pair a.ptr).e) pc := by
  cases pc with
  | idle | fetch | cas | wait => exact h
  | readEnd size q => exact ⟨h.1, trivial⟩
  | add size q e =>
    obtain ⟨hsize, _, hle, hend⟩ := h
    refine ⟨hsize, trivial, by rwa [Alloc.setB_e], ?_⟩
    obtain rfl | rfl := q.eq_or_eq_other a.ptr
    · simpa using hend
    · exact .inr (by simpa using hle.trans hn.le)
  | _ => exact absurd hcrit (by simp [ReservePc.crit])

theorem PcOk.writeE (h : PcOk used a pc) (hcrit : pc.crit = false) (hn : Normal a)
    (hb : (a.pair a.ptr).e ≤ (a.pair a.ptr.other).b) :
    PcOk used (a.setE a.ptr.other ((a.pair a.ptr).e + traceChunkSize)) pc := by
  cases pc with
  | idle | fetch | readEnd | cas | wait => exact h
  | add size q e =>
    obtain ⟨hsize, hq, hle, hend⟩ := h
    have hnormal := hn.le
    obtain rfl | rfl := q.eq_or_eq_other a.ptr
    · exact ⟨hsize, hq, by simpa using hle, by simpa using hend⟩
    -- the end that the thread has read is behind the new position
    · exact ⟨hsize, hq, by simp; omega, by simp; omega⟩
  | _ => exact absurd hcrit (by simp [ReservePc.crit])

/-! ## One step of a thread -/

/-- **One step of a thread** keeps what the others rely on and enters the section only if it is
empty. -/
structure ReserveMoves (used : Info → Prop) (a : Alloc) (pc : ReservePc) (used' : Info → Prop)
    (a' : Alloc) (pc' : ReservePc) (done' : List (ℕ × ℕ)) : Prop where
  shared : SharedOk used' a' done'
  own : PcOk used' a' pc'
  others : ∀ q : ReservePc, (q.crit = true → pc.crit = false ∧ a.alloc = true) → PcOk used a q →
    PcOk used' a' q
  takes : pc'.crit = true → a'.alloc = true ∧ (pc.crit = true ∨ a.alloc = false)
  keeps : pc.crit = false → a.alloc = true → a'.alloc = true

theorem ReserveMoves.ofRead {pc' : ReservePc} (h : SharedOk used a done) (hown : PcOk used a pc')
    (hlock : pc.crit = true → a.alloc = true) (hcrit : pc'.crit = true → pc.crit = true) :
    ReserveMoves used a pc used a pc' done where
  shared := h
  own := hown
  others := fun _ _ hq => hq
  takes := fun hc => ⟨hlock (hcrit hc), .inl (hcrit hc)⟩
  keeps := fun _ hl => hl

theorem ReserveMoves.ofCrit {used' : Info → Prop} {pc' : ReservePc} (hpc : pc.crit = true)
    (h : SharedOk used' a' done) (hown : PcOk used' a' pc') (hlock : a'.alloc = true)
    (hothers : ∀ q : ReservePc, q.crit = false → PcOk used a q → PcOk used' a' q) :
    ReserveMoves used a pc used' a' pc' done where
  shared := h
  own := hown
  others := fun q hq => hothers q (Bool.eq_false_iff.mpr fun hc => absurd hpc (by simp [hq hc]))
  takes := fun _ => ⟨hlock, .inl hpc⟩
  keeps := fun hc => absurd (hpc.symm.trans hc) (by decide)

theorem add_moves (h : SharedOk used a done) {size e : ℕ} (hpc : PcOk used a (.add size p e)) :
    ReserveMoves used a (.add size p e) used (ReservePc.next a (.add size p e)).1
      (ReservePc.next a (.add size p e)).2.1 ((ReservePc.next a (.add size p e)).2.2 ++ done) := by
  obtain ⟨hsize, hp, hle, hend⟩ := hpc
  have hraise : (a.pair p).b ≤ (a.pair p).b + size := Nat.le_add_right _ _
  rw [ReservePc.next]
  split
  · refine ⟨h.raise hraise, hsize, fun q _ hq => hq.raise hraise, ?_, fun _ hl => hl⟩
    intro hc
    cases hc
  -- the addition stays before the end, so the end is that of the pair
  have hcur : (a.pair p).b + size ≤ (a.pair p).e := by omega
  refine ⟨h.reserve hp hsize hcur, trivial, fun q _ hq => hq.raise hraise, ?_, fun _ hl => hl⟩
  intro hc
  cases hc

theorem next_reserveMoves (h : SharedOk used a done) (hpc : PcOk used a pc)
    (hlock : pc.crit = true → a.alloc = true) (hfresh : Fresh a pc) :
    ∃ used', ReserveMoves used a pc used' (pc.next a).1 (pc.next a).2.1
      ((pc.next a).2.2 ++ done) := by
  cases pc with
  | idle => exact ⟨used, .ofRead h hpc hlock id⟩
  | fetch size => exact ⟨used, .ofRead h ⟨hpc, h.ptr⟩ hlock (Bool.false_le _)⟩
  | readEnd size p =>
    exact ⟨used, .ofRead h ⟨hpc.1, hpc.2, le_rfl, .inl rfl⟩ hlock (Bool.false_le _)⟩
  | add size p e => exact ⟨used, add_moves h hpc⟩
  | cas size p e =>
    rw [ReservePc.next]
    split
    · exact ⟨used, .ofRead h hpc hlock (Bool.false_le _)⟩
    rename_i halloc
    have hfree : a.alloc = false := by simpa using halloc
    have hnormal := h.free hfree
    have hnormal' : Normal { a with alloc := true } := ⟨hnormal.ptr2, hnormal.le⟩
    refine ⟨used, h.congr rfl h.ptr (fun _ => hnormal'), ⟨hpc, hnormal'⟩, ?_,
      fun _ => ⟨rfl, .inr hfree⟩, fun _ _ => rfl⟩
    intro q hq hok
    refine hok.congr (Bool.eq_false_iff.mpr ?_) rfl
    intro hc
    cases hfree.symm.trans (hq hc).2
  | compare size p e =>
    rw [ReservePc.next]
    split
    · rename_i hptr
      refine ⟨used, .ofRead h ⟨hpc.1, hpc.2, ?_⟩ hlock (fun _ => rfl)⟩
      rw [hptr]
      exact hfresh hptr
    · exact ⟨used, .ofRead h hpc hlock (fun _ => rfl)⟩
  | readForB size e =>
    obtain ⟨hsize, hnormal, hend⟩ := hpc
    exact ⟨used, .ofRead h ⟨hsize, hnormal, hend, hnormal.ptr2⟩ hlock (fun _ => rfl)⟩
  | swapB size e q =>
    obtain ⟨hsize, hnormal, rfl, rfl⟩ := hpc
    have halloc := hlock rfl
    simp only [ReservePc.next]
    refine ⟨fun _ => True, .ofCrit rfl (h.swapB halloc hnormal) ?_ halloc
      (fun q hq hok => hok.swapB hq hnormal)⟩
    exact ⟨hsize, hnormal.setB _ _, by simp, trivial, by simp⟩
  | readForE size e =>
    obtain ⟨hsize, hnormal, hend, hused, hb⟩ := hpc
    exact ⟨used, .ofRead h ⟨hsize, hnormal, hend, hused, hb, hnormal.ptr2⟩ hlock (fun _ => rfl)⟩
  | writeE size e q =>
    obtain ⟨hsize, hnormal, rfl, hused, hb, rfl⟩ := hpc
    have halloc := hlock rfl
    simp only [ReservePc.next]
    refine ⟨used, .ofCrit rfl (h.writeE halloc hnormal hb) ?_ halloc
      (fun q hq hok => hok.writeE hq hnormal hb)⟩
    refine ⟨hsize, ⟨hnormal.ptr2, ?_⟩, hused⟩
    rw [Alloc.setE_ptr, Alloc.setE_e_same, Alloc.setE_e_of_ne a.ptr.ne_other]
  | readForPtr size =>
    obtain ⟨hsize, hprep, hused⟩ := hpc
    exact ⟨used, .ofRead h ⟨hsize, hprep, hused, hprep.ptr2⟩ hlock (fun _ => rfl)⟩
  | swapPtr size q =>
    obtain ⟨hsize, hprep, hused, rfl⟩ := hpc
    have halloc := hlock rfl
    simp only [ReservePc.next]
    refine ⟨used, .ofCrit rfl (h.congr rfl hused ?_) ?_ halloc (fun q hq hok => hok.congr hq rfl)⟩
    · intro hfree
      cases halloc.symm.trans hfree
    have hend := hprep.e
    refine ⟨hsize, a.ptr.other_other.symm, ?_⟩
    simp only [Info.other_other]
    omega
  | writePtr2 size old =>
    obtain ⟨hsize, rfl, hle⟩ := hpc
    exact ⟨used, .ofCrit rfl (h.congr rfl h.ptr (fun _ => ⟨rfl, hle⟩)) ⟨hsize, ⟨rfl, hle⟩⟩
      (hlock rfl) (fun q hq hok => hok.congr hq rfl)⟩
  | release size =>
    obtain ⟨hsize, hnormal⟩ := hpc
    have hnormal' : Normal { a with alloc := false } := ⟨hnormal.ptr2, hnormal.le⟩
    refine ⟨used, h.congr rfl h.ptr (fun _ => hnormal'), hsize, ?_,
      fun hc => absurd hc Bool.false_ne_true, fun hc => absurd hc.symm Bool.false_ne_true⟩
    intro q hq hok
    refine hok.congr (Bool.eq_false_iff.mpr ?_) rfl
    intro hc
    exact absurd (hq hc).1.symm Bool.false_ne_true
  | wait size =>
    rw [ReservePc.next]
    split
    · exact ⟨used, .ofRead h hpc hlock id⟩
    · exact ⟨used, .ofRead h hpc hlock (Bool.false_le _)⟩

/-! ## Every run -/

section Runs
variable {T : Type} [DecidableEq T] {s : ReserveState T}

/-- **The invariant** of the runs. -/
structure ReserveInv (used : Info → Prop) (s : ReserveState T) : Prop where
  shared : SharedOk used s.shared s.done
  pcs : ∀ t, PcOk used s.shared (s.pc t)
  guard : Guarded ReservePc.crit s.shared.alloc s.pc

omit [DecidableEq T] in
theorem reserveInv_start : ReserveInv (· = .info1) (ReserveState.start : ReserveState T) where
  shared :=
    { ptr := rfl
      free := fun _ => ⟨rfl, le_rfl⟩
      dvd := fun _ => dvd_refl _
      near := fun _ => Nat.le_add_left _ _
      chunks := fun p hp hp' => absurd (hp.symm ▸ hp') p.other_ne
      sep := fun _ _ _ hr => absurd hr List.not_mem_nil
      bound := fun _ hr => absurd hr List.not_mem_nil
      ranges := ⟨.nil, fun _ hr => absurd hr List.not_mem_nil⟩ }
  pcs := fun _ => trivial
  guard := .of_forall_outside fun _ => rfl

theorem ReserveInv.move (h : ReserveInv used s) {t : T} {used' : Info → Prop} {pc' : ReservePc}
    {done' : List (ℕ × ℕ)} (hm : ReserveMoves used s.shared (s.pc t) used' a' pc' done') :
    ReserveInv used' ⟨a', Function.update s.pc t pc', done'⟩ := by
  refine ⟨hm.shared, ?_, h.guard.update hm.takes hm.keeps⟩
  intro u
  by_cases hu : u = t
  · subst hu
    simpa using hm.own
  simp only [Function.update_of_ne hu]
  refine hm.others _ ?_ (h.pcs u)
  intro hcu
  exact ⟨h.guard.outside_of_ne (Ne.symm hu) hcu, h.guard.locked u hcu⟩

theorem reserve_invariant :
    (reserveSystem T Fresh).Invariant fun s => ∃ used, ReserveInv used s where
  init := by
    intro s hs
    rw [show s = .start from hs]
    exact ⟨_, reserveInv_start⟩
  step := by
    rintro s s' ⟨used, h⟩ hstep
    cases hstep with
    | call t size hidle hsize =>
      refine ⟨used, h.move (.ofRead h.shared ?_ (h.guard.locked t) ?_)⟩
      · rw [ReservePc.enter]
        split
        · trivial
        · exact hsize
      · rw [ReservePc.enter]
        split <;> exact Bool.false_le _
    | run t hfresh =>
      obtain ⟨used', hm⟩ := next_reserveMoves h.shared (h.pcs t) (h.guard.locked t) hfresh
      exact ⟨used', h.move hm⟩

/-- **The ranges are apart** in every run in which no thread meets its pair again with another
end. -/
theorem ranges_ok_of_fresh (hs : (reserveSystem T Fresh).Reachable s) : RangesOk s.done := by
  obtain ⟨used, h⟩ := reserve_invariant.reachable hs
  exact h.shared.ranges

instance decidableFresh (a : Alloc) : (pc : ReservePc) → Decidable (Fresh a pc)
  | .compare _ p e => inferInstanceAs (Decidable (a.ptr = p → e = (a.pair p).e))
  | .idle | .fetch _ | .readEnd .. | .add .. | .cas .. | .readForB .. | .swapB .. => .isTrue trivial
  | .readForE .. | .writeE .. | .readForPtr _ | .swapPtr .. | .writePtr2 .. => .isTrue trivial
  | .release _ | .wait _ => .isTrue trivial

section
variable (ok : Alloc → ReservePc → Prop) [∀ a pc, Decidable (ok a pc)]

/-- A call or an operation of a thread, if it is possible. -/
def ReserveState.exec (s : ReserveState T) : T × Option ℕ → Option (ReserveState T)
  | (t, some size) => if s.pc t = .idle ∧ 1 ≤ size then some (s.call t size) else none
  | (t, none) => if ok s.shared (s.pc t) then some (s.run t) else none

theorem exec_step (s : ReserveState T) (op : T × Option ℕ) (s' : ReserveState T)
    (h : s.exec ok op = some s') : (reserveSystem T ok).step s s' := by
  obtain ⟨t, _ | size⟩ := op <;> rw [ReserveState.exec] at h <;> split_ifs at h with hop <;> cases h
  · exact .run s t hop
  · exact .call s t size hop.1 hop.2

end

end Runs

/-- One thread takes the first chunk, the other makes the second one current. -/
def switchRun : List (Bool × Option ℕ) :=
  (false, some 100) :: (true, some 65536) :: List.replicate 3 (true, none)
    ++ List.replicate 16 (false, none)

theorem ranges_ok_switch : ∃ s, (reserveSystem Bool Fresh).Reachable s
    ∧ s.done = [(65536, 100), (0, 65536)] ∧ RangesOk s.done := by
  have hrun : (switchRun.foldlM (ReserveState.exec Fresh) .start).map (·.done)
      = some [(65536, 100), (0, 65536)] := by decide +kernel
  obtain ⟨s, hs, hdone⟩ := Option.map_eq_some_iff.mp hrun
  have hreach := (System.Reachable.init rfl).run (exec_step Fresh) hs
  exact ⟨s, hreach, hdone, ranges_ok_of_fresh hreach⟩

/-- One thread has read the end of the first pair.  The other takes three chunks, so that the pair
is current again, and the first overruns the end it has read. -/
def staleRun : List (Bool × Option ℕ) :=
  (false, some 1) :: List.replicate 2 (false, none)
    ++ (true, some 65536) :: List.replicate 3 (true, none)
    ++ (true, some 65536) :: List.replicate 16 (true, none)
    ++ (true, some 65536) :: List.replicate 16 (true, none)
    ++ List.replicate 14 (false, none)

/-- It makes the second chunk current a second time, and gets a byte that the other thread has. -/
theorem stale_end_overlaps :
    ∃ s, (reserveSystem Bool fun _ _ => True).Reachable s ∧ ¬RangesOk s.done := by
  have hrun : (staleRun.foldlM (ReserveState.exec fun _ _ => True) .start).map (·.done)
      = some [(65536, 1), (131072, 65536), (65536, 65536), (0, 65536)] := by decide +kernel
  obtain ⟨s, hs, hdone⟩ := Option.map_eq_some_iff.mp hrun
  refine ⟨s, (System.Reachable.init rfl).run (exec_step _) hs, ?_⟩
  intro h
  have hapart := h.apart
  rw [hdone] at hapart
  have htwo := (List.pairwise_cons.mp hapart).1 (65536, 65536) (by simp)
  simp [RangesApart] at htwo

end Novachains.Pd
