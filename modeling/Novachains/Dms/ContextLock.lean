import Novachains.Dms.FreeSpace

/-!
# The lock calls of a collection context

`FreeSpace` has the lock calls of a context that nobody disturbs.  Here the in-use flag and the
logical ID of the block may change between any two reads, a try-lock may fail, and the latch is a
state of its own.
-/

namespace Novachains.Dms

/-- What a thread holds of a latch; `misused` if it was taken twice or released in a wrong mode. -/
inductive HeldLatch
  | held (mode : Option Latch)
  | misused
  deriving DecidableEq, Repr

namespace HeldLatch

def get (mode : Latch) : HeldLatch → HeldLatch
  | .held none => .held (some mode)
  | _ => .misused

def release (mode : Latch) : HeldLatch → HeldLatch
  | .held (some m) => if m = mode then .held none else .misused
  | _ => .misused

end HeldLatch

/-- `_mb->_flag` and `_mb->_logicalID` as one check of a lock call reads them. -/
structure BlockSeen where
  inUse : Bool
  logicalID : ℕ
  deriving DecidableEq, Repr

/-- What the others let a lock call see: the block before and after the latch, and what
`try_get` answers. -/
structure LockSeen where
  before : BlockSeen
  hasLock : Bool
  after : BlockSeen
  deriving DecidableEq, Repr

/-- `_dmsMBContext` and what its thread holds of `_latch`. -/
structure LatchedContext where
  ctx : MBContext
  latch : HeldLatch
  deriving DecidableEq, Repr

namespace LatchedContext

variable (s : LatchedContext)

/-- `mbUnlock`, which always returns `SDB_OK`. -/
def mbUnlock : LatchedContext :=
  match s.ctx.mbLockType with
  | none => s
  | some mode =>
    { ctx := { s.ctx with resumeType := some mode, mbLockType := none }
      latch := s.latch.release mode }

/-- `pause`, which returns what `mbUnlock` returns. -/
def pause : LatchedContext :=
  let s := { s with ctx := { s.ctx with resumeType := s.ctx.mbLockType } }
  if s.ctx.mbLockType ≠ none then s.mbUnlock else s

/-- One of the two checks of `_mbLock`. -/
def gone (force : Bool) (seen : BlockSeen) : Bool :=
  !force && (!seen.inUse || s.ctx.clLID ≠ seen.logicalID)

/-- `_mbLock`; `none` is a lock type that is neither `SHARED` nor `EXCLUSIVE`. -/
def lockAs (lockType : Option Latch) (isTry force : Bool) (seen : LockSeen) :
    Rc × LatchedContext :=
  match lockType with
  | none => (.invalidArg, s)
  | some mode =>
    if s.ctx.mbLockType = some mode then (.ok, s)
    else
      let s := if s.ctx.mbLockType ≠ none then s.pause else s
      if s.gone force seen.before then (.dmsNotExist, s)
      else if isTry && !seen.hasLock then (.timeout, s)
      else
        let s := { s with latch := s.latch.get mode }
        if s.gone force seen.after then (.dmsNotExist, { s with latch := s.latch.release mode })
        else (.ok, { s with ctx := { s.ctx with mbLockType := some mode, resumeType := none } })

def mbLock (lockType : Option Latch) (seen : LockSeen) :
    Rc × LatchedContext :=
  s.lockAs lockType false false seen

def mbTryLock (lockType : Option Latch) (force : Bool) (seen : LockSeen) :
    Rc × LatchedContext :=
  s.lockAs lockType true force seen

def resume (seen : LockSeen) : Rc × LatchedContext :=
  match s.ctx.resumeType with
  | none => (.ok, s)
  | some mode => ({ s with ctx := { s.ctx with resumeType := none } } : LatchedContext).mbLock
      (some mode) seen

end LatchedContext

inductive ContextCall
  | mbLock (lockType : Option Latch) (seen : LockSeen)
  | mbTryLock (lockType : Option Latch) (force : Bool) (seen : LockSeen)
  | mbUnlock
  | pause
  | resume (seen : LockSeen)
  deriving DecidableEq, Repr

namespace LatchedContext

def call (s : LatchedContext) : ContextCall → Rc × LatchedContext
  | .mbLock lockType seen => s.mbLock lockType seen
  | .mbTryLock lockType force seen => s.mbTryLock lockType force seen
  | .mbUnlock => (.ok, s.mbUnlock)
  | .pause => (.ok, s.pause)
  | .resume seen => s.resume seen

/-- A new context, after the given calls. -/
def run (mbID clLID : ℕ) (calls : List ContextCall) : LatchedContext :=
  calls.foldl (fun s c => (s.call c).2) ⟨⟨mbID, clLID, none, none⟩, .held none⟩

structure Inv (s : LatchedContext) : Prop where
  latch_eq : s.latch = .held s.ctx.mbLockType
  resumeType_eq : s.ctx.mbLockType ≠ none → s.ctx.resumeType = none

/-- What a call makes of `s`: if it loses the lock, it remembers the lock type. -/
structure Keeps (s s' : LatchedContext) : Prop where
  inv : s'.Inv
  remembers : ∀ m, s.ctx.mbLockType = some m → s'.ctx.mbLockType = none →
    s'.ctx.resumeType = some m

variable {s : LatchedContext}

theorem Inv.keeps_self (h : s.Inv) : s.Keeps s := by
  refine ⟨h, fun m hm hnone => ?_⟩
  rw [hm] at hnone
  cases hnone

theorem Inv.mbUnlock (h : s.Inv) : s.Keeps s.mbUnlock ∧ s.mbUnlock.ctx.mbLockType = none := by
  have hlatch := h.latch_eq
  cases hm : s.ctx.mbLockType with
  | none =>
    rw [LatchedContext.mbUnlock, hm]
    exact ⟨h.keeps_self, hm⟩
  | some mode =>
    rw [LatchedContext.mbUnlock, hm]
    refine ⟨⟨⟨?_, by simp⟩, fun m hmode _ => by rw [← hmode, hm]⟩, rfl⟩
    simp [hlatch, hm, HeldLatch.release]

/-- Unlocking sets the resume type itself, so that a pause that unlocks is an unlock. -/
theorem pause_eq (hlock : s.ctx.mbLockType ≠ none) : s.pause = s.mbUnlock := by
  obtain ⟨mode, hm⟩ := Option.ne_none_iff_exists'.mp hlock
  simp [pause, LatchedContext.mbUnlock, hm]

theorem Inv.pause (h : s.Inv) : s.Keeps s.pause := by
  by_cases hlock : s.ctx.mbLockType = none
  · have hlatch := h.latch_eq
    refine ⟨⟨?_, ?_⟩, ?_⟩ <;> simp_all [LatchedContext.pause]
  · rw [pause_eq hlock]
    exact h.mbUnlock.1

theorem Inv.lockAs (h : s.Inv) (lockType : Option Latch) (isTry force : Bool) (seen : LockSeen) :
    s.Keeps (s.lockAs lockType isTry force seen).2 := by
  cases lockType with
  | none => exact h.keeps_self
  | some mode =>
    by_cases hsame : s.ctx.mbLockType = some mode
    · simpa [LatchedContext.lockAs, hsame] using h.keeps_self
    -- whatever was held is given back before the new latch is taken
    obtain ⟨s', hs', hkeeps, hnone⟩ : ∃ s', (if s.ctx.mbLockType ≠ none then s.pause else s) = s' ∧
        s.Keeps s' ∧ s'.ctx.mbLockType = none := by
      refine ⟨_, rfl, ?_⟩
      split_ifs with hlock
      · rw [pause_eq hlock]
        exact h.mbUnlock
      · exact ⟨h.keeps_self, not_not.mp hlock⟩
    have hget : s'.latch.get mode = .held (some mode) := by
      rw [hkeeps.inv.latch_eq, hnone]
      rfl
    simp only [LatchedContext.lockAs, if_neg hsame, hs', hget]
    split_ifs
    · exact hkeeps
    · exact hkeeps
    · refine ⟨⟨?_, hkeeps.inv.resumeType_eq⟩, hkeeps.remembers⟩
      simp [HeldLatch.release, hnone]
    · exact ⟨⟨rfl, by simp⟩, by simp⟩

/-- A context that is not locked and remembers a lock type resumes with it, or fails. -/
theorem resume_ok {m : Latch} {seen : LockSeen} (hnone : s.ctx.mbLockType = none)
    (hm : s.ctx.resumeType = some m) (hok : (s.resume seen).1 = .ok) :
    (s.resume seen).2.ctx.mbLockType = some m := by
  simp only [resume, hm, mbLock, lockAs, hnone] at hok ⊢
  split_ifs at hok ⊢ <;> simp_all

theorem Inv.resume (h : s.Inv) (seen : LockSeen) : s.Keeps (s.resume seen).2 := by
  unfold LatchedContext.resume
  cases hr : s.ctx.resumeType with
  | none => exact h.keeps_self
  | some mode =>
    have hnone : s.ctx.mbLockType = none := by
      by_contra hlock
      rw [h.resumeType_eq hlock] at hr
      cases hr
    have hcleared : ({ s with ctx := { s.ctx with resumeType := none } } : LatchedContext).Inv :=
      ⟨h.latch_eq, fun _ => rfl⟩
    refine ⟨(hcleared.lockAs (some mode) false false seen).inv, fun m hm => ?_⟩
    rw [hnone] at hm
    cases hm

theorem Inv.call (h : s.Inv) (c : ContextCall) : s.Keeps (s.call c).2 := by
  cases c with
  | mbLock lockType seen => exact h.lockAs lockType false false seen
  | mbTryLock lockType force seen => exact h.lockAs lockType true force seen
  | mbUnlock => exact h.mbUnlock.1
  | pause => exact h.pause
  | resume seen => exact h.resume seen

theorem run_inv (mbID clLID : ℕ) (calls : List ContextCall) : (run mbID clLID calls).Inv := by
  unfold run
  induction calls using List.reverseRecOn with
  | nil => exact ⟨rfl, by simp⟩
  | append_singleton calls c ih =>
    rw [List.foldl_concat]
    exact (ih.call c).inv

/-- The thread holds the latch in the recorded mode, has not misused it, and a resume gives the lost
mode. -/
theorem context_knows_latch (mbID clLID : ℕ) (calls : List ContextCall) :
    (run mbID clLID calls).latch = .held (run mbID clLID calls).ctx.mbLockType ∧
    ∀ c seen mode, (run mbID clLID calls).ctx.mbLockType = some mode →
      ((run mbID clLID calls).call c).2.ctx.mbLockType = none →
      (((run mbID clLID calls).call c).2.resume seen).1 = .ok →
      (((run mbID clLID calls).call c).2.resume seen).2.ctx.mbLockType = some mode := by
  have h := run_inv mbID clLID calls
  refine ⟨h.latch_eq, fun c seen mode hheld hlost hok => ?_⟩
  exact resume_ok hlost ((h.call c).remembers mode hheld hlost) hok

end LatchedContext
end Novachains.Dms
