import Novachains.Pmd.EDUMgr

/-!
# Stopping the manager of execution units

`destroyAll` marks the manager as quiesced, forces the EDUs and counts them until there are none
left, or a time has passed.  A call that creates an EDU looks at the mark first and puts the EDU
into a map later, in another critical section: the count in between finds nothing.
-/

namespace Novachains.Pmd

open Lib

/-- The properties `destroyAll` uses: `PMD_EDU_USER` and `PMD_EDU_ALL`. -/
inductive EduProperty
  | user
  | all
  deriving DecidableEq

def EduProperty.hasSystem : EduProperty → Bool
  | .user => false
  | .all => true

def EduProperty.hasUser : EduProperty → Bool
  | .user => true
  | .all => true

def forceIOInterval : ℤ := 200

def forceEDUInterval : ℤ := 100

def EDUCB.force (cb : EDUCB) : EDUCB := { cb with queue := cb.queue ++ [.term], forced := true }

variable (factory : ℤ → Option EPItem)

namespace EDUMgr

def isSystemEDU (cb : EDUCB) : Bool :=
  (factory cb.type).any EPItem.isSystem

/-- The EDUs of `_mapRuns` that a property selects. -/
def selects (property : EduProperty) (cb : EDUCB) : Bool :=
  (property.hasSystem && isSystemEDU factory cb) || (property.hasUser && !isSystemEDU factory cb)

/-- Idle EDUs count as those of users. -/
def getEDUCount (m : EDUMgr) (property : EduProperty) : ℕ :=
  ((List.range m.nextID).countP fun id =>
      (m.edus id).inRuns && selects factory property (m.edus id)) +
    (List.range m.nextID).countP fun id => (m.edus id).inIdles && property.hasUser

/-- What `_forceEDUs` does to one EDU. -/
def forceEDU (property : EduProperty) (cb : EDUCB) : EDUCB :=
  if (cb.inRuns && selects factory property cb) || (cb.inIdles && property.hasUser) then cb.force
  else cb

/-- `_forceEDUs`. -/
def forceEDUs (m : EDUMgr) (property : EduProperty) : EDUMgr :=
  { m with edus := fun id => forceEDU factory property (m.edus id) }

end EDUMgr

inductive StopPc
  /-- There is no call. -/
  | none
  | called
  | destroyed
  /-- Before the monitor is joined. -/
  | quiesced
  /-- In the loop that stops the services. -/
  | services
  /-- In a loop that stops EDUs: before the count, -/
  | count (property : EduProperty)
  /-- after it has found some, -/
  | force (property : EduProperty)
  /-- and after the pause. -/
  | slept (property : EduProperty)
  deriving DecidableEq

structure StopVars where
  normalStop : Bool
  itemTimeout : ℤ
  lastTimeout : ℤ
  timeoutCounter : ℤ
  timeCounter : ℕ
  deriving DecidableEq

def StopVars.new (timeout : ℤ) : StopVars :=
  ⟨true, if timeout > 0 then timeout / 3 else 0x7FFFFFFF, 0, 0, 0⟩

def StopVars.fix (v : StopVars) : StopVars :=
  { v with
    lastTimeout :=
      if v.timeoutCounter < v.itemTimeout + v.lastTimeout then
        v.itemTimeout + v.lastTimeout - v.timeoutCounter
      else v.lastTimeout
    timeoutCounter := 0
    timeCounter := 0 }

/-- The manager, a call of `destroyAll`, and whether one has returned `TRUE`. -/
structure StopState where
  mgr : EDUMgr
  pc : StopPc
  vars : StopVars
  stopped : Bool

/-- The steps of all calls and threads, of which `destroyAll` takes those that set the marks. -/
inductive StopOp
  | mgr (op : MgrOp)
  | call (timeout : ℤ)
  /-- The next step of `destroyAll`, and whether it would find a service. -/
  | destroyAll (service : Bool)

namespace StopState

def leave (s : StopState) : EduProperty → StopState
  | .user => { s with pc := .count .all, vars := s.vars.fix }
  | .all => { s with pc := .none, stopped := s.stopped || s.vars.normalStop }

/-- One step of `destroyAll`. -/
def destroyAll (service : Bool) (s : StopState) : Option StopState :=
  match s.pc with
  | .none => none
  | .called => some { s with mgr := { s.mgr with isDestroyed := true }, pc := .destroyed }
  | .destroyed => some { s with mgr := { s.mgr with isQuiesced := true }, pc := .quiesced }
  | .quiesced => some { s with pc := .services }
  | .services =>
    if service then
      let v := { s.vars with timeoutCounter := s.vars.timeoutCounter + forceIOInterval }
      if v.timeoutCounter ≥ v.itemTimeout + v.lastTimeout then
        some { s with pc := .count .user, vars := { v with normalStop := false }.fix }
      else some { s with vars := v }
    else some { s with pc := .count .user, vars := s.vars.fix }
  | .count property =>
    if s.mgr.getEDUCount factory property = 0 then some (s.leave property)
    else some { s with pc := .force property }
  | .force property =>
    some { s with
      mgr := if s.vars.timeCounter % 50 = 0 then s.mgr.forceEDUs factory property else s.mgr
      pc := .slept property
      vars := { s.vars with
        timeCounter := s.vars.timeCounter + 1
        timeoutCounter := s.vars.timeoutCounter + forceEDUInterval } }
  | .slept property =>
    if s.vars.timeoutCounter > s.vars.itemTimeout + s.vars.lastTimeout then
      some ({ s with vars := { s.vars with normalStop := false } }.leave property)
    else some { s with pc := .count property }

def exec (s : StopState) : StopOp → Option StopState
  | .mgr .setDestroyed | .mgr .setQuiesced => none
  | .mgr op => (s.mgr.exec factory op).map fun m => { s with mgr := m }
  | .call timeout =>
    if s.pc = .none then some { s with pc := .called, vars := .new timeout } else none
  | .destroyAll service => s.destroyAll factory service

def new (maxPooledEDU : ℕ) : StopState := ⟨.new maxPooledEDU, .none, .new 0, false⟩

end StopState

/-- **After a normal stop there is no EDU.** -/
def StoppedEmpty (s : StopState) : Prop :=
  s.stopped = true → ∀ id, (s.mgr.edus id).inRuns = false ∧ (s.mgr.edus id).inIdles = false

/-- When the last count of a normal stop finds no EDU, no call is between its test of the mark and
the map. -/
def StopOp.Safe (s : StopState) : StopOp → Prop
  | .destroyAll _ =>
    s.pc = .count .all ∧ s.vars.normalStop = true ∧ s.mgr.getEDUCount factory .all = 0 →
      s.mgr.newCalls = 0 ∧ s.mgr.idleCalls = 0
  | _ => True

def stopSystem : System StopState where
  init s := ∃ n, s = .new n
  step s s' := ∃ op, s.exec factory op = some s'

def safeStopSystem : System StopState where
  init s := ∃ n, s = .new n
  step s s' := ∃ op : StopOp, op.Safe factory s ∧ s.exec factory op = some s'

section Manager
variable {factory : ℤ → Option EPItem} {m m' : EDUMgr}

namespace EDUMgr

structure Closed (m : EDUMgr) : Prop where
  quiesced : m.isQuiesced = true
  newCalls : m.newCalls = 0
  idleCalls : m.idleCalls = 0
  empty : ∀ id, (m.edus id).inRuns = false ∧ (m.edus id).inIdles = false

theorem exec_quiesced {op : MgrOp} (hop : m.exec factory op = some m')
    (hq : m.isQuiesced = true) :
    m'.isQuiesced = true ∧ m'.newCalls ≤ m.newCalls ∧ m'.idleCalls ≤ m.idleCalls := by
  cases op <;> simp only [exec, Option.map_eq_some_iff] at hop <;> grind [setEdu, insert]

/-- **No step brings an EDU into a closed manager.** -/
theorem Closed.exec {op : MgrOp} (h : m.Closed) (hop : m.exec factory op = some m') :
    m'.Closed := by
  obtain ⟨hq, hnew, hidle⟩ := exec_quiesced hop h.quiesced
  have hnew0 := h.newCalls
  have hidle0 := h.idleCalls
  refine ⟨hq, by omega, by omega, ?_⟩
  intro k
  cases effect_of_exec hop with
  | keep hedus _ =>
    rw [hedus]
    exact h.empty k
  | @hand id _ _ hfirst _ _ =>
    have hidles := (firstIdle_spec hfirst).2
    rw [(h.empty id).2] at hidles
    cases hidles
  | create hnew _ _ =>
    obtain ⟨_, _, hcall⟩ | ⟨_, hcall⟩ := hnew
    · omega
    · omega
  | @act id _ _ _ hact hedus _ =>
    rw [hedus, Function.update_apply]
    split
    · exact EDUCB.act_outside hact (h.empty id).1 (h.empty id).2
    · exact h.empty k

@[simp] theorem forceEDU_inRuns (property : EduProperty) (cb : EDUCB) :
    (forceEDU factory property cb).inRuns = cb.inRuns := by
  unfold forceEDU
  split <;> rfl

@[simp] theorem forceEDU_inIdles (property : EduProperty) (cb : EDUCB) :
    (forceEDU factory property cb).inIdles = cb.inIdles := by
  unfold forceEDU
  split <;> rfl

theorem Closed.forceEDUs (h : m.Closed) (property : EduProperty) :
    (m.forceEDUs factory property).Closed :=
  ⟨h.quiesced, h.newCalls, h.idleCalls, fun id => by simpa [EDUMgr.forceEDUs] using h.empty id⟩

theorem Fresh.forceEDUs (h : m.Fresh) (property : EduProperty) :
    (m.forceEDUs factory property).Fresh := by
  intro id hid
  show forceEDU factory property (m.edus id) = .unborn
  rw [h id hid]
  rfl

theorem Fresh.empty_of_count (h : m.Fresh) (hcount : m.getEDUCount factory .all = 0) (id : ℕ) :
    (m.edus id).inRuns = false ∧ (m.edus id).inIdles = false := by
  by_cases hid : id < m.nextID
  · have hmem : id ∈ List.range m.nextID := List.mem_range.2 hid
    obtain ⟨hruns, hidles⟩ := Nat.add_eq_zero_iff.1 hcount
    have hruns := List.countP_eq_zero.1 hruns id hmem
    have hidles := List.countP_eq_zero.1 hidles id hmem
    constructor
    · cases hsys : isSystemEDU factory (m.edus id) <;>
        simpa [selects, EduProperty.hasSystem, EduProperty.hasUser, hsys] using hruns
    · simpa [EduProperty.hasUser] using hidles
  · rw [h id (by omega)]
    exact ⟨rfl, rfl⟩

end EDUMgr

end Manager

/-! ## The stop -/

section Stop
variable {factory : ℤ → Option EPItem} {s s' : StopState}

/-- The places of `destroyAll` after it has set the mark. -/
def StopPc.Marked : StopPc → Prop
  | .none | .called | .destroyed => False
  | _ => True

/-- **The invariant of a stop.** -/
structure StopInv (s : StopState) : Prop where
  fresh : s.mgr.Fresh
  marked : s.pc.Marked → s.mgr.isQuiesced = true
  closed : s.stopped = true → s.mgr.Closed

theorem StopInv.leave (h : StopInv s) (hq : s.mgr.isQuiesced = true) {property : EduProperty}
    (hend : property = .all → s.vars.normalStop = true → s.mgr.Closed) :
    StopInv (s.leave property) := by
  cases property with
  | user => exact ⟨h.fresh, fun _ => hq, h.closed⟩
  | all =>
    refine ⟨h.fresh, fun hm => hm.elim, ?_⟩
    intro hstop
    obtain hs | hs : s.stopped = true ∨ s.vars.normalStop = true := by
      simpa [StopState.leave] using hstop
    · exact h.closed hs
    · exact hend rfl hs

/-- **A safe step of `destroyAll` keeps the invariant.** -/
theorem StopInv.destroyAll {service : Bool} (h : StopInv s)
    (hsafe : (StopOp.destroyAll service).Safe factory s)
    (hop : s.destroyAll factory service = some s') : StopInv s' := by
  unfold StopState.destroyAll at hop
  split at hop
  case h_1 => cases hop
  case h_2 =>
    cases hop
    refine ⟨h.fresh, fun hm => hm.elim, ?_⟩
    intro hstop
    obtain ⟨hq, hnew, hidle, hempty⟩ := h.closed hstop
    exact ⟨hq, hnew, hidle, hempty⟩
  case h_3 =>
    cases hop
    refine ⟨h.fresh, fun _ => rfl, ?_⟩
    intro hstop
    obtain ⟨-, hnew, hidle, hempty⟩ := h.closed hstop
    exact ⟨rfl, hnew, hidle, hempty⟩
  case h_4 hpc =>
    have hq := h.marked (by rw [hpc]; trivial)
    cases hop
    exact ⟨h.fresh, fun _ => hq, h.closed⟩
  case h_5 hpc =>
    have hq := h.marked (by rw [hpc]; trivial)
    dsimp only at hop
    split_ifs at hop <;> cases hop <;> exact ⟨h.fresh, fun _ => hq, h.closed⟩
  case h_6 property hpc =>
    have hq := h.marked (by rw [hpc]; trivial)
    split at hop
    · rename_i hcount
      cases hop
      refine h.leave hq ?_
      rintro rfl hnormal
      obtain ⟨hnew, hidle⟩ := hsafe ⟨hpc, hnormal, hcount⟩
      exact ⟨hq, hnew, hidle, h.fresh.empty_of_count hcount⟩
    · cases hop
      exact ⟨h.fresh, fun _ => hq, h.closed⟩
  case h_7 property hpc =>
    have hq := h.marked (by rw [hpc]; trivial)
    cases hop
    split
    · exact ⟨h.fresh.forceEDUs property, fun _ => hq, fun hs => (h.closed hs).forceEDUs property⟩
    · exact ⟨h.fresh, fun _ => hq, h.closed⟩
  case h_8 property hpc =>
    have hq := h.marked (by rw [hpc]; trivial)
    split at hop <;> cases hop
    · -- the time has passed, so that the stop is not normal
      have h' : StopInv { s with vars := { s.vars with normalStop := false } } :=
        ⟨h.fresh, fun _ => hq, h.closed⟩
      exact h'.leave hq nofun
    · exact ⟨h.fresh, fun _ => hq, h.closed⟩

theorem StopInv.mgr (h : StopInv s) {op : MgrOp} {m : EDUMgr}
    (hop : s.mgr.exec factory op = some m) : StopInv { s with mgr := m } where
  fresh := h.fresh.effect (EDUMgr.effect_of_exec hop)
  marked hm := (EDUMgr.exec_quiesced hop (h.marked hm)).1
  closed hs := (h.closed hs).exec hop

theorem StopState.exec_mgr {op : MgrOp} (hop : s.exec factory (.mgr op) = some s') :
    ∃ m, s.mgr.exec factory op = some m ∧ { s with mgr := m } = s' := by
  cases op <;> simp only [StopState.exec, Option.map_eq_some_iff, reduceCtorEq] at hop <;> exact hop

theorem stopInv_invariant : (safeStopSystem factory).Invariant StopInv where
  init := by
    rintro s ⟨n, rfl⟩
    exact ⟨fun _ _ => rfl, fun hm => hm.elim, nofun⟩
  step := by
    rintro s s' h ⟨op, hsafe, hop⟩
    cases op with
    | mgr op =>
      obtain ⟨m, hm, rfl⟩ := StopState.exec_mgr hop
      exact h.mgr hm
    | call timeout =>
      simp only [StopState.exec, Option.ite_none_right_eq_some, Option.some_inj] at hop
      obtain ⟨-, rfl⟩ := hop
      exact ⟨h.fresh, fun hm => hm.elim, h.closed⟩
    | destroyAll service => exact h.destroyAll hsafe hop

/-- **After a normal stop there is no EDU and none appears**, if no call is about to add one when
the last count finds none. -/
theorem stopped_empty (hs : (safeStopSystem factory).Reachable s) : StoppedEmpty s := by
  intro hstop
  exact ((stopInv_invariant.reachable hs).closed hstop).empty

end Stop

def systemFactory (_ : ℤ) : Option EPItem := some ⟨true⟩

instance (s : StopState) : (op : StopOp) → Decidable (op.Safe factory s)
  | .destroyAll _ => inferInstanceAs (Decidable (_ ∧ _ ∧ _ → _ ∧ _))
  | .mgr _ | .call _ => .isTrue trivial

def StopState.safeExec (s : StopState) (op : StopOp) : Option StopState :=
  if op.Safe factory s then s.exec factory op else none

/-- An EDU runs; the stop forces it, and it is deleted when its entry function returns.  A call of
`createNewEDU` finds the mark. -/
def forcedRun : List StopOp :=
  [.mgr .newTest, .mgr (.newInsert 0), .mgr (.edu 0 .createThread), .mgr (.edu 0 .attach),
    .mgr (.edu 0 .pop), .mgr (.edu 0 .enter), .call 60000]
  ++ List.replicate 7 (.destroyAll false)
  ++ [.mgr .newTest, .mgr (.edu 0 .workPop), .mgr (.edu 0 .entryReturns), .mgr (.edu 0 .returnEDU)]
  ++ List.replicate 2 (.destroyAll false)

theorem stopped_empty_forced : ∃ s, (s.mgr.edus 0).deleted = true ∧ s.stopped = true ∧
    StoppedEmpty s := by
  have hrun : (forcedRun.foldlM (StopState.safeExec systemFactory) (.new 1)).map
      (fun s => ((s.mgr.edus 0).deleted, s.stopped)) = some (true, true) := by decide +kernel
  obtain ⟨s, hs, heq⟩ := Option.map_eq_some_iff.mp hrun
  obtain ⟨hdel, hstop⟩ := Prod.mk.inj heq
  have hnew : (safeStopSystem systemFactory).Reachable (.new 1) := .init ⟨1, rfl⟩
  exact ⟨s, hdel, hstop, stopped_empty
    (hnew.run (fun _ op _ h => ⟨op, Option.ite_none_right_eq_some.mp h⟩) hs)⟩

def lateRun : List StopOp :=
  .mgr .newTest :: .call 60000 :: List.replicate 6 (.destroyAll false) ++ [.mgr (.newInsert 0)]

/-- **An EDU can appear after a normal stop**: `createNewEDU` has tested the mark before. -/
theorem edu_after_stop :
    ∃ s, (stopSystem systemFactory).Reachable s ∧ s.stopped = true ∧
      (s.mgr.edus 0).inRuns = true ∧ ¬StoppedEmpty s := by
  have hrun : (lateRun.foldlM (StopState.exec systemFactory) (.new 1)).map
      (fun s => (s.stopped, (s.mgr.edus 0).inRuns)) = some (true, true) := by decide +kernel
  obtain ⟨s, hs, heq⟩ := Option.map_eq_some_iff.mp hrun
  obtain ⟨hstop, hruns⟩ := Prod.mk.inj heq
  have hnew : (stopSystem systemFactory).Reachable (.new 1) := .init ⟨1, rfl⟩
  refine ⟨s, hnew.run (fun _ op _ h => ⟨op, h⟩) hs, hstop, hruns, ?_⟩
  intro hempty
  cases hruns.symm.trans (hempty hstop 0).1

end Novachains.Pmd
