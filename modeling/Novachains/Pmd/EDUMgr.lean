import Novachains.Lib.Transition
import Mathlib.Data.List.Basic
import Mathlib.Data.Int.Notation

/-!
# The manager of execution units

An execution unit (EDU) is a control block with a queue of events and a thread that waits for them.
The manager keeps the EDUs that run and those that are idle in two maps.  `startEDU` takes an idle
EDU out of the pool and posts `RESUME` to it, or creates an EDU; the thread takes the event, runs
the entry function and returns the EDU to the pool.

Critical sections under the latch and operations on a queue are single steps, and the steps of all
calls and threads interleave in any way.  Calls that have only found the manager not quiesced are
counted; a call that has an EDU is a stage in its control block.  Of the sizes that decide whether
an idle EDU is worth keeping only the outcome is modelled.  Allocations succeed.
-/

namespace Novachains.Pmd

open Function Option

inductive EduStatus
  | creating
  | running
  | waiting
  | idle
  deriving DecidableEq

inductive EduEvent
  | resume
  | term
  | other
  deriving DecidableEq

/-- `_pmdEPItem`: how the EDUs of a type are run. -/
structure EPItem where
  isSystem : Bool
  deriving DecidableEq

def EPItem.isPoolable (item : EPItem) : Bool := !item.isSystem

/-- `PMD_EDU_MIN`, as a type. -/
def eduMin : ℤ := 0

/-- `PMD_EDU_UNKNOW`, as a type. -/
def eduUnknow : ℤ := 4

def eduIdleLowTime : ℕ := 10 * 1000

inductive EduThread
  /-- It does not exist yet. -/
  | none
  /-- Before the loop of `pmdEDUEntryPoint`. -/
  | starting
  /-- At `waitEvent`. -/
  | waitEvent
  /-- At `forceDestory`, after a timeout. -/
  | timedOut
  /-- In `forceDestory`, before the latch. -/
  | destroying
  /-- It has taken an event. -/
  | received (e : EduEvent)
  /-- In the entry function. -/
  | running
  /-- At `returnEDU`. -/
  | returning
  | ended
  deriving DecidableEq

/-- The call that creates an EDU: it has put it into a map, or the thread could not be created. -/
inductive Creator
  | none
  | idle
  | new
  | failedIdle
  | failedNew
  deriving DecidableEq

/-- The call of `startEDU` that was given an EDU: before `clear`, or before the event is posted. -/
inductive Starter
  | none
  | taken
  | cleared
  deriving DecidableEq

/-- A handout: whether `RESUME` was posted, and how often it was taken from the queue. -/
structure Handout where
  posted : Bool
  taken : ℕ
  deriving DecidableEq

/-- The control block of an EDU. -/
structure EDUCB where
  status : EduStatus
  type : ℤ
  queue : List EduEvent
  forced : Bool
  locked : Bool
  /-- In `_mapRuns`. -/
  inRuns : Bool
  /-- In `_mapIdles`. -/
  inIdles : Bool
  deleted : Bool
  thread : EduThread
  idleTime : ℕ
  creator : Creator
  starter : Starter
  handout : Option Handout
  deriving DecidableEq

structure PoolEnv where
  factory : ℤ → Option EPItem
  isDestroyed : Bool
  maxPooledEDU : ℕ

inductive EduAct
  -- `startEDU`, with an EDU of the pool
  | clear | postResume
  -- `createIdleEDU` and `createNewEDU`, with the EDU in a map
  | createThread | threadFails | eraseFailed
  -- `pmdEDUEntryPointWrapper`, before the loop
  | attach | attachThrows
  -- the loop of `pmdEDUEntryPoint`
  | pop | timeOut | checkIdle (keep : Bool) | forceDestory | enter | ignore | returnEDU
  -- the entry function
  | work (status : EduStatus) (locked : Bool) | workPop | entryReturns | entryThrows
  -- requests to force or disconnect
  | post (e : EduEvent) | setForced
  deriving DecidableEq

namespace EDUCB

def unborn : EDUCB :=
  ⟨.idle, eduMin, [], false, false, false, false, false, .none, 0, .none, .none, none⟩

/-- What `createIdleEDU` puts into `_mapIdles`. -/
def newIdle : EDUCB := { unborn with inIdles := true, creator := .idle }

/-- What `createNewEDU` puts into `_mapRuns`. -/
def newRun (type : ℤ) : EDUCB :=
  { unborn with
    status := .creating
    type := type
    queue := [.resume]
    inRuns := true
    creator := .new }

variable (cb : EDUCB)

/-- What `getFromPool` makes of an idle EDU. -/
def handOut (type : ℤ) : EDUCB :=
  { cb with
    status := .creating
    type := type
    inIdles := false
    inRuns := true
    starter := .taken
    handout := some ⟨false, 0⟩ }

def clear : EDUCB := { cb with queue := [], forced := false, locked := false }

/-- `SDB_OSS_DEL`: the destructor clears the block. -/
def delete : EDUCB := { cb.clear with deleted := true }

def take (e : EduEvent) (rest : List EduEvent) : EDUCB :=
  { cb with
    queue := rest
    handout := if e = .resume then cb.handout.map fun h => { h with taken := h.taken + 1 }
      else cb.handout }

def waitEDU : EDUCB :=
  match cb.status with
  | .waiting | .idle => cb
  | .running | .creating => { cb with status := .waiting }

/-- The idle EDUs are searched first. -/
def findAndRemove : EDUCB :=
  if cb.inIdles then { cb with inIdles := false } else { cb with inRuns := false }

def thrown : EDUCB :=
  if cb.inIdles || cb.inRuns then { cb.findAndRemove.delete with thread := .ended }
  else { cb with thread := .ended }

/-- The critical section of `forceDestory`. -/
def forceDestory : EDUCB :=
  if cb.inIdles then { cb.delete with inIdles := false, thread := .ended }
  else if cb.inRuns then
    if cb.status = .creating then { cb with thread := .waitEvent }
    else { cb.delete with inRuns := false, thread := .ended }
  else { cb with thread := .waitEvent }

/-- Whether `returnEDU` destroys the EDU. -/
def toDestory (env : PoolEnv) (cb : EDUCB) : Bool :=
  cb.forced || env.isDestroyed || cb.locked || env.maxPooledEDU == 0 ||
    !(env.factory cb.type).any EPItem.isPoolable

/-- The critical section of `returnEDU`. -/
def returnEDU (env : PoolEnv) (cb : EDUCB) : EDUCB :=
  if cb.status = .creating then { cb with thread := .waitEvent }
  else if cb.inRuns then
    if cb.toDestory env then { cb.delete with inRuns := false, thread := .ended }
    else
      { cb.clear with
        inRuns := false
        inIdles := true
        status := .idle
        type := eduUnknow
        thread := .waitEvent }
  else if cb.inIdles then
    if cb.toDestory env then { cb.delete with inIdles := false, thread := .ended }
    else { cb.clear with thread := .waitEvent }
  else { cb.delete with thread := .ended }

/-- One step of the calls on an EDU and of its thread. -/
def act (env : PoolEnv) (cb : EDUCB) : EduAct → Option EDUCB
  | .clear => if cb.starter = .taken then some { cb.clear with starter := .cleared } else none
  | .postResume =>
    if cb.starter = .cleared then
      some { cb with
        queue := cb.queue ++ [.resume]
        starter := .none
        handout := cb.handout.map fun h => { h with posted := true } }
    else none
  | .createThread =>
    if cb.creator = .idle ∨ cb.creator = .new then
      some { cb with creator := .none, thread := .starting }
    else none
  | .threadFails =>
    match cb.creator with
    | .idle => some { cb.delete with creator := .failedIdle }
    | .new => some { cb.delete with creator := .failedNew }
    | _ => none
  | .eraseFailed =>
    match cb.creator with
    | .failedIdle => some { cb with inIdles := false, creator := .none }
    | .failedNew => some { cb with inRuns := false, creator := .none }
    | _ => none
  | .attach => if cb.thread = .starting then some { cb with thread := .waitEvent } else none
  | .attachThrows => if cb.thread = .starting then some cb.thrown else none
  | .pop =>
    match cb.thread, cb.queue with
    | .waitEvent, e :: rest => some { cb.take e rest with thread := .received e, idleTime := 0 }
    | _, _ => none
  | .timeOut =>
    if cb.thread = .waitEvent then
      some { cb with thread := .timedOut, idleTime := cb.idleTime + 1000 }
    else none
  | .checkIdle keep =>
    if cb.thread = .timedOut then
      if cb.idleTime ≤ eduIdleLowTime ∨ cb.status = .creating ∨ keep then
        some { cb with thread := .waitEvent }
      else some { cb with thread := .destroying }
    else none
  | .forceDestory => if cb.thread = .destroying then some cb.forceDestory else none
  | .enter =>
    if cb.thread = .received .resume then some { cb.waitEDU with thread := .running } else none
  | .ignore =>
    if cb.thread = .received .term ∨ cb.thread = .received .other then
      some { cb with thread := .returning }
    else none
  | .returnEDU => if cb.thread = .returning then some (cb.returnEDU env) else none
  | .work status locked =>
    if cb.thread = .running ∧ (status = .waiting ∨ status = .running) then
      some { cb with status := status, locked := locked }
    else none
  | .workPop =>
    match cb.thread, cb.queue with
    | .running, e :: rest => some (cb.take e rest)
    | _, _ => none
  | .entryReturns =>
    if cb.thread = .running then some { cb.waitEDU with thread := .returning, handout := none }
    else none
  | .entryThrows =>
    if cb.thread = .running then some { cb.thrown with handout := none } else none
  | .post e =>
    if (cb.inRuns ∨ cb.inIdles) ∧ e ≠ .resume then some { cb with queue := cb.queue ++ [e] }
    else none
  | .setForced => if cb.inRuns ∨ cb.inIdles then some { cb with forced := true } else none

theorem act_outside {env : PoolEnv} {cb cb' : EDUCB} {a : EduAct}
    (hact : cb.act env a = some cb') (hruns : cb.inRuns = false) (hidles : cb.inIdles = false) :
    cb'.inRuns = false ∧ cb'.inIdles = false := by
  cases a <;> simp only [EDUCB.act] at hact <;>
    grind -ring -linarith -lia [EDUCB.clear, EDUCB.delete, EDUCB.take, EDUCB.waitEDU, EDUCB.thrown,
      EDUCB.findAndRemove, EDUCB.forceDestory, EDUCB.returnEDU]

end EDUCB

structure EDUMgr where
  edus : ℕ → EDUCB
  nextID : ℕ
  isQuiesced : Bool
  isDestroyed : Bool
  maxPooledEDU : ℕ
  /-- The calls of `startEDU` that have found the manager not quiesced. -/
  startCalls : ℕ
  /-- The calls of `createIdleEDU` that have done so and not yet put an EDU into the map. -/
  idleCalls : ℕ
  /-- The same for `createNewEDU`. -/
  newCalls : ℕ

inductive MgrOp
  | startTest
  | getFromPool (id : ℕ) (type : ℤ)
  | noPool
  | newTest
  | newInsert (type : ℤ)
  | idleTest
  | idleInsert
  | edu (id : ℕ) (a : EduAct)
  | setMaxPooledEDU (n : ℕ)
  | setDestroyed
  | setQuiesced

namespace EDUMgr

def env (factory : ℤ → Option EPItem) (m : EDUMgr) : PoolEnv :=
  ⟨factory, m.isDestroyed, m.maxPooledEDU⟩

def setEdu (m : EDUMgr) (id : ℕ) (cb : EDUCB) : EDUMgr :=
  { m with edus := update m.edus id cb }

def insert (m : EDUMgr) (cb : EDUCB) : EDUMgr :=
  { m.setEdu m.nextID cb with nextID := m.nextID + 1 }

def firstIdle (m : EDUMgr) : Option ℕ := (List.range m.nextID).find? fun id => (m.edus id).inIdles

/-- One step of a call or of a thread. -/
def exec (factory : ℤ → Option EPItem) (m : EDUMgr) : MgrOp → Option EDUMgr
  | .startTest => if m.isQuiesced then some m else some { m with startCalls := m.startCalls + 1 }
  | .getFromPool id type =>
    if 0 < m.startCalls ∧ (factory type).any EPItem.isPoolable ∧ m.firstIdle = some id then
      some { m.setEdu id ((m.edus id).handOut type) with startCalls := m.startCalls - 1 }
    else none
  | .noPool =>
    -- the call goes on with `createNewEDU`, or fails
    if 0 < m.startCalls then some { m with startCalls := m.startCalls - 1 } else none
  | .newTest => if m.isQuiesced then some m else some { m with newCalls := m.newCalls + 1 }
  | .newInsert type =>
    if 0 < m.newCalls then some { m.insert (.newRun type) with newCalls := m.newCalls - 1 }
    else none
  | .idleTest => if m.isQuiesced then some m else some { m with idleCalls := m.idleCalls + 1 }
  | .idleInsert =>
    if 0 < m.idleCalls then some { m.insert .newIdle with idleCalls := m.idleCalls - 1 } else none
  | .edu id a => ((m.edus id).act (m.env factory) a).map (m.setEdu id)
  | .setMaxPooledEDU n => some { m with maxPooledEDU := n }
  | .setDestroyed => some { m with isDestroyed := true }
  | .setQuiesced => some { m with isQuiesced := true }

def new (maxPooledEDU : ℕ) : EDUMgr := ⟨fun _ => .unborn, 0, false, false, maxPooledEDU, 0, 0, 0⟩

section Effect
variable {factory : ℤ → Option EPItem} {m m' : EDUMgr}

theorem firstIdle_spec {id : ℕ} (h : m.firstIdle = some id) :
    id < m.nextID ∧ (m.edus id).inIdles = true :=
  ⟨List.mem_range.1 (List.mem_of_find?_eq_some h),
    List.find?_some (p := fun id => (m.edus id).inIdles) h⟩

/-- A new EDU, and a call that has tested the manager and may put it into a map. -/
def IsNew (m : EDUMgr) (cb : EDUCB) : Prop :=
  (∃ type, cb = .newRun type ∧ 0 < m.newCalls) ∨ (cb = .newIdle ∧ 0 < m.idleCalls)

inductive Effect (factory : ℤ → Option EPItem) (m : EDUMgr) : MgrOp → EDUMgr → Prop
  | keep {op : MgrOp} {m' : EDUMgr} : m'.edus = m.edus → m'.nextID = m.nextID →
      Effect factory m op m'
  | hand {id : ℕ} {type : ℤ} {m' : EDUMgr} : m.firstIdle = some id →
      m'.edus = update m.edus id ((m.edus id).handOut type) → m'.nextID = m.nextID →
      Effect factory m (.getFromPool id type) m'
  | create {op : MgrOp} {cb : EDUCB} {m' : EDUMgr} : m.IsNew cb →
      m'.edus = update m.edus m.nextID cb → m'.nextID = m.nextID + 1 →
      Effect factory m op m'
  | act {id : ℕ} {a : EduAct} {cb : EDUCB} {m' : EDUMgr} :
      (m.edus id).act (m.env factory) a = some cb → m'.edus = update m.edus id cb →
      m'.nextID = m.nextID → Effect factory m (.edu id a) m'

theorem effect_of_exec {op : MgrOp} (hop : m.exec factory op = some m') :
    Effect factory m op m' := by
  cases op <;> simp only [exec, ite_none_right_eq_some, some_inj] at hop
  case startTest | newTest | idleTest =>
    split at hop <;> cases hop <;> exact .keep rfl rfl
  case getFromPool id type =>
    obtain ⟨⟨-, -, hfirst⟩, rfl⟩ := hop
    exact .hand hfirst rfl rfl
  case noPool =>
    obtain ⟨-, rfl⟩ := hop
    exact .keep rfl rfl
  case newInsert type =>
    obtain ⟨hcall, rfl⟩ := hop
    exact .create (Or.inl ⟨type, rfl, hcall⟩) rfl rfl
  case idleInsert =>
    obtain ⟨hcall, rfl⟩ := hop
    exact .create (Or.inr ⟨rfl, hcall⟩) rfl rfl
  case edu id a =>
    obtain ⟨cb, hact, rfl⟩ := map_eq_some_iff.mp hop
    exact .act hact rfl rfl
  case setMaxPooledEDU | setDestroyed | setQuiesced =>
    cases hop
    exact .keep rfl rfl

/-- No EDU has a number from `nextID` on. -/
def Fresh (m : EDUMgr) : Prop := ∀ id, m.nextID ≤ id → m.edus id = .unborn

theorem unborn_act (env : PoolEnv) (a : EduAct) : EDUCB.unborn.act env a = none := by
  cases a <;> simp [EDUCB.act, EDUCB.unborn]

theorem Fresh.effect {op : MgrOp} (h : m.Fresh) (he : Effect factory m op m') : m'.Fresh := by
  intro k hk
  cases he with
  | keep hedus hnext =>
    rw [hedus]
    exact h k (by omega)
  | @hand id _ _ hfirst hedus hnext =>
    have hid := (firstIdle_spec hfirst).1
    have hne : k ≠ id := by omega
    rw [hedus, update_of_ne hne]
    exact h k (by omega)
  | create _ hedus hnext =>
    have hne : k ≠ m.nextID := by omega
    rw [hedus, update_of_ne hne]
    exact h k (by omega)
  | @act id _ _ _ hact hedus hnext =>
    have hne : k ≠ id := by
      rintro rfl
      rw [h k (by omega), unborn_act] at hact
      cases hact
    rw [hedus, update_of_ne hne]
    exact h k (by omega)

end Effect

end EDUMgr

end Novachains.Pmd
