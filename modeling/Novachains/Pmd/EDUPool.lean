import Novachains.Pmd.EDUMgr

/-!
# An EDU of the pool is kept until it has run

An EDU that was handed out is marked as being created.  Its thread, which may be about to destroy it
or to return it to the pool, looks at the mark under the latch and leaves it alone.

An idle EDU is in the pool before its thread is created.  If that fails the EDU is deleted, whether
or not it was handed out in the meantime.
-/

namespace Novachains.Pmd

open Lib Option

/-- **An EDU that is handed out is kept**: it runs, and its event is queued or was taken, once. -/
def HandoutKept (m : EDUMgr) : Prop :=
  ∀ id h, (m.edus id).handout = some h →
    (m.edus id).inRuns = true ∧ (m.edus id).deleted = false ∧
      h.taken + (m.edus id).queue.count .resume = (if h.posted then 1 else 0) ∧
      ((m.edus id).thread = .running → h.taken = 1)

/-- It stays handed out until its entry function ends, and then the event was taken once. -/
def HandoutEnds (factory : ℤ → Option EPItem) (m : EDUMgr) : Prop :=
  ∀ op m' id h, m.exec factory op = some m' → (m.edus id).handout = some h →
    (m'.edus id).handout = none →
      h.taken = 1 ∧ (op = .edu id .entryReturns ∨ op = .edu id .entryThrows)

/-- The steps on an EDU that do not take its thread away while it is handed out. -/
def EduAct.Safe (cb : EDUCB) : EduAct → Prop
  | .threadFails | .attachThrows => cb.handout = none
  | _ => True

/-- No thread of an EDU that is handed out fails to start, and no EDU is handed out whose thread
could not be created. -/
def MgrOp.Safe (m : EDUMgr) : MgrOp → Prop
  | .edu id a => a.Safe (m.edus id)
  | .getFromPool id _ => (m.edus id).deleted = false
  | _ => True

def mgrSystem (factory : ℤ → Option EPItem) : System EDUMgr where
  init m := ∃ n, m = .new n
  step m m' := ∃ op, m.exec factory op = some m'

def safeMgrSystem (factory : ℤ → Option EPItem) : System EDUMgr where
  init m := ∃ n, m = .new n
  step m m' := ∃ op, op.Safe m ∧ m.exec factory op = some m'

/-! ## One EDU -/

/-- In the loop, or not yet there, without a `RESUME` in hand. -/
def EduThread.Loops (t : EduThread) : Prop := t ≠ .received .resume ∧ t ≠ .running ∧ t ≠ .ended

namespace EDUCB

inductive Stage (cb : EDUCB) (h : Handout) : Prop
  | given : cb.starter ≠ .none → h = ⟨false, 0⟩ → cb.queue.count .resume = 0 →
      cb.status = .creating → cb.thread.Loops → Stage cb h
  | posted : cb.starter = .none → h = ⟨true, 0⟩ → cb.queue.count .resume = 1 →
      cb.status = .creating → cb.thread.Loops → Stage cb h
  | taken : cb.starter = .none → h = ⟨true, 1⟩ → cb.queue.count .resume = 0 →
      cb.thread = .received .resume ∨ cb.thread = .running → Stage cb h

/-- **The invariant of an EDU.** -/
structure Inv (cb : EDUCB) : Prop where
  idle : cb.inIdles = true → cb.inRuns = false ∧ cb.status = .idle ∧ cb.handout = none ∧
    cb.queue.count .resume = 0 ∧ cb.thread.Loops
  starter : cb.handout = none → cb.starter = .none
  handed : ∀ h, cb.handout = some h →
    cb.inRuns = true ∧ cb.inIdles = false ∧ cb.deleted = false ∧ cb.Stage h
  noThread : cb.creator ≠ .none → cb.thread = .none
  new : cb.creator = .new ∨ cb.creator = .failedNew → cb.inIdles = false ∧ cb.handout = none

variable {env : PoolEnv} {cb cb' : EDUCB}

theorem waitEDU_eq (cb : EDUCB) : cb.waitEDU = { cb with status := cb.waitEDU.status } := by
  unfold waitEDU
  split <;> rfl

@[simp] theorem thrown_handout (cb : EDUCB) : cb.thrown.handout = cb.handout := by
  simp only [thrown, findAndRemove]
  split_ifs <;> rfl

@[simp] theorem thrown_starter (cb : EDUCB) : cb.thrown.starter = cb.starter := by
  simp only [thrown, findAndRemove]
  split_ifs <;> rfl

@[simp] theorem thrown_creator (cb : EDUCB) : cb.thrown.creator = cb.creator := by
  simp only [thrown, findAndRemove]
  split_ifs <;> rfl

@[simp] theorem thrown_inIdles (cb : EDUCB) : cb.thrown.inIdles = false := by
  cases hidle : cb.inIdles <;> simp only [thrown, findAndRemove, delete, clear, hidle]
  · split_ifs <;> rfl
  · rfl

attribute [local simp] EduThread.Loops

theorem inv_unborn : Inv unborn := by
  constructor <;> simp [unborn]

theorem inv_newIdle : Inv newIdle := by
  constructor <;> simp [newIdle, unborn]

theorem inv_newRun (type : ℤ) : Inv (newRun type) := by
  constructor <;> simp [newRun, unborn]

theorem Inv.handOut (h : Inv cb) (hidle : cb.inIdles = true) (hdel : cb.deleted = false)
    (type : ℤ) : Inv (cb.handOut type) := by
  obtain ⟨-, -, -, hcount, hloops⟩ := h.idle hidle
  constructor
  · simp [EDUCB.handOut]
  · simp [EDUCB.handOut]
  · intro x hx
    obtain rfl : ⟨false, 0⟩ = x := by simpa [EDUCB.handOut] using hx
    exact ⟨rfl, rfl, hdel, .given (by simp [EDUCB.handOut]) rfl hcount rfl hloops⟩
  · exact h.noThread
  intro hnew
  have := (h.new hnew).1
  rw [hidle] at this
  cases this

theorem Inv.not_handed (h : Inv cb) (ht : cb.thread.Loops) (hs : cb.status ≠ .creating) :
    cb.handout = none := by
  cases hh : cb.handout with
  | none => rfl
  | some x =>
    obtain ⟨-, -, -, hstage⟩ := h.handed x hh
    cases hstage with
    | given _ _ _ hc _ => exact absurd hc hs
    | posted _ _ _ hc _ => exact absurd hc hs
    | taken _ _ _ hrun => simp_all

theorem Inv.of_free (hh : cb.handout = none) (hs : cb.starter = .none) (hidle : cb.inIdles = false)
    (hc : cb.creator = .none) : Inv cb := by
  constructor <;> simp [hh, hs, hidle, hc]

theorem Inv.loop (h : Inv cb) (ht : cb.thread.Loops) (hn : cb.thread ≠ .none) {t : EduThread}
    (ht' : t.Loops) (n : ℕ) : Inv { cb with thread := t, idleTime := n } where
  idle hidle := by
    obtain ⟨hruns, hs, hh, hcount, -⟩ := h.idle hidle
    exact ⟨hruns, hs, hh, hcount, ht'⟩
  starter := h.starter
  handed x hx := by
    obtain ⟨hruns, hidle, hdel, hstage⟩ := h.handed x hx
    refine ⟨hruns, hidle, hdel, ?_⟩
    cases hstage with
    | given hst hx hq hc _ => exact .given hst hx hq hc ht'
    | posted hst hx hq hc _ => exact .posted hst hx hq hc ht'
    | taken _ _ _ hrun => simp_all
  noThread hc := absurd (h.noThread hc) hn
  new := h.new

attribute [local grind cases, local grind intro] Stage
attribute [local grind cases] Inv
attribute [local grind] EduThread.Loops EDUCB.clear EDUCB.delete EDUCB.take EDUCB.waitEDU

section
variable (h : Inv cb)
include h

theorem Inv.clear (ht : cb.starter = .taken) :
    Inv { cb.clear with starter := .cleared } := by
  cases hh : cb.handout <;> constructor <;> grind

theorem Inv.postResume (ht : cb.starter = .cleared) :
    Inv { cb with
      queue := cb.queue ++ [.resume]
      starter := .none
      handout := cb.handout.map fun h => { h with posted := true } } := by
  cases hh : cb.handout <;> constructor <;> grind

theorem Inv.pop (ht : cb.thread = .waitEvent) {e : EduEvent} {rest : List EduEvent}
    (hq : cb.queue = e :: rest) :
    Inv { cb.take e rest with thread := .received e, idleTime := 0 } := by
  cases hh : cb.handout <;> constructor <;> grind

theorem Inv.workPop (ht : cb.thread = .running) {e : EduEvent} {rest : List EduEvent}
    (hq : cb.queue = e :: rest) : Inv (cb.take e rest) := by
  cases hh : cb.handout <;> constructor <;> grind

theorem Inv.run (ht : cb.thread = .received .resume ∨ cb.thread = .running)
    (status : EduStatus) (locked : Bool) :
    Inv { cb with thread := .running, status := status, locked := locked } := by
  cases hh : cb.handout <;> constructor <;> grind

theorem Inv.threadFails (hh : cb.handout = none) {c : Creator}
    (hc : cb.creator ≠ .none) (hnew : c = .new ∨ c = .failedNew → cb.creator = .new) :
    Inv { cb.delete with creator := c } := by
  constructor <;> grind

theorem Inv.working (ht : cb.thread = .received .resume ∨ cb.thread = .running) :
    cb.inIdles = false ∧ cb.starter = .none ∧ cb.creator = .none := by
  cases hh : cb.handout <;> grind

theorem Inv.forceDestory (ht : cb.thread = .destroying) : Inv cb.forceDestory := by
  have hloops : cb.thread.Loops := by simp [ht]
  have hback : Inv { cb with thread := .waitEvent } := h.loop hloops (by simp [ht]) (by simp) _
  have hc : cb.creator = .none := by
    by_contra hc
    exact absurd (h.noThread hc) (by simp [ht])
  unfold EDUCB.forceDestory
  split
  · rename_i hidle
    have hh := (h.idle hidle).2.2.1
    exact Inv.of_free hh (h.starter hh) rfl hc
  rename_i hidle
  have hidle : cb.inIdles = false := by simpa using hidle
  split
  · split
    · exact hback
    · rename_i hs
      have hh := h.not_handed hloops hs
      exact Inv.of_free hh (h.starter hh) hidle hc
  · exact hback

theorem Inv.returnEDU (ht : cb.thread = .returning) : Inv (cb.returnEDU env) := by
  have hloops : cb.thread.Loops := by simp [ht]
  have hc : cb.creator = .none := by
    by_contra hc
    exact absurd (h.noThread hc) (by simp [ht])
  unfold EDUCB.returnEDU
  split
  · exact h.loop hloops (by simp [ht]) (by simp) _
  rename_i hs
  have hh := h.not_handed hloops hs
  have hst := h.starter hh
  split_ifs with hruns hdest hidle hdest
  · exact Inv.of_free hh hst (by grind [Inv]) hc
  · constructor <;> simp [EDUCB.clear, hh, hst, hc]
  · exact Inv.of_free hh hst rfl hc
  · constructor <;> simp [EDUCB.clear, hh, hst, hc, (h.idle hidle).1, (h.idle hidle).2.1]
  · have hidle : cb.inIdles = false := by simpa using hidle
    exact Inv.of_free hh hst hidle hc

theorem Inv.post {e : EduEvent} (he : e ≠ .resume) :
    Inv { cb with queue := cb.queue ++ [e] } := by
  cases hh : cb.handout <;> constructor <;> grind

/-- **A safe step on an EDU keeps its invariant.** -/
theorem Inv.act {a : EduAct} (hsafe : a.Safe cb) (hact : cb.act env a = some cb') :
    Inv cb' := by
  have hcreator : cb.thread ≠ .none → cb.creator = .none := by
    intro ht
    by_contra hc
    exact ht (h.noThread hc)
  cases a <;> simp only [EDUCB.act, ite_none_right_eq_some, some_inj] at hact
  case clear =>
    obtain ⟨ht, rfl⟩ := hact
    exact h.clear ht
  case postResume =>
    obtain ⟨ht, rfl⟩ := hact
    exact h.postResume ht
  case createThread =>
    obtain ⟨hc, rfl⟩ := hact
    cases hh : cb.handout <;> constructor <;> grind
  case threadFails =>
    split at hact <;> simp only [some_inj, reduceCtorEq] at hact
    · rename_i hc
      subst hact
      exact h.threadFails hsafe (by simp [hc]) (by simp)
    · rename_i hc
      subst hact
      exact h.threadFails hsafe (by simp [hc]) (by simp [hc])
  case eraseFailed =>
    cases hh : cb.handout <;> constructor <;> grind
  case attach =>
    obtain ⟨ht, rfl⟩ := hact
    exact h.loop (by simp [ht]) (by simp [ht]) (by simp) _
  case attachThrows =>
    obtain ⟨ht, rfl⟩ := hact
    have hh : cb.handout = none := hsafe
    exact Inv.of_free (by simp [hh]) (by simp [h.starter hh]) (by simp)
      (by simp [hcreator, ht])
  case pop =>
    split at hact <;> simp only [some_inj, reduceCtorEq] at hact
    rename_i ht hq
    subst hact
    exact h.pop ht hq
  case timeOut =>
    obtain ⟨ht, rfl⟩ := hact
    exact h.loop (by simp [ht]) (by simp [ht]) (by simp) _
  case checkIdle keep =>
    obtain ⟨ht, hact⟩ := hact
    split at hact <;> simp only [some_inj] at hact <;> subst hact
    · exact h.loop (by simp [ht]) (by simp [ht]) (by simp) _
    · exact h.loop (by simp [ht]) (by simp [ht]) (by simp) _
  case forceDestory =>
    obtain ⟨ht, rfl⟩ := hact
    exact h.forceDestory ht
  case enter =>
    obtain ⟨ht, rfl⟩ := hact
    rw [waitEDU_eq]
    exact h.run (Or.inl ht) _ _
  case ignore =>
    obtain ⟨ht, rfl⟩ := hact
    obtain ht | ht := ht
    · exact h.loop (by simp [ht]) (by simp [ht]) (by simp) _
    · exact h.loop (by simp [ht]) (by simp [ht]) (by simp) _
  case returnEDU =>
    obtain ⟨ht, rfl⟩ := hact
    exact h.returnEDU ht
  case work status locked =>
    obtain ⟨⟨ht, -⟩, rfl⟩ := hact
    have hrun := h.run (Or.inr ht) status locked
    rwa [← ht] at hrun
  case workPop =>
    split at hact <;> simp only [some_inj, reduceCtorEq] at hact
    rename_i ht hq
    subst hact
    exact h.workPop ht hq
  case entryReturns =>
    obtain ⟨ht, rfl⟩ := hact
    obtain ⟨hidle, hs, hc⟩ := h.working (Or.inr ht)
    rw [waitEDU_eq]
    exact Inv.of_free rfl hs hidle hc
  case entryThrows =>
    obtain ⟨ht, rfl⟩ := hact
    obtain ⟨hidle, hs, hc⟩ := h.working (Or.inr ht)
    exact Inv.of_free rfl (by simp [hs]) (by simp) (by simp [hc])
  case post e =>
    obtain ⟨⟨-, he⟩, rfl⟩ := hact
    exact h.post he
  case setForced =>
    obtain ⟨-, rfl⟩ := hact
    cases hh : cb.handout <;> constructor <;> grind

theorem Inv.kept {x : Handout} (hx : cb.handout = some x) :
    cb.inRuns = true ∧ cb.deleted = false ∧
      x.taken + cb.queue.count .resume = (if x.posted then 1 else 0) ∧
      (cb.thread = .running → x.taken = 1) := by
  obtain ⟨hruns, -, hdel, hstage⟩ := h.handed x hx
  refine ⟨hruns, hdel, ?_⟩
  cases hstage with
  | given _ heq hq _ ht =>
    subst heq
    exact ⟨by simp [hq], fun hrun => absurd hrun ht.2.1⟩
  | posted _ heq hq _ ht =>
    subst heq
    exact ⟨by simp [hq], fun hrun => absurd hrun ht.2.1⟩
  | taken _ heq hq _ =>
    subst heq
    exact ⟨by simp [hq], fun _ => rfl⟩

end

theorem handout_act {a : EduAct} {x : Handout} (hx : cb.handout = some x)
    (hact : cb.act env a = some cb') (hx' : cb'.handout = none) :
    cb.thread = .running ∧ (a = .entryReturns ∨ a = .entryThrows) := by
  cases a <;> simp only [EDUCB.act] at hact <;>
    grind [EDUCB.thrown, EDUCB.findAndRemove, EDUCB.forceDestory, EDUCB.returnEDU]

end EDUCB

section Manager
variable {factory : ℤ → Option EPItem} {m m' : EDUMgr}

/-- **A safe step keeps the invariant of every EDU.** -/
theorem edus_inv_exec {op : MgrOp} (h : ∀ k, (m.edus k).Inv) (hsafe : op.Safe m)
    (hop : m.exec factory op = some m') (k : ℕ) : (m'.edus k).Inv := by
  have hupdate {id : ℕ} {cb : EDUCB} (hcb : cb.Inv) : (Function.update m.edus id cb k).Inv := by
    rw [Function.update_apply]
    split
    · exact hcb
    · exact h k
  cases EDUMgr.effect_of_exec hop with
  | keep hedus _ =>
    rw [hedus]
    exact h k
  | @hand id type _ hfirst hedus _ =>
    rw [hedus]
    exact hupdate ((h id).handOut (EDUMgr.firstIdle_spec hfirst).2 hsafe type)
  | create hnew hedus _ =>
    rw [hedus]
    obtain ⟨type, rfl, -⟩ | ⟨rfl, -⟩ := hnew
    · exact hupdate (EDUCB.inv_newRun type)
    · exact hupdate EDUCB.inv_newIdle
  | @act id _ _ _ hact hedus _ =>
    rw [hedus]
    exact hupdate ((h id).act hsafe hact)

theorem edus_invariant :
    (safeMgrSystem factory).Invariant fun m => m.Fresh ∧ ∀ k, (m.edus k).Inv where
  init := by
    rintro m ⟨n, rfl⟩
    exact ⟨fun _ _ => rfl, fun k => EDUCB.inv_unborn⟩
  step := by
    rintro m m' ⟨hfresh, hinv⟩ ⟨op, hsafe, hop⟩
    exact ⟨hfresh.effect (EDUMgr.effect_of_exec hop), edus_inv_exec hinv hsafe hop⟩

theorem handout_exec {op : MgrOp} {id : ℕ} {x : Handout} (h : m.Fresh)
    (hx : (m.edus id).handout = some x) (hop : m.exec factory op = some m')
    (hx' : (m'.edus id).handout = none) :
    (m.edus id).thread = .running ∧ (op = .edu id .entryReturns ∨ op = .edu id .entryThrows) := by
  have hupdate {k : ℕ} {cb : EDUCB} (hedus : m'.edus = Function.update m.edus k cb) :
      id = k ∧ cb.handout = none := by
    rw [hedus, Function.update_apply] at hx'
    split at hx'
    · exact ⟨‹_›, hx'⟩
    · rw [hx] at hx'
      cases hx'
  cases EDUMgr.effect_of_exec hop with
  | keep hedus _ =>
    rw [hedus, hx] at hx'
    cases hx'
  | hand _ hedus _ => simpa [EDUCB.handOut] using (hupdate hedus).2
  | create _ hedus _ =>
    obtain rfl := (hupdate hedus).1
    rw [h _ (Nat.le_refl _)] at hx
    cases hx
  | act hact hedus _ =>
    obtain ⟨rfl, hnone⟩ := hupdate hedus
    obtain ⟨hrun, rfl | rfl⟩ := EDUCB.handout_act hx hact hnone
    · exact ⟨hrun, Or.inl rfl⟩
    · exact ⟨hrun, Or.inr rfl⟩

/-- **An EDU that was handed out is kept until it has run**, if none of these fails to start and
none whose thread could not be created is handed out. -/
theorem handout_kept (hm : (safeMgrSystem factory).Reachable m) :
    HandoutKept m ∧ HandoutEnds factory m := by
  obtain ⟨hfresh, hinv⟩ := edus_invariant.reachable hm
  refine ⟨fun id x hx => (hinv id).kept hx, ?_⟩
  intro op m' id x hop hx hx'
  obtain ⟨hrun, hend⟩ := handout_exec hfresh hx hop hx'
  exact ⟨((hinv id).kept hx).2.2.2 hrun, hend⟩

end Manager

def poolFactory (_ : ℤ) : Option EPItem := some ⟨false⟩

/-- An idle EDU is created, handed out and run. -/
theorem handout_kept_run :
    ∃ m, (m.edus 0).handout = some ⟨true, 1⟩ ∧ (m.edus 0).thread = .running ∧
      HandoutKept m ∧ HandoutEnds poolFactory m := by
  have h : (safeMgrSystem poolFactory).Reachable (.new 1) := .init ⟨1, rfl⟩
  have h := h.step ⟨.idleTest, trivial, rfl⟩
  have h := h.step ⟨.idleInsert, trivial, rfl⟩
  have h := h.step ⟨.edu 0 .createThread, trivial, rfl⟩
  have h := h.step ⟨.startTest, trivial, rfl⟩
  have h := h.step ⟨.getFromPool 0 0, rfl, rfl⟩
  have h := h.step ⟨.edu 0 .clear, trivial, rfl⟩
  have h := h.step ⟨.edu 0 .postResume, trivial, rfl⟩
  have h := h.step ⟨.edu 0 .attach, trivial, rfl⟩
  have h := h.step ⟨.edu 0 .pop, trivial, rfl⟩
  have h := h.step ⟨.edu 0 .enter, trivial, rfl⟩
  exact ⟨_, rfl, rfl, handout_kept h⟩

/-- **An EDU that is handed out can be deleted** when its thread could not be created. -/
theorem handed_out_deleted :
    ∃ m, (mgrSystem poolFactory).Reachable m ∧ (m.edus 0).handout = some ⟨false, 0⟩ ∧
      (m.edus 0).deleted = true ∧ ¬HandoutKept m := by
  have h : (mgrSystem poolFactory).Reachable (.new 1) := .init ⟨1, rfl⟩
  have h := h.step ⟨.idleTest, rfl⟩
  have h := h.step ⟨.idleInsert, rfl⟩
  have h := h.step ⟨.startTest, rfl⟩
  have h := h.step ⟨.getFromPool 0 0, rfl⟩
  have h := h.step ⟨.edu 0 .threadFails, rfl⟩
  refine ⟨_, h, rfl, rfl, ?_⟩
  intro hkept
  exact absurd (hkept 0 _ rfl).2.1 (by decide)

end Novachains.Pmd
