import Novachains.Pmd.EDUMgr

/-!
# The maps of the manager

An EDU that was registered and is not deleted is in `_mapRuns` or in `_mapIdles`.  Who takes it out of
its map to destroy it deletes it in the same step.

Beside the steps of `EDUMgr` a map or a queue may throw in a critical section.
-/

namespace Novachains.Pmd

open Lib Function Option

structure EDUCB.Booked (cb : EDUCB) : Prop where
  live : cb.deleted = false → cb.inRuns = !cb.inIdles ∧ (cb.status = .idle ↔ cb.inIdles = true)
  listed : cb.inRuns = true ∨ cb.inIdles = true → cb.deleted = false

/-- **The books are right**: an EDU is in one map, by its status, exactly if it is not deleted. -/
def EDUMgr.Booked (m : EDUMgr) : Prop := ∀ id < m.nextID, (m.edus id).Booked

inductive BookOp
  | mgr (op : MgrOp)
  /-- The insertion of `createIdleEDU` throws. -/
  | idleThrows
  /-- The critical section of `createNewEDU` throws, before or after the EDU is in the map. -/
  | newThrows (type : ℤ) (inserted : Bool)
  /-- The insertion of `getFromPool` throws. -/
  | poolThrows (id : ℕ) (type : ℤ)
  /-- The insertion of `returnEDU` throws; the EDU is destroyed. -/
  | returnThrows (id : ℕ)

namespace BookOp

def exec (factory : ℤ → Option EPItem) (m : EDUMgr) : BookOp → Option EDUMgr
  | .mgr op => m.exec factory op
  | .idleThrows =>
    if 0 < m.idleCalls then
      some { m.insert { EDUCB.newIdle with inIdles := false, creator := .none } with
        idleCalls := m.idleCalls - 1 }
    else none
  | .newThrows type inserted =>
    if 0 < m.newCalls then
      some { m.insert { EDUCB.newRun type with queue := [], inRuns := inserted, creator := .none } with
        newCalls := m.newCalls - 1 }
    else none
  | .poolThrows id type =>
    if 0 < m.startCalls ∧ (factory type).any EPItem.isPoolable ∧ m.firstIdle = some id then
      some { m.setEdu id { m.edus id with inIdles := false } with startCalls := m.startCalls - 1 }
    else none
  | .returnThrows id =>
    if (m.edus id).thread = .returning ∧ (m.edus id).status ≠ .creating ∧ (m.edus id).inRuns ∧
        ¬ (m.edus id).toDestory (m.env factory) then
      some (m.setEdu id { (m.edus id).delete with inRuns := false, thread := .ended })
    else none

/-- No thread fails to start, and no insertion throws that nobody catches. -/
def Safe : BookOp → Prop
  | .mgr op => ∀ id, op ≠ .edu id .threadFails
  | .newThrows _ inserted => inserted = true
  | .returnThrows _ => True
  | .idleThrows | .poolThrows _ _ => False

end BookOp

def bookSystem (factory : ℤ → Option EPItem) : System EDUMgr where
  init m := ∃ n, m = .new n
  step m m' := ∃ op : BookOp, op.Safe ∧ op.exec factory m = some m'

namespace EDUCB

/-- A thread without a `RESUME` in hand. -/
def Unresumed (cb : EDUCB) : Prop :=
  .resume ∉ cb.queue ∧ cb.thread ≠ .received .resume ∧ cb.thread ≠ .running

structure BookInv (cb : EDUCB) : Prop where
  booked : cb.Booked
  idle : cb.inIdles = true → cb.starter = .none ∧ cb.Unresumed
  given : cb.starter ≠ .none → cb.deleted = false → cb.status = .creating ∧ cb.Unresumed
  creator : cb.creator ≠ .none →
    cb.deleted = false ∧ cb.thread = .none ∧ (cb.creator = .idle ∨ cb.creator = .new)

variable {env : PoolEnv} {cb cb' : EDUCB} {a : EduAct}

section Act

attribute [local grind] EDUCB.clear EDUCB.delete EDUCB.take EDUCB.waitEDU EDUCB.thrown
  EDUCB.findAndRemove EDUCB.forceDestory EDUCB.returnEDU Unresumed

theorem BookInv.act_booked (h : BookInv cb) (ha : a ≠ .threadFails) (hact : cb.act env a = some cb') :
    cb'.Booked := by
  obtain ⟨⟨hlive, hlisted⟩, hidle, hgiven, hcreator⟩ := h
  constructor <;> cases a <;> simp only [EDUCB.act] at hact <;> grind -ring -linarith -lia

theorem BookInv.act_idle (h : BookInv cb) (hact : cb.act env a = some cb') :
    cb'.inIdles = true → cb'.starter = .none ∧ cb'.Unresumed := by
  obtain ⟨⟨hlive, hlisted⟩, hidle, hgiven, -⟩ := h
  cases a <;> simp only [EDUCB.act] at hact <;> grind -ring -linarith -lia

theorem BookInv.act_given (h : BookInv cb) (hact : cb.act env a = some cb') :
    cb'.starter ≠ .none → cb'.deleted = false → cb'.status = .creating ∧ cb'.Unresumed := by
  have hgiven := h.given
  cases a <;> simp only [EDUCB.act] at hact <;> grind -ring -linarith -lia

theorem BookInv.act_creator (h : BookInv cb) (ha : a ≠ .threadFails)
    (hact : cb.act env a = some cb') : cb'.creator ≠ .none →
      cb'.deleted = false ∧ cb'.thread = .none ∧ (cb'.creator = .idle ∨ cb'.creator = .new) := by
  have hcreator := h.creator
  cases a <;> simp only [EDUCB.act] at hact <;> grind -ring -linarith -lia

theorem BookInv.act (h : BookInv cb) (ha : a ≠ .threadFails) (hact : cb.act env a = some cb') :
    BookInv cb' :=
  ⟨h.act_booked ha hact, h.act_idle hact, h.act_given hact, h.act_creator ha hact⟩

end Act

theorem BookInv.threadFails (h : BookInv cb) (hact : cb.act env .threadFails = some cb') :
    ¬ cb'.Booked := by
  intro hb
  have hcreator : cb.creator ≠ .none := by
    rintro h0
    simp [EDUCB.act, h0] at hact
  have hlive := h.booked.live (h.creator hcreator).1
  have hcb : cb'.deleted = true ∧ cb'.inRuns = cb.inRuns ∧ cb'.inIdles = cb.inIdles := by
    simp only [EDUCB.act] at hact
    split at hact <;> cases hact <;> exact ⟨rfl, rfl, rfl⟩
  have hlisted := hb.listed
  rw [hcb.1, hcb.2.1, hcb.2.2, hlive.1] at hlisted
  cases hidles : cb.inIdles <;> simp [hidles] at hlisted

end EDUCB

namespace EDUMgr
variable {factory : ℤ → Option EPItem} {m m' : EDUMgr}

structure BookOk (m : EDUMgr) : Prop where
  fresh : m.Fresh
  inv : ∀ id < m.nextID, (m.edus id).BookInv

theorem BookOk.update {id : ℕ} {cb : EDUCB} (h : m.BookOk)
    (hedus : m'.edus = update m.edus id cb)
    (hid : id < m.nextID ∧ m'.nextID = m.nextID ∨ id = m.nextID ∧ m'.nextID = m.nextID + 1)
    (hcb : cb.BookInv) : m'.BookOk := by
  refine ⟨fun k hk => ?_, fun k hk => ?_⟩
  · rw [hedus, update_of_ne (by omega)]
    exact h.fresh k (by omega)
  rw [hedus]
  rcases eq_or_ne k id with rfl | hne
  · rwa [update_self]
  · rw [update_of_ne hne]
    exact h.inv k (by omega)

theorem Booked.of_update {id : ℕ} {cb : EDUCB} (h : m'.Booked) (hid : id < m'.nextID)
    (hedus : m'.edus = update m.edus id cb) : cb.Booked := by
  have hcb := h id hid
  rwa [hedus, update_self] at hcb

theorem BookOk.edu {id : ℕ} {a : EduAct} {cb : EDUCB} (h : m.BookOk)
    (hact : (m.edus id).act (m.env factory) a = some cb) : id < m.nextID := by
  by_contra hid
  rw [h.fresh id (Nat.not_lt.mp hid), unborn_act] at hact
  cases hact

theorem BookOk.effect {op : MgrOp} (h : m.BookOk) (he : Effect factory m op m')
    (hsafe : ∀ id, op ≠ .edu id .threadFails) : m'.BookOk := by
  cases he with
  | keep hedus hnext => exact ⟨by rw [Fresh, hedus, hnext]; exact h.fresh,
    by rw [hedus, hnext]; exact h.inv⟩
  | @hand id type _ hfirst hedus hnext =>
    obtain ⟨hid, hidles⟩ := firstIdle_spec hfirst
    have hinv := h.inv id hid
    refine h.update hedus (.inl ⟨hid, hnext⟩) ⟨⟨?_, ?_⟩, nofun, ?_, hinv.creator⟩
    · intro _
      simp [EDUCB.handOut]
    · intro _
      exact hinv.booked.listed (.inr hidles)
    · intro _ _
      exact ⟨rfl, (hinv.idle hidles).2⟩
  | create hnew hedus hnext =>
    refine h.update hedus (.inr ⟨rfl, hnext⟩) ?_
    rcases hnew with ⟨type, rfl, -⟩ | ⟨rfl, -⟩
    · refine ⟨⟨?_, ?_⟩, ?_, ?_, ?_⟩ <;> simp [EDUCB.newRun, EDUCB.unborn]
    · refine ⟨⟨?_, ?_⟩, ?_, ?_, ?_⟩ <;> simp [EDUCB.newIdle, EDUCB.unborn, EDUCB.Unresumed]
  | @act id a cb _ hact hedus hnext =>
    have hid := h.edu hact
    refine h.update hedus (.inl ⟨hid, hnext⟩) ((h.inv id hid).act ?_ hact)
    rintro rfl
    exact hsafe id rfl

theorem BookOk.exec {op : BookOp} (h : m.BookOk) (hop : op.exec factory m = some m') :
    (op.Safe → m'.BookOk) ∧ (m'.Booked → op.Safe) := by
  cases op <;> simp only [BookOp.exec, ite_none_right_eq_some, some_inj] at hop
  case mgr op =>
    refine ⟨h.effect (effect_of_exec hop), ?_⟩
    rintro hb id rfl
    obtain ⟨cb, hact, rfl⟩ := map_eq_some_iff.mp hop
    have hid := h.edu hact
    exact (h.inv id hid).threadFails hact (hb.of_update hid rfl)
  case idleThrows =>
    obtain ⟨-, rfl⟩ := hop
    refine ⟨False.elim, fun hb => ?_⟩
    have hlive := (hb.of_update (Nat.lt_succ_self _) rfl).live rfl
    simp [EDUCB.newIdle, EDUCB.unborn] at hlive
  case newThrows type inserted =>
    obtain ⟨-, rfl⟩ := hop
    refine ⟨fun hin => h.update rfl (.inr ⟨rfl, rfl⟩) ?_, fun hb => ?_⟩
    · obtain rfl : inserted = true := hin
      refine ⟨⟨?_, ?_⟩, ?_, ?_, ?_⟩ <;> simp [EDUCB.newRun, EDUCB.unborn]
    · exact ((hb.of_update (Nat.lt_succ_self _) rfl).live rfl).1
  case poolThrows id type =>
    obtain ⟨⟨-, -, hfirst⟩, rfl⟩ := hop
    obtain ⟨hid, hidles⟩ := firstIdle_spec hfirst
    have hbooked := (h.inv id hid).booked
    have hlive := hbooked.listed (.inr hidles)
    refine ⟨False.elim, fun hb => ?_⟩
    have hruns := ((hb.of_update hid rfl).live hlive).1
    simpa [hidles] using hruns.symm.trans (hbooked.live hlive).1
  case returnThrows id =>
    obtain ⟨⟨hthread, -, hruns, -⟩, rfl⟩ := hop
    have hid : id < m.nextID := by
      by_contra hid
      rw [h.fresh id (Nat.not_lt.mp hid)] at hthread
      cases hthread
    have hinv := h.inv id hid
    have hidles : (m.edus id).inIdles = false := by
      simpa [hruns] using (hinv.booked.live (hinv.booked.listed (.inl hruns))).1
    refine ⟨fun _ => h.update rfl (.inl ⟨hid, rfl⟩) ⟨⟨?_, ?_⟩, ?_, ?_, ?_⟩, fun _ => trivial⟩
    · simp [EDUCB.delete]
    · simp [EDUCB.delete, EDUCB.clear, hidles]
    · simp [EDUCB.delete, EDUCB.clear, hidles]
    · simp [EDUCB.delete]
    · intro hc
      cases hthread.symm.trans (hinv.creator hc).2.1

theorem BookOk.booked (h : m.BookOk) : m.Booked := fun id hid => (h.inv id hid).booked

end EDUMgr

theorem book_invariant (factory : ℤ → Option EPItem) :
    (bookSystem factory).Invariant EDUMgr.BookOk where
  init := by
    rintro m ⟨n, rfl⟩
    exact ⟨fun _ _ => rfl, nofun⟩
  step := by
    rintro m m' h ⟨op, hsafe, hop⟩
    exact (h.exec hop).1 hsafe

/-- **The books of the manager** are right until a thread fails to start or an insertion throws that
nobody catches, and wrong then. -/
theorem books_iff {factory : ℤ → Option EPItem} {m : EDUMgr} (hm : (bookSystem factory).Reachable m) :
    m.Booked ∧
      ∀ (op : BookOp) (m' : EDUMgr), op.exec factory m = some m' → (m'.Booked ↔ op.Safe) := by
  have h := (book_invariant factory).reachable hm
  refine ⟨h.booked, fun op m' hop => ⟨(h.exec hop).2, fun hsafe => ?_⟩⟩
  exact ((h.exec hop).1 hsafe).booked

/-- The manager after `createIdleEDU` has put an EDU into `_mapIdles`. -/
def oneIdle : EDUMgr := { (EDUMgr.new 1).insert .newIdle with idleCalls := 0 }

theorem reachable_oneIdle (factory : ℤ → Option EPItem) : (bookSystem factory).Reachable oneIdle := by
  have h0 := System.Reachable.init (S := bookSystem factory) ⟨1, rfl⟩
  have h1 := h0.step ⟨.mgr .idleTest, nofun, rfl⟩
  exact h1.step ⟨.mgr .idleInsert, nofun, rfl⟩

theorem books_oneIdle : oneIdle.Booked := (books_iff (reachable_oneIdle fun _ => none)).1

/-- The thread cannot be created: the EDU is deleted before it is taken out of `_mapIdles`. -/
theorem books_dangling :
    (bookSystem fun _ => none).Reachable oneIdle ∧
      ∃ m', BookOp.exec (fun _ => none) oneIdle (.mgr (.edu 0 .threadFails)) = some m' ∧
        (m'.edus 0).inIdles = true ∧ (m'.edus 0).deleted = true ∧ ¬ m'.Booked := by
  refine ⟨reachable_oneIdle _, _, rfl, rfl, rfl, fun hb => ?_⟩
  cases (hb 0 (by decide)).listed (.inr rfl)

end Novachains.Pmd
