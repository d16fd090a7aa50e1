import Mathlib.Data.Int.Notation
import Mathlib.Data.List.Nodup
import Novachains.Lib.Transition

/-!
# Waiting for an event of one type

`waitEvent` with a type takes events from the queue of the EDU, sets those of other types aside and
pushes them back when it is done.  Other threads post events and may interrupt the EDU at any time.
An event is numbered in the order of posting.
-/

namespace Novachains.Pmd

open Lib List

/-- `pmdEDUEventTypes`. -/
inductive EventType
  | none
  | term
  | resume
  | msg
  | timeout
  deriving DecidableEq

structure Event where
  no : ℕ
  type : EventType
  deriving DecidableEq

/-- Before the test of the loop, in its wait, behind it where events are pushed back, and returned. -/
inductive WaitPc
  | loop
  | waiting
  | pushing
  | done
  deriving DecidableEq

/-- A call of `waitEvent`; `behind` says that an event was pushed back behind another. -/
structure WaitState where
  pc : WaitPc := .loop
  millsec : ℤ
  interrupted : Bool := false
  posted : List Event
  queue : List Event
  tmpQue : List Event := []
  delivered : Option Event := Option.none
  pushed : ℕ := 0
  behind : Bool := false

/-- `OSS_ONE_SEC` at most. -/
def WaitState.waitTime (s : WaitState) : ℤ := if s.millsec < 1000 then s.millsec else 1000

/-- What the other threads and the call do next.  A wait may time out when an event has just
arrived. -/
inductive WaitStep (type : EventType) (s : WaitState) : WaitState → Prop
  | post (t : EventType) (h : s.pc ≠ .done) : WaitStep type s { s with
      posted := s.posted ++ [⟨s.posted.length, t⟩], queue := s.queue ++ [⟨s.posted.length, t⟩] }
  | interrupt (b : Bool) : WaitStep type s { s with interrupted := b }
  | test (h : s.pc = .loop) : WaitStep type s { s with
      pc := if s.interrupted then .pushing else .waiting }
  | timeOut (h : s.pc = .waiting) : WaitStep type s { s with
      millsec := s.millsec - s.waitTime
      pc := if s.millsec - s.waitTime ≤ 0 then .pushing else .loop }
  | setAside (h : s.pc = .waiting) (e : Event) (q : List Event) (hqueue : s.queue = e :: q)
      (htype : e.type ≠ type) : WaitStep type s { s with
      queue := q, tmpQue := s.tmpQue ++ [e], interrupted := s.interrupted || e.type = .term
      pc := .loop }
  | deliver (h : s.pc = .waiting) (e : Event) (q : List Event) (hqueue : s.queue = e :: q)
      (htype : e.type = type) : WaitStep type s { s with
      queue := q, delivered := some e, interrupted := s.interrupted || e.type = .term
      pc := .pushing }
  | pushBack (h : s.pc = .pushing) (e : Event) (t : List Event) (htmp : s.tmpQue = e :: t) :
      WaitStep type s { s with
        queue := s.queue ++ [e], tmpQue := t, pushed := s.pushed + 1
        behind := s.behind || s.queue.length ≠ s.pushed }
  | finish (h : s.pc = .pushing) (htmp : s.tmpQue = []) : WaitStep type s { s with pc := .done }

/-- The call begins with any queue and, if it is given no time, `0x7FFFFFFF` milliseconds. -/
def waitSystem (type : EventType) : System WaitState where
  init s := ∃ millsec interrupted queue, queue.map Event.no = List.range queue.length ∧
    s = { millsec := if millsec < 0 then 0x7FFFFFFF else millsec, interrupted, posted := queue, queue }
  step := WaitStep type

/-- The event delivered is the earliest of its type, and the others are in the queue, each once, in
the order of posting. -/
structure WaitState.Right (type : EventType) (s : WaitState) : Prop where
  earliest : ∀ e, s.delivered = some e → ∃ pre post, s.posted = pre ++ e :: post ∧ e.type = type ∧
    ∀ x ∈ pre, x.type ≠ type
  queue_eq : s.queue = s.posted.filter fun x => some x ≠ s.delivered

/-- The events `aside` were set aside, and `rest` has come behind them and the event delivered. -/
structure WaitState.Inv (type : EventType) (s : WaitState) (aside rest : List Event) : Prop where
  numbered : s.posted.map Event.no = List.range s.posted.length
  posted_eq : s.posted = aside ++ (s.delivered.toList ++ rest)
  aside_type : ∀ e ∈ aside, e.type ≠ type
  delivered_type : ∀ e ∈ s.delivered, e.type = type
  tmp_eq : s.tmpQue = aside.drop s.pushed
  loop : s.pc = .loop ∨ s.pc = .waiting → s.delivered = none ∧ s.pushed = 0 ∧ s.behind = false
  done : s.pc = .done → s.tmpQue = []
  in_order : s.behind = false → s.queue = aside.take s.pushed ++ rest
  overtaken : s.behind = true → ∃ (k j : ℕ) (e : Event), k < j ∧ aside[k]? = some e ∧
    s.queue[j]? = some e

variable {type : EventType} {s t : WaitState}

theorem WaitState.Inv.rest_eq {aside rest q : List Event} {e : Event} (h : s.Inv type aside rest)
    (hpc : s.pc = .loop ∨ s.pc = .waiting) (hqueue : s.queue = e :: q) : rest = e :: q := by
  obtain ⟨-, hpushed, hbehind⟩ := h.loop hpc
  have hq := h.in_order hbehind
  rwa [hpushed, take_zero, nil_append, hqueue, eq_comm] at hq

theorem wait_invariant : (waitSystem type).Invariant fun s => ∃ aside rest, s.Inv type aside rest where
  init := by
    rintro s ⟨millsec, interrupted, queue, hno, rfl⟩
    exact ⟨[], queue, hno, rfl, nofun, nofun, rfl, fun _ => ⟨rfl, rfl, rfl⟩, nofun, fun _ => rfl, nofun⟩
  step := by
    rintro s t ⟨aside, rest, h⟩ hstep
    cases hstep with
    | post t hpc =>
      refine ⟨aside, rest ++ [⟨s.posted.length, t⟩], { h with
        numbered := ?_, posted_eq := ?_, in_order := ?_, overtaken := ?_ }⟩
      · simp [h.numbered, range_succ]
      · rw [h.posted_eq, append_assoc, append_assoc]
      · intro hb
        rw [h.in_order hb, append_assoc]
      intro hb
      obtain ⟨k, j, e, hkj, hk, hj⟩ := h.overtaken hb
      exact ⟨k, j, e, hkj, hk, (getElem?_append_left
        (List.getElem?_eq_some_iff.mp hj).1).trans hj⟩
    | interrupt => exact ⟨aside, rest, { h with }⟩
    | test hpc =>
      refine ⟨aside, rest, { h with loop := fun _ => h.loop (.inl hpc), done := ?_ }⟩
      cases s.interrupted <;> nofun
    | timeOut hpc =>
      refine ⟨aside, rest, { h with loop := fun _ => h.loop (.inr hpc), done := ?_ }⟩
      intro hdone
      split_ifs at hdone
    | setAside hpc e q hqueue htype =>
      obtain ⟨hdel, hpushed, hbehind⟩ := h.loop (.inr hpc)
      have hrest := h.rest_eq (.inr hpc) hqueue
      have htmp := h.tmp_eq
      rw [hpushed, drop_zero] at htmp
      refine ⟨aside ++ [e], q, { h with
        posted_eq := ?_, aside_type := ?_, tmp_eq := ?_, loop := fun _ => h.loop (.inr hpc)
        done := nofun, in_order := ?_, overtaken := ?_ }⟩
      · simp [h.posted_eq, hdel, hrest]
      · exact forall_mem_append.mpr ⟨h.aside_type, by simpa using htype⟩
      · simp [hpushed, htmp]
      · simp [hpushed]
      · simp [hbehind]
    | deliver hpc e q hqueue htype =>
      obtain ⟨hdel, hpushed, hbehind⟩ := h.loop (.inr hpc)
      have hrest := h.rest_eq (.inr hpc) hqueue
      refine ⟨aside, q, { h with
        posted_eq := ?_, delivered_type := ?_, loop := nofun, done := nofun, in_order := ?_,
          overtaken := ?_ }⟩
      · simp [h.posted_eq, hdel, hrest]
      · simpa using htype
      · simp [hpushed]
      · simp [hbehind]
    | pushBack hpc e t htmp =>
      have hdrop : aside.drop s.pushed = e :: t := h.tmp_eq.symm.trans htmp
      have hlt : s.pushed < aside.length := by
        by_contra hge
        rw [drop_of_length_le (Nat.not_lt.mp hge)] at hdrop
        cases hdrop
      rw [drop_eq_getElem_cons hlt, List.cons.injEq] at hdrop
      obtain ⟨rfl, rfl⟩ := hdrop
      refine ⟨aside, rest, { h with
        tmp_eq := rfl, loop := ?_, done := ?_, in_order := ?_, overtaken := ?_ }⟩
      · simp [hpc]
      · simp [hpc]
      · intro hb
        obtain ⟨hb, hlen⟩ : s.behind = false ∧ s.queue.length = s.pushed := by simpa using hb
        have hq := h.in_order hb
        have hnil : rest = [] := by
          have := congrArg List.length hq
          rw [List.length_append, length_take_of_le (Nat.le_of_lt hlt), hlen] at this
          exact length_eq_zero_iff.mp (by omega)
        rw [hq, hnil, append_nil, append_nil, take_add_one, getElem?_eq_getElem hlt]
        rfl
      · intro hb
        by_cases hbehind : s.behind = true
        · obtain ⟨k, j, e, hkj, hk, hj⟩ := h.overtaken hbehind
          exact ⟨k, j, e, hkj, hk, (getElem?_append_left
            (List.getElem?_eq_some_iff.mp hj).1).trans hj⟩
        have hq := congrArg List.length (h.in_order (Bool.eq_false_iff.mpr hbehind))
        have hlen : s.queue.length ≠ s.pushed := by simpa [hbehind] using hb
        rw [List.length_append, length_take_of_le (Nat.le_of_lt hlt)] at hq
        exact ⟨s.pushed, s.queue.length, _, by omega, getElem?_eq_getElem hlt,
          getElem?_concat_length⟩
    | finish hpc htmp => exact ⟨aside, rest, { h with loop := nofun, done := fun _ => htmp }⟩

theorem WaitState.Inv.right_iff {aside rest : List Event} (h : s.Inv type aside rest)
    (hdone : s.tmpQue = []) : s.Right type ↔ s.behind = false := by
  have hnodup : s.posted.Nodup := List.Nodup.of_map Event.no (h.numbered.symm ▸ nodup_range)
  have hall : aside.take s.pushed = aside :=
    take_of_length_le (drop_eq_nil_iff.mp (h.tmp_eq.symm.trans hdone))
  have hothers : (s.posted.filter fun x => some x ≠ s.delivered) = aside ++ rest := by
    rw [h.posted_eq]
    cases hdel : s.delivered with
    | none => simp
    | some d =>
      rw [h.posted_eq, hdel] at hnodup
      have haside : ∀ x ∈ aside, x ≠ d := fun x hx => (nodup_append.mp hnodup).2.2 x hx d (by simp)
      have hrest : ∀ x ∈ rest, x ≠ d := fun x hx =>
        ne_of_mem_of_not_mem hx (nodup_cons.mp (nodup_append.mp hnodup).2.1).1
      have hkept : ∀ l : List Event, (∀ x ∈ l, x ≠ d) → (l.filter fun x => some x ≠ some d) = l :=
        fun l hl => filter_eq_self.mpr (by simpa using hl)
      simp only [filter_append, hkept aside haside, hkept rest hrest]
      simp
  constructor
  · intro hright
    by_contra hb
    obtain ⟨k, j, e, hkj, hk, hj⟩ := h.overtaken ((Bool.not_eq_false _).mp hb)
    have hq : s.queue = aside ++ rest := hright.queue_eq.trans hothers
    have hlt := (List.getElem?_eq_some_iff.mp hk).1
    have hk' : s.queue[k]? = some e := by rw [hq, getElem?_append_left hlt, hk]
    have heq := (getElem?_inj (List.getElem?_eq_some_iff.mp hk').1
      (hright.queue_eq ▸ hnodup.filter _)).mp (hk'.trans hj.symm)
    omega
  · intro hb
    refine ⟨fun e he => ⟨aside, rest, ?_, h.delivered_type e he, h.aside_type⟩, ?_⟩
    · rw [h.posted_eq, he]
      rfl
    · rw [h.in_order hb, hall, hothers]

/-- **Selective waiting** keeps the order of the others exactly if none is pushed back behind one
that was not set aside. -/
theorem wait_event_iff (hs : (waitSystem type).Reachable s) (hdone : s.pc = .done) :
    s.Right type ↔ s.behind = false := by
  obtain ⟨aside, rest, h⟩ := wait_invariant.reachable hs
  exact h.right_iff (h.done hdone)

theorem reachable_resumed (rest : List Event)
    (hno : (⟨0, .msg⟩ :: ⟨1, .resume⟩ :: rest).map Event.no = List.range (rest.length + 2)) :
    (waitSystem .resume).Reachable
      { pc := .done, millsec := 0, posted := ⟨0, .msg⟩ :: ⟨1, .resume⟩ :: rest
        queue := rest ++ [⟨0, .msg⟩], delivered := some ⟨1, .resume⟩, pushed := 1
        behind := decide (rest.length ≠ 0) } := by
  have h0 := System.Reachable.init (S := waitSystem .resume)
    ⟨0, false, ⟨0, .msg⟩ :: ⟨1, .resume⟩ :: rest, hno, rfl⟩
  have h1 := (h0.step (.test rfl)).step (.setAside rfl _ _ rfl nofun)
  have h2 := (h1.step (.test rfl)).step (.deliver rfl _ _ rfl rfl)
  exact (h2.step (.pushBack rfl _ _ rfl)).step (.finish rfl rfl)

theorem wait_event_alone :
    WaitState.Right .resume
      { pc := .done, millsec := 0, posted := [⟨0, .msg⟩, ⟨1, .resume⟩], queue := [⟨0, .msg⟩]
        delivered := some ⟨1, .resume⟩, pushed := 1 } :=
  (wait_event_iff (reachable_resumed [] rfl) rfl).mpr rfl

/-- Of three events the last is now before the first. -/
theorem wait_event_overtaken :
    ∃ s, (waitSystem .resume).Reachable s ∧ s.pc = .done ∧
      s.posted = [⟨0, .msg⟩, ⟨1, .resume⟩, ⟨2, .msg⟩] ∧ s.queue = [⟨2, .msg⟩, ⟨0, .msg⟩] ∧
      ¬ s.Right .resume :=
  ⟨_, reachable_resumed [⟨2, .msg⟩] rfl, rfl, rfl, rfl, fun h => absurd h.queue_eq (by decide)⟩

end Novachains.Pmd
