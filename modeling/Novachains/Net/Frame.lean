import Novachains.Basic
import Novachains.Lib.Transition

/-!
# Sockets and the latch of a frame

A frame keeps its event handlers by handle and by route ID.  `_getHandle` looks for a handler with a
small throughput, first with `_mtx` shared and then with it held exclusively, and makes a new one if
there is none.  `_getEvSuit` takes `_mtx` itself when told to, as all its callers do.

A call is its operations on `_mtx` and what it does to the maps.  Throughputs are measured while
they are read, so each pass has readings of its own.
-/

namespace Novachains.Net

open Lib List

inductive LatchOp
  | get
  | release
  | getShared
  | releaseShared
  deriving DecidableEq, Repr

/-- A thread acquires the latch while it holds it exclusively; `held` says that it does. -/
def LocksOut : Bool → List LatchOp → Prop
  | _, [] => False
  | true, .get :: _ | true, .getShared :: _ => True
  | false, .get :: ops => LocksOut true ops
  | _, _ :: ops => LocksOut false ops

/-- What a frame is set up with; `parser` is the length its parser gives. -/
structure FrameConfig where
  threadFunc : Bool
  maxSockPerThread : ℕ
  maxThreadNum : ℕ
  maxSockPerNode : ℕ
  parser : Option ℕ

/-- `_getEvSuit`.  Whichever suit it finds or starts, it only takes the latch when there are
threads to choose from. -/
def FrameConfig.getEvSuit (cfg : FrameConfig) (needLock : Bool) : List LatchOp :=
  if cfg.threadFunc ∧ 0 < cfg.maxSockPerThread ∧ needLock then [.get, .release] else []

/-- A `new` succeeds, or fails before or after its arguments are evaluated. -/
inductive NewOutcome
  | ok
  | failed (evaluated : Bool)
  deriving DecidableEq, Repr

def NewOutcome.evaluates : NewOutcome → Bool
  | .ok => true
  | .failed evaluated => evaluated

/-- A new `_netEventHandler`, with or without a parser. -/
def FrameConfig.newHandler (cfg : FrameConfig) (new : NewOutcome) : List LatchOp :=
  if new.evaluates then
    match cfg.parser with
    | none => cfg.getEvSuit true
    | some _ => cfg.getEvSuit true
  else []

/-- `_netFrame`. -/
structure Frame where
  /-- `_opposite`, with the route ID of each handler. -/
  opposite : List (ℕ × ℕ) := []
  /-- `_route`, from route IDs to handles. -/
  route : List (ℕ × ℕ) := []
  handle : ℕ := 0

namespace Frame

/-- `_route.equal_range`. -/
def handles (s : Frame) (id : ℕ) : List ℕ := (s.route.filter (·.1 = id)).map Prod.snd

abbrev mbpsMinValue : ℕ := 102400

abbrev mbpsThreshold : ℕ := 5242880

/-- The loop of `_getHandle`; a throughput is read for the comparison and again when it is kept. -/
def scan (maxSock : ℕ) (reads : ℕ → ℕ × ℕ) : ℕ → Option (ℕ × ℕ) → List ℕ → Option (ℕ × ℕ)
  | _, best, [] => best
  | sockNum, best, h :: hs =>
    let best : ℕ × ℕ := match best with
      | none => (h, (reads sockNum).2)
      | some (eh, minMBPS) =>
        if (reads sockNum).1 < minMBPS then (h, (reads sockNum).2) else (eh, minMBPS)
    if best.2 ≤ mbpsMinValue ∨ 0 < maxSock ∧ maxSock ≤ sockNum + 1 then some best
    else scan maxSock reads (sockNum + 1) (some best) hs

/-- A pass of `_getHandle` finds a handler. -/
def find (s : Frame) (cfg : FrameConfig) (id : ℕ) (reads : ℕ → ℕ × ℕ) : Option ℕ :=
  ((scan cfg.maxSockPerNode reads 0 none (s.handles id)).filter (·.2 ≤ mbpsThreshold)).map Prod.fst

structure GetEnv where
  shared : ℕ → ℕ × ℕ
  exclusive : ℕ → ℕ × ℕ
  new : NewOutcome

def Misses (s : Frame) (cfg : FrameConfig) (id : ℕ) (env : GetEnv) : Prop :=
  s.find cfg id env.shared = none ∧ s.find cfg id env.exclusive = none

instance (s : Frame) (cfg : FrameConfig) (id : ℕ) (env : GetEnv) : Decidable (s.Misses cfg id env) :=
  inferInstanceAs (Decidable (_ ∧ _))

/-- `_handle.inc()`, an argument of the new handler. -/
def inc (s : Frame) (new : NewOutcome) : Frame :=
  if new.evaluates then { s with handle := s.handle + 1 } else s

def insert (s : Frame) (id : ℕ) : Frame :=
  { s with opposite := s.opposite ++ [(s.handle, id)], route := s.route ++ [(id, s.handle)] }

/-- `_getHandle`: its operations on the latch, the handle if it succeeds, and the frame. -/
def getHandle (s : Frame) (cfg : FrameConfig) (id : ℕ) (env : GetEnv) :
    List LatchOp × Option ℕ × Frame :=
  match s.find cfg id env.shared, s.find cfg id env.exclusive with
  | some eh, _ => ([.getShared, .releaseShared], some eh, s)
  | none, some eh => ([.getShared, .releaseShared, .get, .release], some eh, s)
  | none, none =>
    ([.getShared, .releaseShared, .get] ++ cfg.newHandler env.new ++ [.release],
      if env.new = .ok then (some (s.handle + 1), (s.inc env.new).insert id)
      else (none, s.inc env.new))

/-- `_erase`: the handler is removed from both maps. -/
def erase (s : Frame) (handle : ℕ) : Frame :=
  match s.opposite.find? (·.1 = handle) with
  | none => s
  | some (_, id) => { s with
      route := s.route.erase (id, handle)
      opposite := s.opposite.filter (·.1 ≠ handle) }

end Frame

/-- What `syncConnect` finds and does with a handler that was got. -/
inductive Connect
  | connected
  | notNew
  | connects (reads : Bool)
  | fails
  deriving DecidableEq, Repr

/-- The calls of a frame, with the outcomes of what they call; `closed` ends a connection. -/
inductive Call
  | connect (id : ℕ) (new : NewOutcome) (connects reads : Bool)
  | accept (failed : Bool) (eh : ℕ) (reads : Bool) (new : NewOutcome)
  | send (id : ℕ) (env : Frame.GetEnv) (conn : Connect)
  | close
  | closed (handle : ℕ)

namespace Call

def asyncRead (reads : Bool) : List LatchOp := if reads then [] else [.get, .release]

/-- `syncConnect` of a handler. -/
def syncConnect : Connect → List LatchOp
  | .connected | .notNew => []
  | .connects reads => asyncRead reads
  | .fails => [.get, .release]

def ops (cfg : FrameConfig) (s : Frame) : Call → List LatchOp
  | .connect _ new connects reads =>
    cfg.newHandler new ++ if new = .ok ∧ connects then asyncRead reads ++ [.get, .release] else []
  | .accept failed _ reads new =>
    if failed then [] else asyncRead reads ++ [.get, .release] ++ cfg.newHandler new
  | .send id env conn =>
    (s.getHandle cfg id env).1 ++
      if (s.getHandle cfg id env).2.1 = none then [] else syncConnect conn
  | .close => [.getShared, .releaseShared]
  | .closed _ => [.get, .release]

def after (cfg : FrameConfig) (s : Frame) : Call → Frame
  | .connect id new connects _ =>
    if new = .ok ∧ connects then (s.inc new).insert id else s.inc new
  | .accept failed eh _ new =>
    if failed then s else { s with opposite := s.opposite ++ [(eh, 0)] }.inc new
  | .send id env conn =>
    match (s.getHandle cfg id env).2, conn with
    | (some eh, s'), .fails | (some eh, s'), .connects false => s'.erase eh
    | (_, s'), _ => s'
  | .close => s
  | .closed handle => s.erase handle

/-- The calls that make a handler with the latch held, in a frame with threads. -/
def Nests (cfg : FrameConfig) (s : Frame) : Call → Prop
  | .send id env _ => s.Misses cfg id env ∧ env.new.evaluates = true ∧ cfg.threadFunc = true ∧
      0 < cfg.maxSockPerThread
  | _ => False

end Call

variable {cfg : FrameConfig} {s : Frame} {ops : List LatchOp}

theorem locksOut_newHandler (held : Bool) (new : NewOutcome) :
    LocksOut held (cfg.newHandler new ++ ops) ↔
      held = true ∧ new.evaluates = true ∧ cfg.threadFunc = true ∧ 0 < cfg.maxSockPerThread
        ∨ LocksOut held ops := by
  have hparser : cfg.newHandler new = if new.evaluates then cfg.getEvSuit true else [] := by
    unfold FrameConfig.newHandler
    cases cfg.parser <;> rfl
  rw [hparser, FrameConfig.getEvSuit]
  cases held <;> cases new.evaluates <;> cases cfg.threadFunc <;>
    by_cases hmax : 0 < cfg.maxSockPerThread <;> simp [hmax, LocksOut]

theorem locksOut_asyncRead (reads : Bool) :
    LocksOut false (Call.asyncRead reads ++ ops) ↔ LocksOut false ops := by
  cases reads <;> simp [Call.asyncRead, LocksOut]

theorem not_locksOut_syncConnect (conn : Connect) : ¬ LocksOut false (Call.syncConnect conn) := by
  rcases conn with - | - | reads | -
  · simp [Call.syncConnect, LocksOut]
  · simp [Call.syncConnect, LocksOut]
  · cases reads <;> simp [Call.syncConnect, Call.asyncRead, LocksOut]
  · simp [Call.syncConnect, LocksOut]

theorem locksOut_getHandle (id : ℕ) (env : Frame.GetEnv) :
    LocksOut false ((s.getHandle cfg id env).1 ++ ops) ↔
      s.Misses cfg id env ∧ env.new.evaluates = true ∧ cfg.threadFunc = true ∧
        0 < cfg.maxSockPerThread ∨ LocksOut false ops := by
  unfold Frame.getHandle Frame.Misses
  cases s.find cfg id env.shared with
  | some eh => simp [LocksOut]
  | none =>
    cases s.find cfg id env.exclusive with
    | some eh => simp [LocksOut]
    | none => simp [LocksOut, locksOut_newHandler]

theorem locksOut_ops_iff (c : Call) : LocksOut false (c.ops cfg s) ↔ c.Nests cfg s := by
  cases c with
  | connect id new connects reads =>
    simp only [Call.ops, Call.Nests, iff_false, locksOut_newHandler]
    split <;> simp [LocksOut, locksOut_asyncRead]
  | accept failed eh reads new =>
    cases failed with
    | true => simp [Call.ops, Call.Nests, LocksOut]
    | false =>
      have hnew : LocksOut false (cfg.newHandler new ++ []) ↔ _ := locksOut_newHandler false new
      simp [Call.ops, Call.Nests, append_assoc, locksOut_asyncRead, LocksOut] at hnew ⊢
      exact hnew
  | send id env conn =>
    have hconn := not_locksOut_syncConnect conn
    rw [Call.ops, locksOut_getHandle]
    split <;> simp [Call.Nests, LocksOut, hconn]
  | close => simp [Call.ops, Call.Nests, LocksOut]
  | closed handle => simp [Call.ops, Call.Nests, LocksOut]

/-- The property of a call, with the frame it finds, holds of all calls of a run. -/
def AllCalls (P : Frame → Call → Prop) (cfg : FrameConfig) : Frame → List Call → Prop
  | _, [] => True
  | s, c :: calls => P s c ∧ AllCalls P cfg (c.after cfg s) calls

/-- **No thread locks itself out** exactly when no call makes a handler with the latch held in a
frame with threads. -/
theorem frame_locks_out_iff (cfg : FrameConfig) (s : Frame) (calls : List Call) :
    AllCalls (fun s c => ¬ LocksOut false (c.ops cfg s)) cfg s calls ↔
      AllCalls (fun s c => ¬ c.Nests cfg s) cfg s calls := by
  induction calls generalizing s with
  | nil => exact Iff.rfl
  | cons c calls ih => rw [AllCalls, AllCalls, locksOut_ops_iff, ih]

def threadFrame : FrameConfig := ⟨true, 1, 0, 0, none⟩

/-- The first message to a node is sent through a new handler, with the latch held. -/
theorem frame_locks_out_send : LocksOut false
    (Call.ops threadFrame {} (.send 7 ⟨fun _ => (0, 0), fun _ => (0, 0), .ok⟩ (.connects true))) := by
  rw [locksOut_ops_iff]
  exact ⟨by decide, rfl, rfl, by decide⟩

/-! ## The number of sockets -/

/-- The calls of `_getHandle` that return, and the ends of connections. -/
def socketSystem (cfg : FrameConfig) (Safe : Frame → ℕ → Frame.GetEnv → Prop) : System Frame where
  init s := s.route = []
  step s t := (∃ id env, Safe s id env ∧ ¬ LocksOut false (s.getHandle cfg id env).1 ∧
    t = (s.getHandle cfg id env).2.2) ∨ ∃ handle, t = s.erase handle

def WithinLimit (cfg : FrameConfig) (s : Frame) : Prop :=
  ∀ id, (s.handles id).length ≤ cfg.maxSockPerNode

def LimitKept (cfg : FrameConfig) (s : Frame) (id : ℕ) (env : Frame.GetEnv) : Prop :=
  (s.handles id).length < cfg.maxSockPerNode ∨ ¬ (s.Misses cfg id env ∧ env.new = .ok)

theorem handles_inc (new : NewOutcome) (id : ℕ) : (s.inc new).handles id = s.handles id := by
  unfold Frame.inc
  split <;> rfl

theorem length_handles_insert (id id' : ℕ) : ((s.insert id).handles id').length =
    (s.handles id').length + if id = id' then 1 else 0 := by
  by_cases h : id = id' <;> simp [Frame.handles, Frame.insert, h]

theorem length_handles_getHandle (id : ℕ) (env : Frame.GetEnv) (id' : ℕ) :
    ((s.getHandle cfg id env).2.2.handles id').length = (s.handles id').length +
      if (s.Misses cfg id env ∧ env.new = .ok) ∧ id = id' then 1 else 0 := by
  unfold Frame.getHandle
  split
  · rename_i hshared
    simp [Frame.Misses, hshared]
  · rename_i hexclusive
    simp [Frame.Misses, hexclusive]
  · rename_i hshared hexclusive
    by_cases hnew : env.new = .ok <;>
      simp [Frame.Misses, hshared, hexclusive, hnew, length_handles_insert, handles_inc]

theorem withinLimit_getHandle_iff (h : WithinLimit cfg s) (id : ℕ) (env : Frame.GetEnv) :
    WithinLimit cfg (s.getHandle cfg id env).2.2 ↔ LimitKept cfg s id env := by
  simp only [WithinLimit, LimitKept, length_handles_getHandle]
  constructor
  · intro hlimit
    have hid := hlimit id
    by_cases hmiss : s.Misses cfg id env ∧ env.new = .ok
    · rw [if_pos ⟨hmiss, rfl⟩] at hid
      exact .inl hid
    · exact .inr hmiss
  · intro hkept id'
    have hid := h id'
    split
    · rename_i hnew
      obtain ⟨hmiss, rfl⟩ := hnew
      exact hkept.resolve_right (not_not.mpr hmiss)
    · exact hid

theorem WithinLimit.erase (h : WithinLimit cfg s) (handle : ℕ) : WithinLimit cfg (s.erase handle) := by
  intro id
  refine le_trans ?_ (h id)
  unfold Frame.erase
  split
  · exact le_rfl
  · exact ((List.erase_sublist.filter _).map _).length_le

/-- **The limit of sockets for a node** is kept by the next call exactly when the node has fewer or
the call makes none. -/
theorem socket_limit_iff (hs : (socketSystem cfg (LimitKept cfg)).Reachable s) (id : ℕ)
    (env : Frame.GetEnv) :
    WithinLimit cfg s ∧
      (WithinLimit cfg (s.getHandle cfg id env).2.2 ↔ LimitKept cfg s id env) := by
  have hinv : (socketSystem cfg (LimitKept cfg)).Invariant (WithinLimit cfg) := by
    refine ⟨fun s hinit id => ?_, ?_⟩
    · simp [Frame.handles, show s.route = [] from hinit]
    · rintro s t h (⟨id, env, hsafe, -, rfl⟩ | ⟨handle, rfl⟩)
      · exact (withinLimit_getHandle_iff h id env).mpr hsafe
      · exact h.erase handle
  exact ⟨hinv.reachable hs, withinLimit_getHandle_iff (hinv.reachable hs) id env⟩

def oneSocket : FrameConfig := ⟨false, 0, 0, 1, none⟩

def busy : Frame.GetEnv := ⟨fun _ => (6000000, 6000000), fun _ => (6000000, 6000000), .ok⟩

theorem not_locksOut_oneSocket (s : Frame) (env : Frame.GetEnv) :
    ¬ LocksOut false (s.getHandle oneSocket 7 env).1 := by
  intro h
  rw [← append_nil (s.getHandle oneSocket 7 env).1, locksOut_getHandle] at h
  simp [oneSocket, LocksOut] at h

def firstSocket : Frame := (Frame.getHandle {} oneSocket 7 busy).2.2

/-- A second message to a node takes the socket it has if that is not busy, and only then. -/
theorem socket_limit_second :
    (socketSystem oneSocket (LimitKept oneSocket)).Reachable firstSocket ∧
    WithinLimit oneSocket
      (firstSocket.getHandle oneSocket 7 { busy with shared := fun _ => (0, 0) }).2.2 ∧
    ¬ WithinLimit oneSocket (firstSocket.getHandle oneSocket 7 busy).2.2 := by
  have hs : (socketSystem oneSocket (LimitKept oneSocket)).Reachable firstSocket :=
    .step (.init (rfl : ({} : Frame).route = []))
      (.inl ⟨7, busy, .inl (by decide), not_locksOut_oneSocket _ _, rfl⟩)
  refine ⟨hs, (socket_limit_iff hs 7 _).2.mpr (.inr (by decide)), fun h => ?_⟩
  exact absurd ((socket_limit_iff hs 7 busy).2.mp h) (not_or.mpr ⟨by decide, by decide⟩)

/-- A second message to a node whose socket is busy makes a second socket. -/
theorem socket_limit_exceeded : ∃ s, (socketSystem oneSocket fun _ _ _ => True).Reachable s ∧
    (s.handles 7).length = 2 := by
  have h₁ : (socketSystem oneSocket fun _ _ _ => True).Reachable firstSocket :=
    .step (.init (rfl : ({} : Frame).route = []))
      (.inl ⟨7, busy, trivial, not_locksOut_oneSocket _ _, rfl⟩)
  exact ⟨_, h₁.step (.inl ⟨7, busy, trivial, not_locksOut_oneSocket _ _, rfl⟩), by decide⟩

/-- A connection is registered by `syncConnect` to an address or by the accept callback. -/
inductive Registration
  | connect (id : ℕ)
  | accept
  deriving DecidableEq, Repr

/-- The steps of the registering thread and, from `handleClose` on, of the I/O thread. -/
inductive RegisterStep
  | asyncRead
  | insert
  | handleConnect
  | handleClose
  | erase
  deriving DecidableEq, Repr

namespace Frame

/-- Enter the handler under `_mtx`.  An accepted connection has no route ID yet. -/
def enter (s : Frame) (eh : ℕ) : Registration → Frame
  | .connect id => { s with opposite := s.opposite ++ [(eh, id)], route := s.route ++ [(id, eh)] }
  | .accept => { s with opposite := s.opposite ++ [(eh, 0)] }

/-- One step of `_acceptCallback` or of the close beside it. -/
def registerStep (reg : Registration) (eh : ℕ) (s : Frame) : RegisterStep → Frame
  | .insert => s.enter eh reg
  | .erase => s.erase eh
  | .asyncRead | .handleConnect | .handleClose => s

def Registered (s : Frame) (eh : ℕ) : Prop := eh ∈ s.opposite.map Prod.fst ∨ eh ∈ s.route.map Prod.snd

instance (s : Frame) (eh : ℕ) : Decidable (s.Registered eh) := inferInstanceAs (Decidable (_ ∨ _))

variable {eh : ℕ}

theorem registered_enter (reg : Registration) : (s.enter eh reg).Registered eh := by
  cases reg <;> simp [enter, Registered]

theorem find?_of_not_registered (h : ¬ s.Registered eh) : s.opposite.find? (·.1 = eh) = none := by
  rw [find?_eq_none]
  intro e he heq
  exact h (.inl (List.mem_map.mpr ⟨e, he, of_decide_eq_true heq⟩))

theorem not_registered_erase_enter (reg : Registration) (h : ¬ s.Registered eh) :
    ¬ ((s.enter eh reg).erase eh).Registered eh := by
  have hnone := find?_of_not_registered h
  have hnot : ∀ id, (id, eh) ∉ s.route := fun id hmem => h (.inr (List.mem_map.mpr ⟨_, hmem, rfl⟩))
  have hroute : ((s.enter eh reg).erase eh).route = s.route := by
    cases reg with
    | connect id =>
      simp [enter, erase, find?_append, hnone, erase_append_right _ (hnot id)]
    | accept => simp [enter, erase, find?_append, hnone, erase_of_not_mem (hnot 0)]
  have hopposite : ((s.enter eh reg).erase eh).opposite =
      (s.enter eh reg).opposite.filter (·.1 ≠ eh) := by
    cases reg <;> simp [enter, erase, find?_append, hnone]
  rw [Registered, hroute, hopposite]
  rintro (hmem | hmem)
  · obtain ⟨e, he, heq⟩ := List.mem_map.mp hmem
    exact of_decide_eq_true (mem_filter.mp he).2 heq
  · exact h (.inr hmem)

end Frame

/-- **A closed connection** does not stay registered exactly when it is entered before it is erased.
-/
theorem closed_unregistered_iff (reg : Registration) {s : Frame} {eh : ℕ} (h : ¬ s.Registered eh)
    {steps : List RegisterStep}
    (hsteps : Interleaves [.insert, .handleConnect] [.handleClose, .erase] steps) :
    ¬ ((RegisterStep.asyncRead :: steps).foldl (Frame.registerStep reg eh) s).Registered eh ↔
      [RegisterStep.insert, .erase].Sublist steps := by
  have herased := Frame.not_registered_erase_enter reg h
  simp only [Interleaves.cons_cons_iff, Interleaves.nil_left_iff, Interleaves.nil_right_iff,
    exists_eq_left, or_and_right, exists_or] at hsteps
  -- Only the last of the traces erases before it inserts.
  rcases hsteps with (rfl | rfl | rfl) | (rfl | rfl) | rfl
  iterate 5 exact iff_of_true herased (by decide)
  · refine iff_of_false (not_not.mpr ?_) (by decide)
    exact Frame.registered_enter reg

/-- The connection is lost after it has been entered. -/
theorem closed_unregistered_later :
    ¬ (Frame.enter {} 1 (.connect 7) |>.erase 1).Registered 1 :=
  (closed_unregistered_iff (s := {}) (.connect 7) (by decide)
    (.left (.left (.right (.right .nil))))).mpr (by decide)

/-- The read fails before the connection has been entered. -/
theorem closed_stays_registered : ∃ steps,
    Interleaves [.insert, .handleConnect] [.handleClose, .erase] steps ∧
      ((RegisterStep.asyncRead :: steps).foldl (Frame.registerStep (.connect 7) 1) {}).Registered 1 :=
  ⟨_, .right (.right (.left (.left .nil))), by decide⟩

end Novachains.Net
