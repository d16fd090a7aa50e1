import Novachains.Pmd.Container

/-!
# The life cycle of control blocks

`_pmdController::run` has the container initialise and activate its blocks in the start order, and
on every way out `destory` has it deactivate and finish them in the reverse order, as the state of
each block says.  The model records the calls of the blocks' functions; the other parts of the
controller are the results they may have.
-/

namespace Novachains.Pmd

open Lib List

/-- `PMD_CB_OPR_STAT`. -/
inductive Stat
  | null
  | init
  | active
  deriving DecidableEq, Repr

def Stat.rank : Stat → ℕ
  | null => 0
  | init => 1
  | active => 2

inductive Kind
  | init
  | active
  | deactive
  | fini
  deriving DecidableEq, Repr

def Kind.rank : Kind → ℕ
  | init => 0
  | active => 1
  | deactive => 2
  | fini => 3

variable {n : ℕ}

/-- `pmdCBOprItem`. -/
structure Item (n : ℕ) where
  cb : Fin n
  stat : Stat := .null
  deriving DecidableEq

structure Call (n : ℕ) where
  kind : Kind
  cb : Fin n
  rc : Rc
  deriving DecidableEq

def answer (arr : ArrayCB n) (kind : Kind) (t : Fin n) : Rc :=
  match arr t, kind with
  | none, _ => .ok
  | some cb, .init => cb.init
  | some cb, .active => cb.active
  | some cb, .deactive => cb.deactive
  | some cb, .fini => cb.fini

/-- The loops of `initCB` and `activeCB`: raise each block to a state by a function, up to the
first that fails. -/
def raise (arr : ArrayCB n) (kind : Kind) (target : Stat) :
    List (Item n) → Rc × List (Item n) × List (Call n)
  | [] => (.ok, [], [])
  | item :: items =>
    if target.rank ≤ item.stat.rank then
      let r := raise arr kind target items
      (r.1, item :: r.2.1, r.2.2)
    else
      let rc := answer arr kind item.cb
      if rc ≠ .ok then (rc, item :: items, [⟨kind, item.cb, rc⟩])
      else
        let r := raise arr kind target items
        (r.1, { item with stat := target } :: r.2.1, ⟨kind, item.cb, rc⟩ :: r.2.2)

/-- The loops of `deactiveCB` and `finiCB`: lower each block that has reached a state. -/
def lower (arr : ArrayCB n) (kind : Kind) (reached target : Stat) :
    List (Item n) → List (Item n) × List (Call n)
  | [] => ([], [])
  | item :: items =>
    let r := lower arr kind reached target items
    if item.stat.rank < reached.rank then (item :: r.1, r.2)
    else ({ item with stat := target } :: r.1, ⟨kind, item.cb, answer arr kind item.cb⟩ :: r.2)

/-- `_pmdContainer`. -/
structure Container (n : ℕ) where
  arrayCB : ArrayCB n
  vecCB : List (Item n) := []
  hasChecked : Bool := false

namespace Container

def check (c : Container n) : Option (Rc × Container n) :=
  if c.hasChecked then some (.ok, c)
  else
    (checkDependency c.arrayCB).map fun r =>
      (r.1, { c with vecCB := r.2.order.map fun t => ⟨t, .null⟩, hasChecked := r.1 = .ok })

def initCB (c : Container n) : Option (Rc × Container n × List (Call n)) :=
  match c.check with
  | none => none
  | some (rc, c) =>
    if rc ≠ .ok then some (rc, c, [])
    else
      let r := raise c.arrayCB .init .init c.vecCB
      some (r.1, { c with vecCB := r.2.1 }, r.2.2)

/-- `activeCB`; `postActive` is the result of starting the blocks' threads. -/
def activeCB (c : Container n) (postActive : Rc) : Rc × Container n × List (Call n) :=
  let r := raise c.arrayCB .active .active c.vecCB
  (if r.1 ≠ .ok then r.1 else postActive, { c with vecCB := r.2.1 }, r.2.2)

def deactiveCB (c : Container n) : Container n × List (Call n) :=
  let r := lower c.arrayCB .deactive .active .init c.vecCB.reverse
  ({ c with vecCB := r.1.reverse }, r.2)

def finiCB (c : Container n) : Container n × List (Call n) :=
  let r := lower c.arrayCB .fini .init .null c.vecCB.reverse
  ({ c with vecCB := r.1.reverse }, r.2)

end Container

structure RunEnv where
  resource : Rc := .ok
  eduMgr : Rc := .ok
  preStart : Rc := .ok
  postActive : Rc := .ok

/-- `_pmdController::run` up to the label `done`: the container and the calls so far. -/
def start (env : RunEnv) (c : Container n) : Option (Container n × List (Call n)) :=
  if env.resource ≠ .ok ∨ env.eduMgr ≠ .ok ∨ env.preStart ≠ .ok then some (c, [])
  else
    match c.initCB with
    | none => none
    | some (rc, c, calls) =>
      if rc ≠ .ok then some (c, calls)
      else
        -- what follows `activeCB` makes no calls
        let r := c.activeCB env.postActive
        some (r.2.1, calls ++ r.2.2)

/-- `_pmdController::run` with `destory`: the calls of the whole run. -/
def run (env : RunEnv) (arr : ArrayCB n) : Option (List (Call n)) :=
  (start env { arrayCB := arr }).map fun r =>
    let d := r.1.deactiveCB
    let f := d.1.finiCB
    r.2 ++ d.2 ++ f.2

def called (kind : Kind) (calls : List (Call n)) : List (Fin n) :=
  (calls.filter fun c => c.kind = kind).map Call.cb

/-- The blocks whose function returned `SDB_OK`, in the order of the calls. -/
def succeeded (kind : Kind) (calls : List (Call n)) : List (Fin n) :=
  (calls.filter fun c => c.kind = kind ∧ c.rc = .ok).map Call.cb

structure Nested (arr : ArrayCB n) (calls : List (Call n)) : Prop where
  deactive_once : ∀ t, (called .deactive calls).count t = if t ∈ succeeded .active calls then 1 else 0
  fini_once : ∀ t, (called .fini calls).count t = if t ∈ succeeded .init calls then 1 else 0
  init_order : DependencyOrdered (Depends arr) (called .init calls)
  active_order : DependencyOrdered (Depends arr) (called .active calls)
  deactive_order : DependencyOrdered (Depends arr) (called .deactive calls).reverse
  fini_order : DependencyOrdered (Depends arr) (called .fini calls).reverse
  active_after_init : ∀ t ∈ called .active calls, t ∈ succeeded .init calls
  phases : calls.Pairwise fun c d => c.kind.rank ≤ d.kind.rank

section

variable {arr : ArrayCB n} {kind : Kind}

def withStat (stat : Stat) (ts : List (Fin n)) : List (Item n) := ts.map fun t => ⟨t, stat⟩

def callsOf (arr : ArrayCB n) (kind : Kind) (ts : List (Fin n)) : List (Call n) :=
  ts.map fun t => ⟨kind, t, answer arr kind t⟩

/-- What raising some blocks comes to: the first ones are raised, and the next one is called too
if it failed. -/
structure Raised (arr : ArrayCB n) (kind : Kind) (ts good rest tried : List (Fin n)) (rc : Rc) :
    Prop where
  split : ts = good ++ rest
  good : ∀ t ∈ good, answer arr kind t = .ok
  tried_ok : rc = .ok → rest = [] ∧ tried = []
  tried_fail : rc ≠ .ok → ∃ t rest', rest = t :: rest' ∧ tried = [t] ∧ answer arr kind t = rc

theorem raise_withStat {stat target : Stat} (hlt : stat.rank < target.rank) (ts : List (Fin n)) :
    ∃ good rest tried rc, Raised arr kind ts good rest tried rc
      ∧ raise arr kind target (withStat stat ts)
        = (rc, withStat target good ++ withStat stat rest, callsOf arr kind (good ++ tried)) := by
  induction ts with
  | nil => exact ⟨[], [], [], .ok, ⟨rfl, by simp, by simp, by simp⟩, rfl⟩
  | cons t ts ih =>
    have hnot : ¬ target.rank ≤ stat.rank := not_le.mpr hlt
    by_cases hrc : answer arr kind t = .ok
    · obtain ⟨good, rest, tried, rc, hraised, heq⟩ := ih
      refine ⟨t :: good, rest, tried, rc, ⟨by simp [hraised.split], ?_, hraised.tried_ok,
        hraised.tried_fail⟩, ?_⟩
      · simpa [hrc] using hraised.good
      · rw [withStat] at heq
        simp [withStat, raise, hnot, hrc, heq, callsOf]
    · refine ⟨[], t :: ts, [t], answer arr kind t,
        ⟨rfl, by simp, fun h => absurd h hrc, fun _ => ⟨t, ts, rfl, rfl, rfl⟩⟩, ?_⟩
      simp [withStat, raise, hnot, hrc, callsOf]

theorem lower_append (reached target : Stat) (xs ys : List (Item n)) :
    lower arr kind reached target (xs ++ ys)
      = ((lower arr kind reached target xs).1 ++ (lower arr kind reached target ys).1,
        (lower arr kind reached target xs).2 ++ (lower arr kind reached target ys).2) := by
  induction xs with
  | nil => rfl
  | cons x xs ih =>
    simp only [cons_append, lower, ih]
    split <;> rfl

theorem lower_withStat_of_lt {stat reached target : Stat} (h : stat.rank < reached.rank)
    (ts : List (Fin n)) :
    lower arr kind reached target (withStat stat ts) = (withStat stat ts, []) := by
  induction ts with
  | nil => rfl
  | cons t ts ih =>
    rw [withStat] at ih
    simp [withStat, lower, h, ih]

theorem lower_withStat_of_le {stat reached target : Stat} (h : reached.rank ≤ stat.rank)
    (ts : List (Fin n)) :
    lower arr kind reached target (withStat stat ts)
      = (withStat target ts, callsOf arr kind ts) := by
  induction ts with
  | nil => rfl
  | cons t ts ih =>
    rw [withStat] at ih
    simp [withStat, lower, not_lt.mpr h, ih, callsOf]

theorem reverse_withStat (stat : Stat) (ts : List (Fin n)) :
    (withStat stat ts).reverse = withStat stat ts.reverse := by simp [withStat]

theorem destory_calls (A I N : List (Fin n)) (checked : Bool) :
    let c : Container n :=
      ⟨arr, withStat .active A ++ withStat .init I ++ withStat .null N, checked⟩
    c.deactiveCB.2 ++ c.deactiveCB.1.finiCB.2
      = callsOf arr .deactive A.reverse ++ callsOf arr .fini (A ++ I).reverse := by
  have hdeactive : lower arr .deactive .active .init
      (withStat .active A ++ withStat .init I ++ withStat .null N).reverse
        = (withStat .null N.reverse ++ (withStat .init I.reverse ++ withStat .init A.reverse),
          callsOf arr .deactive A.reverse) := by
    simp only [reverse_append, reverse_withStat, lower_append]
    rw [lower_withStat_of_lt (by decide), lower_withStat_of_lt (by decide),
      lower_withStat_of_le (by decide)]
    rfl
  have hfini : lower arr .fini .init .null
      (withStat .null N.reverse ++ (withStat .init I.reverse ++ withStat .init A.reverse))
        = (withStat .null N.reverse ++ (withStat .null I.reverse ++ withStat .null A.reverse),
          callsOf arr .fini (A ++ I).reverse) := by
    simp only [lower_append]
    rw [lower_withStat_of_lt (by decide), lower_withStat_of_le (by decide),
      lower_withStat_of_le (by decide)]
    simp [callsOf]
  simp only [Container.deactiveCB, Container.finiCB, hdeactive, reverse_reverse, hfini]

/-! ## The calls of a run -/

@[simp] theorem called_append (k : Kind) (cs ds : List (Call n)) :
    called k (cs ++ ds) = called k cs ++ called k ds := by simp [called]

@[simp] theorem succeeded_append (k : Kind) (cs ds : List (Call n)) :
    succeeded k (cs ++ ds) = succeeded k cs ++ succeeded k ds := by simp [succeeded]

@[simp] theorem called_callsOf (k k' : Kind) (ts : List (Fin n)) :
    called k (callsOf arr k' ts) = if k' = k then ts else [] := by
  induction ts with
  | nil => simp [called, callsOf]
  | cons t ts ih =>
    simp only [called, callsOf] at ih ⊢
    by_cases hk : k' = k <;> simp_all

theorem succeeded_callsOf_ne {k k' : Kind} (h : k' ≠ k) (ts : List (Fin n)) :
    succeeded k (callsOf arr k' ts) = [] := by simp [succeeded, callsOf, h]

theorem succeeded_callsOf (k : Kind) {good tried : List (Fin n)}
    (hgood : ∀ t ∈ good, answer arr k t = .ok) (htried : ∀ t ∈ tried, answer arr k t ≠ .ok) :
    succeeded k (callsOf arr k (good ++ tried)) = good := by
  have h1 : succeeded k (callsOf arr k good) = good := by
    induction good with
    | nil => rfl
    | cons t good ih =>
      obtain ⟨ht, hrest⟩ := forall_mem_cons.mp hgood
      have := ih hrest
      simp only [succeeded, callsOf, map_cons] at this ⊢
      rw [filter_cons_of_pos (by simp [ht]), map_cons, this]
  have h2 : succeeded k (callsOf arr k tried) = [] := by
    simpa [succeeded, callsOf] using htried
  rw [callsOf, map_append]
  change succeeded k (callsOf arr k good ++ callsOf arr k tried) = good
  rw [succeeded_append, h1, h2, append_nil]

theorem rank_callsOf {k : Kind} {ts : List (Fin n)} {c : Call n} (h : c ∈ callsOf arr k ts) :
    c.kind = k := by
  obtain ⟨t, -, rfl⟩ := List.mem_map.mp h
  rfl

/-- The calls of a run: `A` was activated, `I` only initialised, `tried₀` and `tried₁` failed. -/
def traceOf (arr : ArrayCB n) (A I tried₀ tried₁ : List (Fin n)) : List (Call n) :=
  callsOf arr .init (A ++ I ++ tried₀) ++ callsOf arr .active (A ++ tried₁)
    ++ (callsOf arr .deactive A.reverse ++ callsOf arr .fini (A ++ I).reverse)

theorem phases_traceOf (A I tried₀ tried₁ : List (Fin n)) :
    (traceOf arr A I tried₀ tried₁).Pairwise fun c d => c.kind.rank ≤ d.kind.rank := by
  have hself : ∀ k ts, (callsOf arr k ts).Pairwise fun c d => c.kind.rank ≤ d.kind.rank := by
    intro k ts
    rw [pairwise_iff_forall_sublist]
    intro c d h
    rw [rank_callsOf (h.subset (by simp)), rank_callsOf (h.subset (by simp))]
  simp only [traceOf, pairwise_append, hself, true_and, mem_append]
  refine ⟨fun c hc d hd => ?_, fun c hc d hd => ?_, fun c hc d hd => ?_⟩
  · rw [rank_callsOf hc, rank_callsOf hd]
    decide
  · rw [rank_callsOf hc, rank_callsOf hd]
    decide
  · rcases hc with hc | hc <;> rcases hd with hd | hd <;> rw [rank_callsOf hc, rank_callsOf hd] <;>
      decide

structure Reached (arr : ArrayCB n) (order A I N tried₀ tried₁ : List (Fin n)) : Prop where
  split : order = A ++ I ++ N
  nodup : order.Nodup
  ordered : DependencyOrdered (Depends arr) order
  init_ok : ∀ t ∈ A ++ I, answer arr .init t = .ok
  active_ok : ∀ t ∈ A, answer arr .active t = .ok
  init_tried : tried₀ <+: N
  active_tried : tried₁ <+: I
  init_failed : ∀ t ∈ tried₀, answer arr .init t ≠ .ok
  active_failed : ∀ t ∈ tried₁, answer arr .active t ≠ .ok

theorem count_reverse_of_nodup {ts : List (Fin n)} (h : ts.Nodup) (t : Fin n) :
    ts.reverse.count t = if t ∈ ts then 1 else 0 := by
  rw [count_reverse, h.count]

/-- **However far a run got, its calls are nested.** -/
theorem Reached.nested {order A I N tried₀ tried₁ : List (Fin n)}
    (h : Reached arr order A I N tried₀ tried₁) : Nested arr (traceOf arr A I tried₀ tried₁) := by
  have hinit : called .init (traceOf arr A I tried₀ tried₁) = A ++ I ++ tried₀ := by simp [traceOf]
  have hactive : called .active (traceOf arr A I tried₀ tried₁) = A ++ tried₁ := by simp [traceOf]
  have hdeactive : called .deactive (traceOf arr A I tried₀ tried₁) = A.reverse := by simp [traceOf]
  have hfini : called .fini (traceOf arr A I tried₀ tried₁) = (A ++ I).reverse := by
    simp [traceOf]
  have hokInit : succeeded .init (traceOf arr A I tried₀ tried₁) = A ++ I := by
    simp only [traceOf, succeeded_append, succeeded_callsOf _ h.init_ok h.init_failed]
    simp [succeeded_callsOf_ne]
  have hokActive : succeeded .active (traceOf arr A I tried₀ tried₁) = A := by
    simp only [traceOf, succeeded_append, succeeded_callsOf _ h.active_ok h.active_failed]
    simp [succeeded_callsOf_ne]
  have hpreAI : A ++ I <+: order := by
    rw [h.split]
    exact prefix_append _ _
  have hpreA : A <+: order := (prefix_append A I).trans hpreAI
  have hpreTried₀ : A ++ I ++ tried₀ <+: order := by
    rw [h.split]
    exact prefix_append_right_inj _ |>.mpr h.init_tried
  have hpreTried₁ : A ++ tried₁ <+: order :=
    ((prefix_append_right_inj _).mpr h.active_tried).trans hpreAI
  exact {
    deactive_once := fun t => by
      rw [hdeactive, hokActive, count_reverse_of_nodup (h.nodup.sublist hpreA.sublist)]
    fini_once := fun t => by
      rw [hfini, hokInit, count_reverse_of_nodup (h.nodup.sublist hpreAI.sublist)]
    init_order := by
      rw [hinit]
      exact h.ordered.of_prefix hpreTried₀
    active_order := by
      rw [hactive]
      exact h.ordered.of_prefix hpreTried₁
    deactive_order := by
      rw [hdeactive, reverse_reverse]
      exact h.ordered.of_prefix hpreA
    fini_order := by
      rw [hfini, reverse_reverse]
      exact h.ordered.of_prefix hpreAI
    active_after_init := fun t ht => by
      rw [hactive] at ht
      rw [hokInit]
      exact ((prefix_append_right_inj _).mpr h.active_tried).subset ht
    phases := phases_traceOf A I tried₀ tried₁ }

theorem reached_nil : Reached arr [] [] [] [] [] [] where
  split := rfl
  nodup := nodup_nil
  ordered := dependencyOrdered_nil
  init_ok := by simp
  active_ok := by simp
  init_tried := prefix_rfl
  active_tried := prefix_rfl
  init_failed := by simp
  active_failed := by simp

/-- What `run` has done when it comes to the label `done`. -/
def Started (arr : ArrayCB n) (r : Option (Container n × List (Call n))) : Prop :=
  ∃ A I N checked calls,
    r = some (⟨arr, withStat .active A ++ withStat .init I ++ withStat .null N, checked⟩, calls)
      ∧ ∃ order N' tried₀ tried₁, Reached arr order A I N' tried₀ tried₁
        ∧ calls = callsOf arr .init (A ++ I ++ tried₀) ++ callsOf arr .active (A ++ tried₁)

theorem started_nil (N : List (Fin n)) (checked : Bool) :
    Started arr (some (⟨arr, withStat .null N, checked⟩, [])) :=
  ⟨[], [], N, checked, [], rfl, [], [], [], [], reached_nil, rfl⟩

theorem Raised.tried_spec {ts good rest tried : List (Fin n)} {rc : Rc}
    (h : Raised arr kind ts good rest tried rc) :
    tried <+: rest ∧ ∀ t ∈ tried, answer arr kind t ≠ .ok := by
  by_cases hrc : rc = .ok
  · obtain ⟨rfl, rfl⟩ := h.tried_ok hrc
    exact ⟨prefix_rfl, by simp⟩
  · obtain ⟨t, rest', rfl, rfl, ht⟩ := h.tried_fail hrc
    refine ⟨⟨rest', rfl⟩, fun u hu => ?_⟩
    rwa [mem_singleton.mp hu, ht]

theorem started_of_check {order : List (Fin n)} (hnodup : order.Nodup)
    (hordered : DependencyOrdered (Depends arr) order) {env : RunEnv}
    (hcheck : ({ arrayCB := arr } : Container n).check
      = some (.ok, ⟨arr, withStat .null order, true⟩))
    (henv : ¬ (env.resource ≠ .ok ∨ env.eduMgr ≠ .ok ∨ env.preStart ≠ .ok)) :
    Started arr (start env { arrayCB := arr }) := by
  obtain ⟨good, rest, tried, rc, hinit, heq⟩ :=
    @raise_withStat n arr .init .null .init (by decide) order
  obtain ⟨htried, hfailed⟩ := hinit.tried_spec
  have hcb : ({ arrayCB := arr } : Container n).initCB
      = some (rc, ⟨arr, withStat .init good ++ withStat .null rest, true⟩,
        callsOf arr .init (good ++ tried)) := by
    rw [Container.initCB, hcheck]
    simp [heq]
  rw [start, if_neg henv, hcb]
  by_cases hrc : rc = .ok
  · obtain ⟨rfl, rfl⟩ := hinit.tried_ok hrc
    obtain ⟨good', rest', tried', rc', hactive, heq'⟩ :=
      @raise_withStat n arr .active .init .active (by decide) good
    obtain ⟨htried', hfailed'⟩ := hactive.tried_spec
    have hnil : withStat .init good ++ withStat .null [] = withStat .init good := by simp [withStat]
    refine ⟨good', rest', [], true, callsOf arr .init (good' ++ rest' ++ [])
      ++ callsOf arr .active (good' ++ tried'), ?_, order, [], [], tried', ⟨?_, hnodup, hordered,
        ?_, hactive.good, prefix_rfl, htried', by simp, hfailed'⟩, rfl⟩
    · dsimp only
      rw [if_neg (not_not.mpr hrc), Container.activeCB]
      rw [hnil, heq', append_nil, ← hactive.split, append_nil]
      simp [withStat]
    · simpa [hactive.split] using hinit.split
    · simpa [hactive.split] using hinit.good
  · refine ⟨[], good, rest, true, callsOf arr .init (good ++ tried), by simp [hrc, withStat], order,
      rest, tried, [], ⟨hinit.split, hnodup, hordered, hinit.good, by simp, htried,
        nil_prefix, hfailed, by simp⟩, by simp [callsOf]⟩

theorem start_started (env : RunEnv) : Started arr (start env { arrayCB := arr }) := by
  obtain ⟨rc, s, hs, -, hok⟩ := start_order_iff arr
  have hcheck : ({ arrayCB := arr } : Container n).check
      = some (rc, ⟨arr, withStat .null s.order, decide (rc = .ok)⟩) := by
    rw [Container.check]
    simp [hs, withStat]
  by_cases henv : env.resource ≠ .ok ∨ env.eduMgr ≠ .ok ∨ env.preStart ≠ .ok
  · rw [start, if_pos henv]
    exact started_nil [] false
  by_cases hrc : rc = .ok
  · subst hrc
    obtain ⟨hnodup, -, hordered⟩ := hok rfl
    exact started_of_check hnodup hordered hcheck henv
  have hcb : ({ arrayCB := arr } : Container n).initCB
      = some (rc, ⟨arr, withStat .null s.order, decide (rc = .ok)⟩, []) := by
    rw [Container.initCB, hcheck]
    simp [hrc]
  rw [start, if_neg henv, hcb]
  dsimp only
  rw [if_pos hrc]
  exact started_nil s.order _

end

/-- **The life cycle is properly nested** wherever the start fails: what was activated is
deactivated and what was initialised is finished, once and in reverse. -/
theorem lifecycle_nested (env : RunEnv) (arr : ArrayCB n) :
    ∃ calls, run env arr = some calls ∧ Nested arr calls := by
  obtain ⟨A, I, N, checked, calls, hstart, order, N', tried₀, tried₁, hreached, rfl⟩ :=
    start_started env
  refine ⟨traceOf arr A I tried₀ tried₁, ?_, hreached.nested⟩
  rw [run, hstart, Option.map_some, append_assoc, destory_calls, traceOf]

end Novachains.Pmd
