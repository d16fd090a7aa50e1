import Novachains.Basic
import Mathlib.Data.List.Nodup
import Mathlib.Logic.Function.Basic

/-!
# The start of the controller

`_pmdController::init` creates the control blocks of a list, enters the interfaces they publish into
`_ifAdapter` and registers them in the container.  The block at which it stops is released; what has
been entered stays.  A block is known by its number in the list.
-/

namespace Novachains.Pmd

open List Function

/-- `PMD_CB_MAX`. -/
abbrev cbMax : ℤ := 3

/-- `PMD_IF_MAX`. -/
abbrev ifMax : ℕ := 2

/-- `IF_PUB_MODE`, with the list of `publishList`. -/
inductive PubMode
  | ifNull
  | ifAll
  | ifList (types : List ℕ)

/-- A control block; `queryIF` says which interfaces it has. -/
structure ControlBlock where
  cbType : ℤ
  publishMode : PubMode
  queryIF : ℕ → Bool

namespace ControlBlock

/-- The interfaces that `registerRoot` enters, in this order. -/
def published (cb : ControlBlock) : List ℕ :=
  match cb.publishMode with
  | .ifNull => []
  | .ifAll => (List.range' 1 (ifMax - 1)).filter cb.queryIF
  | .ifList types => types.filter cb.queryIF

/-- `registerCB` accepts the type. -/
def Valid (cb : ControlBlock) : Prop := 0 ≤ cb.cbType ∧ cb.cbType < cbMax

instance (cb : ControlBlock) : Decidable cb.Valid := inferInstanceAs (Decidable (_ ∧ _))

end ControlBlock

/-- What becomes of a listed type: there is no such block, `createCB` fails, or there is one. -/
inductive Creation
  | notImplemented
  | failed
  | created (cb : ControlBlock)

/-- `_ifAdapter`, the container, and the blocks that were registered and released. -/
structure Controller where
  ifs : List (ℕ × ℕ × ControlBlock) := []
  arrayCB : ℤ → Option ℕ := fun _ => none
  registered : List ℕ := []
  released : List ℕ := []

namespace Controller

/-- `registerRoot`: `_addIF` of one interface after the other, until one is there already. -/
def registerRoot (owner : ℕ × ControlBlock) :
    List ℕ → List (ℕ × ℕ × ControlBlock) → Bool × List (ℕ × ℕ × ControlBlock)
  | [], ifs => (true, ifs)
  | type :: types, ifs =>
    if type ∈ ifs.map Prod.fst then (false, ifs)
    else registerRoot owner types (ifs ++ [(type, owner)])

/-- The loop of `init`, from the number `i` on.  Where `registerRoot` fails, `rc` is `SDB_OK`. -/
def init (i : ℕ) (s : Controller) : List Creation → Rc × Controller
  | [] => (.ok, s)
  | .notImplemented :: _ => (.sys, s)
  | .failed :: _ => (.oom, s)
  | .created cb :: list =>
    let r := registerRoot (i, cb) cb.published s.ifs
    if !r.1 then (.ok, { s with ifs := r.2, released := [i] })
    else if cb.Valid then
      init (i + 1) { s with
        ifs := r.2
        arrayCB := update s.arrayCB cb.cbType (some i)
        registered := s.registered ++ [i] } list
    else (.sys, { s with ifs := r.2, released := [i] })

/-- Every block was created, has all its interfaces entered and was registered. -/
def Complete (s : Controller) : ℕ → List Creation → Prop
  | _, [] => True
  | i, .created cb :: list =>
    (i ∈ s.registered ∧ ∀ type ∈ cb.published, (type, i, cb) ∈ s.ifs) ∧ Complete s (i + 1) list
  | _, _ => False

def Kept (s : Controller) : Prop :=
  ∀ e ∈ s.ifs, s.arrayCB e.2.2.cbType = some e.2.1 ∧ e.2.1 ∉ s.released

end Controller

def AllOrError (list : List Creation) : Prop :=
  ((Controller.init 0 {} list).1 = .ok ↔ (Controller.init 0 {} list).2.Complete 0 list) ∧
    (Controller.init 0 {} list).2.Kept

def reached : List Creation → List ControlBlock
  | .created cb :: list => cb :: if cb.Valid then reached list else []
  | _ => []

/-- No interface is published twice, a refused block publishes none, and no block that published is
replaced. -/
structure Admits (s : Controller) (cbs : List ControlBlock) : Prop where
  nodup : (s.ifs.map Prod.fst ++ cbs.flatMap ControlBlock.published).Nodup
  refused : ∀ cb ∈ cbs, ¬ cb.Valid → cb.published = []
  kept : ∀ e ∈ s.ifs, ∀ cb ∈ cbs, cb.Valid → cb.cbType ≠ e.2.2.cbType
  apart : cbs.Pairwise fun a b => b.Valid → b.cbType = a.cbType → a.published = []

namespace Controller

variable {s : Controller} {i : ℕ} {cb : ControlBlock} {list : List Creation}

theorem registerRoot_eq (owner : ℕ × ControlBlock) (types : List ℕ)
    {ifs : List (ℕ × ℕ × ControlBlock)} (h : (ifs.map Prod.fst).Nodup) :
    (ifs.map Prod.fst ++ types).Nodup ∧
      registerRoot owner types ifs = (true, ifs ++ types.map (·, owner)) ∨
    ¬ (ifs.map Prod.fst ++ types).Nodup ∧ (registerRoot owner types ifs).1 = false := by
  induction types generalizing ifs with
  | nil => exact .inl ⟨by simpa using h, by simp [registerRoot]⟩
  | cons type types ih =>
    rw [registerRoot]
    split_ifs with hmem
    · refine .inr ⟨fun hnd => ?_, rfl⟩
      exact (nodup_append.mp hnd).2.2 type hmem type mem_cons_self rfl
    have hnd : ((ifs ++ [(type, owner)]).map Prod.fst).Nodup := by
      rw [map_append, map_singleton]
      exact nodup_append_comm.mp (nodup_cons.mpr ⟨hmem, h⟩)
    have hrest := ih hnd
    simpa [append_assoc] using hrest

theorem subset_registerRoot (owner : ℕ × ControlBlock) (types : List ℕ)
    (ifs : List (ℕ × ℕ × ControlBlock)) : ifs ⊆ (registerRoot owner types ifs).2 := by
  induction types generalizing ifs with
  | nil => exact List.Subset.refl ifs
  | cons type types ih =>
    rw [registerRoot]
    split_ifs
    · exact List.Subset.refl ifs
    · exact List.Subset.trans (subset_append_left ..) (ih _)

theorem init_mono (i : ℕ) (s : Controller) (list : List Creation) :
    s.ifs ⊆ (init i s list).2.ifs ∧ s.registered ⊆ (init i s list).2.registered := by
  fun_induction init i s list with
  | case1 | case2 | case3 => exact ⟨List.Subset.refl _, List.Subset.refl _⟩
  | case4 => exact ⟨subset_registerRoot .., List.Subset.refl _⟩
  | case5 i s cb list r _ _ ih =>
    exact ⟨List.Subset.trans (subset_registerRoot ..) ih.1,
      List.Subset.trans (subset_append_left ..) ih.2⟩
  | case6 => exact ⟨subset_registerRoot .., List.Subset.refl _⟩

/-- The state in front of the block with the number `i`. -/
structure Before (s : Controller) (i : ℕ) : Prop where
  nodup : (s.ifs.map Prod.fst).Nodup
  owner_lt : ∀ e ∈ s.ifs, e.2.1 < i
  registered_lt : ∀ j ∈ s.registered, j < i
  released : s.released = []

def next (s : Controller) (i : ℕ) (cb : ControlBlock) : Controller :=
  { s with
    ifs := s.ifs ++ cb.published.map (·, i, cb)
    arrayCB := update s.arrayCB cb.cbType (some i)
    registered := s.registered ++ [i] }

theorem Before.next (h : s.Before i) (hnd : (s.ifs.map Prod.fst ++ cb.published).Nodup) :
    (s.next i cb).Before (i + 1) := by
  refine ⟨by simpa [Controller.next, comp_def] using hnd, ?_, ?_, h.released⟩
  · intro e he
    rcases mem_append.mp he with hold | hnew
    · exact Nat.lt_succ_of_lt (h.owner_lt e hold)
    · obtain ⟨type, -, rfl⟩ := List.mem_map.mp hnew
      exact Nat.lt_succ_self i
  · intro j hj
    rcases mem_append.mp hj with hold | hnew
    · exact Nat.lt_succ_of_lt (h.registered_lt j hold)
    · rw [mem_singleton.mp hnew]
      exact Nat.lt_succ_self i

theorem Before.kept_next_iff (h : s.Before i) :
    (s.next i cb).Kept ↔ s.Kept ∧ ∀ e ∈ s.ifs, cb.cbType ≠ e.2.2.cbType := by
  have hslot : ∀ e ∈ s.ifs, update s.arrayCB cb.cbType (some i) e.2.2.cbType = some e.2.1 ↔
      s.arrayCB e.2.2.cbType = some e.2.1 ∧ cb.cbType ≠ e.2.2.cbType := by
    intro e he
    by_cases heq : e.2.2.cbType = cb.cbType
    · rw [heq, update_self, Option.some_inj]
      exact iff_of_false (ne_of_gt (h.owner_lt e he)) fun hno => hno.2 rfl
    · rw [update_of_ne heq]
      exact (and_iff_left (Ne.symm heq)).symm
  simp only [Kept, Controller.next, h.released, not_mem_nil, not_false_eq_true, and_true,
    forall_mem_append, List.forall_mem_map, update_self, implies_true]
  rw [← forall₂_and]
  exact forall₂_congr hslot

theorem admits_next_iff (hcb : cb.Valid) (cbs : List ControlBlock) :
    Admits (s.next i cb) cbs ∧ (∀ e ∈ s.ifs, cb.cbType ≠ e.2.2.cbType) ↔ Admits s (cb :: cbs) := by
  have hnone : ∀ b : ControlBlock, (∀ type ∈ cb.published, b.cbType ≠ cb.cbType) ↔
      (b.cbType = cb.cbType → cb.published = []) := by
    intro b
    rw [eq_nil_iff_forall_not_mem]
    exact ⟨fun h heq type ht => h type ht heq, fun h type ht heq => h heq type ht⟩
  constructor
  · rintro ⟨h, hne⟩
    refine ⟨?_, ?_, ?_, ?_⟩
    · simpa [Controller.next, comp_def] using h.nodup
    · exact forall_mem_cons.mpr ⟨fun hno => absurd hcb hno, h.refused⟩
    · intro e he
      exact forall_mem_cons.mpr ⟨fun _ => hne e he, h.kept e (mem_append_left _ he)⟩
    · refine pairwise_cons.mpr ⟨fun b hb hvalid => (hnone b).mp fun type ht => ?_, h.apart⟩
      exact h.kept _ (mem_append_right _ (List.mem_map_of_mem ht)) b hb hvalid
  · intro h
    obtain ⟨hfirst, hrest⟩ := pairwise_cons.mp h.apart
    refine ⟨⟨?_, ?_, ?_, hrest⟩, fun e he => h.kept e he cb mem_cons_self hcb⟩
    · simpa [Controller.next, comp_def] using h.nodup
    · exact fun b hb => h.refused b (mem_cons_of_mem _ hb)
    intro e he b hb hvalid
    rcases mem_append.mp he with hold | hnew
    · exact h.kept e hold b (mem_cons_of_mem _ hb) hvalid
    · obtain ⟨type, ht, rfl⟩ := List.mem_map.mp hnew
      exact (hnone b).mpr (hfirst b hb hvalid) type ht

theorem Before.admits_nil (h : s.Before i) : Admits s [] :=
  ⟨by simpa using h.nodup, nofun, fun _ _ => nofun, .nil⟩

theorem Before.refused_iff (h : s.Before i) (hcb : ¬ cb.Valid)
    (hnd : (s.ifs.map Prod.fst ++ cb.published).Nodup) :
    Kept { s with ifs := s.ifs ++ cb.published.map (·, i, cb), released := [i] } ↔
      s.Kept ∧ Admits s [cb] := by
  have hold : ∀ e ∈ s.ifs, e.2.1 ∉ [i] := fun e he hi =>
    ne_of_lt (h.owner_lt e he) (mem_singleton.mp hi)
  have hadmits : Admits s [cb] ↔ cb.published = [] :=
    ⟨fun ha => ha.refused cb mem_cons_self hcb, fun hnil => ⟨by simpa using hnd,
      by simp [hnil], by simp [hcb], pairwise_singleton ..⟩⟩
  rw [hadmits, eq_nil_iff_forall_not_mem]
  simp only [Kept, h.released, not_mem_nil, not_false_eq_true, and_true,
    forall_mem_append, List.forall_mem_map, mem_singleton, not_true_eq_false, and_false]
  refine and_congr_left fun _ => forall₂_congr fun e he => and_iff_left ?_
  simpa using hold e he

/-- **The loop** is all or error exactly if what is there stays registered and the blocks that it
reaches are admitted. -/
theorem Before.init_iff (h : s.Before i) :
    ((init i s list).1 = .ok ↔ (init i s list).2.Complete i list) ∧ (init i s list).2.Kept ↔
      s.Kept ∧ Admits s (reached list) := by
  induction list generalizing i s with
  | nil => simp [init, Complete, reached, h.admits_nil]
  | cons c list ih =>
    cases c with
    | notImplemented => simp [init, Complete, reached, h.admits_nil]
    | failed => simp [init, Complete, reached, h.admits_nil]
    | created cb =>
      have hnew : i ∉ s.registered := fun hmem => lt_irrefl i (h.registered_lt i hmem)
      rw [reached]
      rcases registerRoot_eq (i, cb) cb.published h.nodup with ⟨hnd, heq⟩ | ⟨hnd, hfalse⟩
      · by_cases hcb : cb.Valid
        · have hinit : init i s (.created cb :: list) = init (i + 1) (s.next i cb) list := by
            simp [init, heq, hcb, Controller.next]
          obtain ⟨hifs, hreg⟩ := init_mono (i + 1) (s.next i cb) list
          have hdone : i ∈ (init (i + 1) (s.next i cb) list).2.registered ∧
              ∀ type ∈ cb.published, (type, i, cb) ∈ (init (i + 1) (s.next i cb) list).2.ifs :=
            ⟨hreg (mem_append_right _ mem_cons_self),
              fun type ht => hifs (mem_append_right _ (List.mem_map_of_mem ht))⟩
          rw [hinit, Complete, and_iff_right hdone, ih (h.next hnd), h.kept_next_iff, and_assoc,
            and_comm (a := ∀ e ∈ s.ifs, _), admits_next_iff hcb, if_pos hcb]
        · have hinit : init i s (.created cb :: list) =
              (.sys, { s with ifs := s.ifs ++ cb.published.map (·, i, cb), released := [i] }) := by
            simp [init, heq, hcb]
          rw [hinit, if_neg hcb, ← h.refused_iff hcb hnd]
          simp [Complete, hnew]
      · refine iff_of_false ?_ fun hadm => ?_
        · rintro ⟨hok, -⟩
          have hcomplete := hok.mp (by simp [init, hfalse])
          rw [Complete] at hcomplete
          exact hnew (by simpa [init, hfalse] using hcomplete.1.1)
        · have hnodup := hadm.2.nodup
          rw [flatMap_cons, ← append_assoc] at hnodup
          exact hnd hnodup.of_append_left

end Controller

/-- **The start of the controller** is all or error exactly if no interface is published twice, no
refused block publishes one, and no block that does is replaced. -/
theorem controller_start_iff (list : List Creation) :
    AllOrError list ↔ Admits {} (reached list) := by
  have hstart : Controller.Before {} 0 := ⟨.nil, nofun, nofun, rfl⟩
  have hkept : Controller.Kept {} := nofun
  rw [AllOrError, hstart.init_iff, and_iff_right hkept]

def netBlock : ControlBlock := ⟨2, .ifAll, fun _ => true⟩

/-- Two blocks publish the interface: the second is released, and the start succeeds. -/
theorem controller_start_twice : ¬ AllOrError [.created netBlock, .created netBlock] ∧
    (Controller.init 0 {} [.created netBlock, .created netBlock]).1 = .ok ∧
      (Controller.init 0 {} [.created netBlock, .created netBlock]).2.registered = [0] := by
  refine ⟨fun h => ?_, by decide, by decide⟩
  have hcomplete := h.1.mp (by decide)
  exact absurd hcomplete.2.1.1 (by decide)

end Novachains.Pmd
