import Mathlib.Data.List.Nodup
import Novachains.Lib.Transition

/-!
# Service items

A service item owns a route agent with a thread and, if it was given none, the message handler that
the thread delivers to.  The manager keeps the live items and deletes them at its end, in a loop
that takes an item out of the list and still goes on to the next index.
-/

namespace Novachains.Net

open Lib List

/-- `_netServiceItem`, numbered in the order of creation. -/
structure ServiceItem where
  id : ℕ
  hdAllocated : Bool
  deriving DecidableEq, Repr

inductive TeardownStep
  | deleteHandler
  | stop
  | join
  | deleteAgent
  deriving DecidableEq, Repr

namespace ServiceItem

/-- `~_netServiceItem`. -/
def teardown (item : ServiceItem) : List TeardownStep :=
  (if item.hdAllocated then [.deleteHandler] else []) ++ [.stop, .join, .deleteAgent]

/-- The handler is deleted only after the agent was stopped and its thread joined. -/
def InOrder (item : ServiceItem) : Prop :=
  ∀ pre post, item.teardown = pre ++ .deleteHandler :: post → .stop ∈ pre ∧ .join ∈ pre

theorem inOrder_iff (item : ServiceItem) : item.InOrder ↔ item.hdAllocated = false := by
  unfold InOrder teardown
  cases item.hdAllocated with
  | true =>
    refine iff_of_false (fun h => ?_) Bool.noConfusion
    exact not_mem_nil (h [] [.stop, .join, .deleteAgent] rfl).1
  | false =>
    refine iff_of_true (fun pre post heq => ?_) rfl
    have hmem : TeardownStep.deleteHandler ∈ [TeardownStep.stop, .join, .deleteAgent] := by
      rw [show [TeardownStep.stop, .join, .deleteAgent] = _ from heq]
      exact mem_append_right pre mem_cons_self
    exact absurd hmem (by decide)

end ServiceItem

/-- `_netSvcManager` with its `itemList`; all items and those that were deleted are noted. -/
structure SvcManager where
  itemList : List ServiceItem := []
  created : List ServiceItem := []
  deleted : List ServiceItem := []

namespace SvcManager

/-- `createSvcItem` with a handler or without; the allocation may fail. -/
def createSvcItem (m : SvcManager) (handler alloc : Bool) : SvcManager :=
  let item : ServiceItem := ⟨m.created.length, !handler⟩
  if alloc then { m with itemList := m.itemList ++ [item], created := m.created ++ [item] } else m

def freeSvcItem (m : SvcManager) (item : ServiceItem) : SvcManager :=
  { m with itemList := m.itemList.erase item, deleted := m.deleted ++ [item] }

/-- The items that the loop of `~_netSvcManager` deletes from the index `i` on. -/
def deleteFrom (i : ℕ) (itemList : List ServiceItem) : List ServiceItem :=
  if h : i < itemList.length then itemList[i] :: deleteFrom (i + 1) (itemList.eraseIdx i) else []
termination_by itemList.length - i
decreasing_by
  rw [length_eraseIdx_of_lt h]
  omega

/-- What `~_netSvcManager` deletes. -/
def destroyed (m : SvcManager) : List ServiceItem := m.deleted ++ deleteFrom 0 m.itemList

/-- Every item is deleted exactly once, and those that are deleted are torn down in order. -/
def TornDown (m : SvcManager) : Prop :=
  (∀ item ∈ m.created, m.destroyed.count item = 1) ∧ ∀ item ∈ m.destroyed, item.InOrder

end SvcManager

def svcSystem : System SvcManager where
  init m := m = {}
  step m m' := (∃ handler alloc, m' = m.createSvcItem handler alloc) ∨
    ∃ item ∈ m.itemList, m' = m.freeSvcItem item

structure SvcManager.Kept (m : SvcManager) : Prop where
  perm : (m.deleted ++ m.itemList).Perm m.created
  ids : m.created.map ServiceItem.id = List.range m.created.length

theorem kept_invariant : svcSystem.Invariant SvcManager.Kept where
  init := by
    rintro m rfl
    exact ⟨.nil, rfl⟩
  step := by
    rintro m m' h (⟨handler, alloc, rfl⟩ | ⟨item, hitem, rfl⟩)
    · cases alloc with
      | false => exact h
      | true =>
        refine ⟨?_, ?_⟩
        · have happ := h.perm.append_right [⟨m.created.length, !handler⟩]
          rwa [append_assoc] at happ
        · simp [SvcManager.createSvcItem, h.ids, range_succ]
    · refine ⟨?_, h.ids⟩
      refine List.Perm.trans ?_ h.perm
      rw [SvcManager.freeSvcItem, append_assoc]
      exact (perm_cons_erase hitem).symm.append_left m.deleted

namespace SvcManager

variable {m : SvcManager}

theorem mem_drop_of_mem_deleteFrom {i : ℕ} {l : List ServiceItem} {item : ServiceItem}
    (h : item ∈ deleteFrom i l) : item ∈ l.drop i := by
  fun_induction deleteFrom i l with
  | case1 i l hi ih =>
    rw [drop_eq_getElem_cons hi]
    rcases mem_cons.mp h with rfl | hmem
    · exact mem_cons_self
    have hdrop : (l.eraseIdx i).drop i = l.drop (i + 1) := by
      rw [eraseIdx_eq_take_drop_succ, drop_left' (length_take_of_le (Nat.le_of_lt hi))]
    have hmem' := ih hmem
    rw [← drop_drop, hdrop] at hmem'
    exact mem_cons_of_mem _ (mem_of_mem_drop hmem')
  | case2 => exact absurd h not_mem_nil

theorem Kept.nodup (h : m.Kept) : m.created.Nodup :=
  List.Nodup.of_map ServiceItem.id (h.ids.symm ▸ nodup_range)

theorem Kept.destroyed_perm (h : m.Kept) (hlen : m.itemList.length ≤ 1) :
    m.destroyed.Perm m.created := by
  have hall : deleteFrom 0 m.itemList = m.itemList := by
    rcases hitems : m.itemList with - | ⟨a, - | ⟨b, l⟩⟩
    · simp [deleteFrom]
    · simp [deleteFrom]
    · exact absurd (hitems ▸ hlen) (by simp)
  rw [destroyed, hall]
  exact h.perm

theorem Kept.not_mem_destroyed (h : m.Kept) {a b : ServiceItem} {l : List ServiceItem}
    (hitems : m.itemList = a :: b :: l) : b ∉ m.destroyed := by
  have hnodup : (m.deleted ++ a :: b :: l).Nodup := hitems ▸ h.perm.nodup_iff.mpr h.nodup
  obtain ⟨-, hlive, hdisj⟩ := nodup_append.mp hnodup
  obtain ⟨hab, hl⟩ := nodup_cons.mp hlive
  rw [destroyed, hitems, deleteFrom, dif_pos (by simp)]
  intro hmem
  rcases mem_append.mp hmem with hdel | hloop
  · exact hdisj b hdel b (by simp) rfl
  rcases mem_cons.mp hloop with rfl | hloop
  · exact hab mem_cons_self
  · exact (nodup_cons.mp hl).1 (mem_drop_of_mem_deleteFrom hloop)

theorem Kept.tornDown_iff (h : m.Kept) :
    m.TornDown ↔ m.itemList.length ≤ 1 ∧ ∀ item ∈ m.created, item.hdAllocated = false := by
  simp only [TornDown, ServiceItem.inOrder_iff]
  constructor
  · rintro ⟨hcount, horder⟩
    have hlen : m.itemList.length ≤ 1 := by
      rcases hitems : m.itemList with - | ⟨a, - | ⟨b, l⟩⟩
      · exact Nat.zero_le 1
      · exact Nat.le_refl 1
      have hb : b ∈ m.created := h.perm.subset (by simp [hitems])
      have hone := hcount b hb
      rw [count_eq_zero_of_not_mem (h.not_mem_destroyed hitems)] at hone
      cases hone
    exact ⟨hlen, fun item hitem => horder item ((h.destroyed_perm hlen).mem_iff.mpr hitem)⟩
  · rintro ⟨hlen, hnone⟩
    have hperm := h.destroyed_perm hlen
    refine ⟨fun item hitem => ?_, fun item hitem => hnone item (hperm.mem_iff.mp hitem)⟩
    rw [hperm.count_eq, count_eq_one_of_mem h.nodup hitem]

end SvcManager

/-- **Service items are torn down in order** exactly if at most one is left to the destructor and
none has a handler of its own. -/
theorem service_teardown_iff {m : SvcManager} (hm : svcSystem.Reachable m) :
    m.TornDown ↔ m.itemList.length ≤ 1 ∧ ∀ item ∈ m.created, item.hdAllocated = false :=
  (kept_invariant.reachable hm).tornDown_iff

/-- A manager with one item, which was given a handler. -/
theorem service_teardown_one : (SvcManager.createSvcItem {} true true).TornDown :=
  (service_teardown_iff (.step (.init rfl) (.inl ⟨true, true, rfl⟩))).mpr (by decide)

/-- The second of two items is never deleted, and the first deletes its handler before its thread
has ended. -/
theorem service_teardown_two : ∃ m, svcSystem.Reachable m ∧
    m.created = [⟨0, true⟩, ⟨1, false⟩] ∧ ⟨1, false⟩ ∉ m.destroyed ∧
      (⟨0, true⟩ : ServiceItem).teardown = [.deleteHandler, .stop, .join, .deleteAgent] := by
  have hone : svcSystem.Reachable (SvcManager.createSvcItem {} false true) :=
    .step (.init rfl) (.inl ⟨false, true, rfl⟩)
  have htwo := hone.step (.inl ⟨true, true, rfl⟩)
  exact ⟨_, htwo, rfl, (kept_invariant.reachable htwo).not_mem_destroyed rfl, rfl⟩

end Novachains.Net
