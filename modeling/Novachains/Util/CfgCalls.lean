import Novachains.Lib.KeyMap
import Novachains.Lib.Transition
import Novachains.Util.CfgViews

/-!
# The calls of a configuration record

A run of a record is a sequence of its calls, each with its own hooks.  A call that returns leaves
the mutex free, and only the loop of an update over the pending values may not return.
-/

namespace Novachains.Util.Cfg

open Lib

inductive Call
  | init (pVMFile pVMCMD : Obj)
  | restore (objData : Obj) (pVMCMD : Option Obj)
  | change (objData : Obj) (isWhole : Bool)
  | update (userConfig : Obj) (isWhole : Bool)
  | deleteConf (objData : Obj)

namespace Record
variable (rec : Record) (hooks : Hooks)

/-- One call, with `fuel` rounds for the loop over the pending values. -/
def run (fuel : ℕ) (st : State) : Call → Option (Rc × State)
  | .init pVMFile pVMCMD => rec.init hooks st pVMFile pVMCMD
  | .restore objData pVMCMD => rec.restore hooks st objData pVMCMD
  | .change objData isWhole => rec.change hooks st objData isWhole
  | .update userConfig isWhole =>
    (rec.update hooks fuel st userConfig isWhole).map fun r => (r.1, r.2.2)
  | .deleteConf objData => (rec.deleteConf hooks fuel st objData).map fun r => (r.1, r.2.2)

/-- The runs of a record from a new one on; `init` holds of the new record, and `P` of every call
and its result. -/
def system (init : State → Prop) (P : State → Hooks → Call → Rc → Prop) : System State where
  init st := st.map = ∅ ∧ st.cold = ∅ ∧ st.changeID = 0 ∧ st.locked = false ∧ init st
  step st st' := ∃ hooks fuel call rc, P st hooks call rc ∧
    rec.run hooks fuel st call = some (rc, st')

end Record

def State.new : State := ⟨fun _ => ⟨0, [], false⟩, ∅, ∅, 0, false⟩

namespace Record

theorem new_reachable (rec : Record) (P : State → Hooks → Call → Rc → Prop) :
    (rec.system (fun _ => True) P).Reachable State.new := .init ⟨rfl, rfl, rfl, rfl, trivial⟩

/-! ## The mutex -/

variable {rec : Record} {hooks : Hooks}
variable {st st' : State} {rc : Rc} {obj : Obj}

theorem toBSON_unlocked {mask : Mask} (h : rec.toBSON hooks st mask = some (rc, obj, st')) :
    st'.locked = false := by
  unfold toBSON at h
  split at h
  · cases h
  · split at h <;> cases h <;> rfl

theorem restore_unlocked {pVMCMD : Option Obj}
    (h : rec.restore hooks st obj pVMCMD = some (rc, st')) : st'.locked = false := by
  unfold restore at h
  split at h
  · cases h
  · cases h
    rfl

theorem change_unlocked {isWhole : Bool} (h : rec.change hooks st obj isWhole = some (rc, st')) :
    st'.locked = false := by
  unfold change at h
  split at h
  · cases h
  · split at h
    · cases h
    split at h
    · cases h
      rfl
    · obtain ⟨⟨rc', st''⟩, hr, heq⟩ := Option.map_eq_some_iff.mp h
      cases heq
      exact restore_unlocked hr
  next hbson =>
    cases h
    exact toBSON_unlocked hbson

theorem updateWith_unlocked {fuel : ℕ} {isWhole compare : Bool} {err : ErrorObj}
    (h : rec.updateWith hooks fuel st obj isWhole compare = some (rc, err, st')) :
    st'.locked = false := by
  unfold updateWith at h
  split at h
  · cases h
  · split at h
    · cases h
    split at h
    · cases h
    · cases h
      rfl
    · obtain ⟨⟨rc', st''⟩, hr, heq⟩ := Option.map_eq_some_iff.mp h
      cases heq
      exact restore_unlocked hr
  next hbson =>
    cases h
    exact toBSON_unlocked hbson

/-- **A call that returns leaves the mutex free.** -/
theorem run_unlocked {fuel : ℕ} {call : Call} (h : rec.run hooks fuel st call = some (rc, st')) :
    st'.locked = false := by
  cases call with
  | init pVMFile pVMCMD =>
    simp only [run, init] at h
    split at h
    · cases h
    · cases h
      rfl
  | restore objData pVMCMD => exact restore_unlocked h
  | change objData isWhole => exact change_unlocked h
  | update userConfig isWhole =>
    obtain ⟨⟨rc', err, st''⟩, hr, heq⟩ := Option.map_eq_some_iff.mp h
    cases heq
    exact updateWith_unlocked hr
  | deleteConf objData =>
    obtain ⟨⟨rc', err, st''⟩, hr, heq⟩ := Option.map_eq_some_iff.mp h
    cases heq
    unfold deleteConf at hr
    split at hr
    · cases hr
    · exact updateWith_unlocked hr
    next hbson =>
      cases hr
      exact toBSON_unlocked hbson

theorem reachable_unlocked {init : State → Prop} {P : State → Hooks → Call → Rc → Prop}
    (h : (rec.system init P).Reachable st) : st.locked = false := by
  refine System.Invariant.reachable (I := fun st => st.locked = false) ⟨?_, ?_⟩ h
  · intro s hs
    exact hs.2.2.2.1
  · rintro s t - ⟨hooks, fuel, call, rc, -, hrun⟩
    exact run_unlocked hrun

end Record

def mergeCold (m : KVMap) (e : (_ : Text) × ParamValue) : KVMap :=
  if e.2.level = .reboot then m.insert e.1 e.2 else m

theorem mergeCold_keyLocal : KeyLocal mergeCold := by
  refine ⟨fun m e a ha => ?_, fun m m' e he => ?_⟩
  · unfold mergeCold
    split
    · exact AList.lookup_insert_ne ha
    · rfl
  · unfold mergeCold
    split
    · rw [AList.lookup_insert, AList.lookup_insert]
    · exact he

section ColdLoop
variable {compare : Bool} {fuel : ℕ} {es : List ((_ : Text) × ParamValue)} {st : State}
  {err : ErrorObj}

theorem coldLoop_cons (e : (_ : Text) × ParamValue)
    (h : (compare && samePending st.cold e) = false) :
    coldLoop compare (fuel + 1) (e :: es) st err =
      coldLoop compare fuel es { st with cold := mergeCold st.cold e } (err.report st.map e) := by
  rw [coldLoop, h, if_neg Bool.false_ne_true]
  unfold mergeCold
  by_cases hl : e.2.level = .reboot <;> simp [hl]

theorem coldLoop_some {st' : State} {err' : ErrorObj} (hnd : es.NodupKeys)
    (h : coldLoop compare fuel es st err = some (st', err')) :
    st' = { st with cold := es.foldl mergeCold st.cold } := by
  induction fuel generalizing es st err with
  | zero =>
    cases es with
    | nil =>
      cases h
      rfl
    | cons e es => cases h
  | succ fuel ih =>
    cases es with
    | nil =>
      cases h
      rfl
    | cons e es =>
      by_cases he : (compare && samePending st.cold e) = true
      · rw [coldLoop, he] at h
        exact ih hnd h
      rw [coldLoop_cons e (by simpa using he)] at h
      rw [List.nodupKeys_cons] at hnd
      have hrest := ih hnd.2 h
      exact hrest

end ColdLoop

/-! ## An update with the mutex held -/

namespace Record
variable {rec : Record} {hooks : Hooks}

def updateExchange (userConfig : Obj) (isWhole : Bool) : Exchange :=
  ⟨.bson userConfig, .chg, isWhole, false, true⟩

variable {fuel : ℕ} {st : State} {obj : Obj} {isWhole compare : Bool} {w : Work}

section
variable (hw : w = (updateExchange obj isWhole).doDataExchange rec.fields st.begin)
include hw

theorem updateLocked_of_ne
    (hne : w.result ≠ .ok) : rec.updateLocked hooks fuel st obj isWhole compare =
      some (w.result, ⟨[], []⟩, w.toState) := by
  subst hw
  exact if_pos hne

theorem updateLocked_of_refused {st' : State}
    (hok : w.result = .ok) {rc : Rc} (hhook : w.toState.hook (hooks.postLoaded .chg) = (rc, st'))
    (hrc : rc ≠ .ok) : rec.updateLocked hooks fuel st obj isWhole compare =
      some (rc, ⟨[], []⟩, st') := by
  subst hw
  unfold updateLocked
  simp only [updateExchange] at hok hhook
  simp only [hok, hhook, ne_eq, not_true_eq_false, if_false]

theorem updateLocked_of_merges {st' : State}
    (hok : w.result = .ok) (hhook : w.toState.hook (hooks.postLoaded .chg) = (.ok, st')) {w' : Work}
    (hw' : w' = (updateExchange obj isWhole).getKVMap { w with toState := st' }) :
    rec.updateLocked hooks fuel st obj isWhole compare =
      (coldLoop compare fuel w'.coldField.entries
        { st' with map := w'.field.entries.foldl mergeUpdate st'.map } ⟨[], []⟩).map
        fun r => (.ok, r.2, { r.1.bumpID with
          map := if isWhole then purgeFieldMap r.1.map w'.field else r.1.map }) := by
  subst hw hw'
  unfold updateLocked
  simp only [updateExchange] at hok hhook ⊢
  simp only [hok, hhook, ne_eq, not_true_eq_false, if_false]
  generalize Exchange.getKVMap _ _ = w'
  cases coldLoop compare fuel w'.coldField.entries _ _ <;> rfl

end

section
variable (h : st.locked = false)
include h

theorem get_of_unlocked : st.get = some { st with locked := true } := by
  rw [State.get, h, if_neg Bool.false_ne_true]

/-- A record is dumped when `preSaving` accepts. -/
theorem toBSON_of_unlocked (rec : Record) (hooks : Hooks) (mask : Mask) :
    (st.hook hooks.preSaving).1 = .ok ∧ rec.toBSON hooks st mask = some (.ok,
        (st.hook hooks.preSaving).2.dump rec.fields mask, (st.hook hooks.preSaving).2) ∨
    (st.hook hooks.preSaving).1 ≠ .ok ∧
      ∃ rc st', rc ≠ .ok ∧ rec.toBSON hooks st mask = some (rc, [], st') := by
  obtain ⟨members, map, cold, changeID, locked⟩ := st
  cases h
  rcases hr : hooks.preSaving members map with ⟨rc, m, k⟩
  by_cases hrc : rc = .ok
  · left
    simp only [toBSON, State.get, State.hook, State.release, hr, hrc, Bool.false_eq_true, if_false]
    exact ⟨trivial, rfl⟩
  · right
    simp [toBSON, State.get, State.hook, hr, hrc]

theorem init_of_unlocked (pVMFile pVMCMD : Obj) :
    ∃ rc st', rec.init hooks st pVMFile pVMCMD = some (rc, st') := by
  unfold init
  rw [get_of_unlocked h]
  exact ⟨_, _, rfl⟩

theorem restore_of_unlocked (obj : Obj) (pVMCMD : Option Obj) :
    ∃ rc st', rec.restore hooks st obj pVMCMD = some (rc, st') := by
  unfold restore
  rw [get_of_unlocked h]
  exact ⟨_, _, rfl⟩

theorem change_of_unlocked (obj : Obj) (isWhole : Bool) :
    ∃ rc st', rec.change hooks st obj isWhole = some (rc, st') := by
  unfold change
  obtain ⟨-, hbson⟩ | ⟨-, rc, st₁, hrc, hbson⟩ := toBSON_of_unlocked h rec hooks changeMask
  · have hfree := toBSON_unlocked hbson
    rw [hbson]
    dsimp only
    rw [get_of_unlocked hfree]
    dsimp only
    split
    · exact ⟨_, _, rfl⟩
    next rc' st' _ _ =>
      obtain ⟨rc'', st'', hr⟩ : ∃ rc'' st'', rec.restore hooks st'.release _ none = some (rc'', st'') :=
        restore_of_unlocked rfl _ none
      refine ⟨rc', st'', ?_⟩
      rw [hr]
      rfl
  · rw [hbson]
    split
    next heq => cases heq
    next heq =>
      cases heq
      exact absurd rfl hrc
    · exact ⟨_, _, rfl⟩

end

end Record

end Novachains.Util.Cfg
