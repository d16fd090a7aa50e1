import Novachains.Util.CfgCalls

/-!
# What a call leaves under a name

A call loads its fields and then merges the maps of the exchange into those of the record.  Under one
name all of that is a function of what was there before.  The hooks are those that only check: they
may refuse, but change nothing.
-/

namespace Novachains.Util.Cfg

open Lib

def State.view (st : State) (name : Text) : View :=
  ⟨st.members name, st.map.lookup name, st.cold.lookup name, none, none⟩

structure Hooks.Inert (hooks : Hooks) : Prop where
  preSaving : ∀ m k, (hooks.preSaving m k).2 = (m, k)
  postLoaded : ∀ step m k, (hooks.postLoaded step m k).2 = (m, k)

theorem Hooks.base_inert : Hooks.base.Inert := ⟨fun _ _ => rfl, fun _ _ _ => rfl⟩

theorem hook_cases (st : State) {h : Members → KVMap → Rc × Members × KVMap}
    (hi : (h st.members st.map).2 = (st.members, st.map)) :
    st.hook h = (.ok, st) ∨ ∃ rc, rc ≠ .ok ∧ st.hook h = (rc, st) := by
  unfold State.hook
  generalize h st.members st.map = r at hi ⊢
  obtain ⟨rc, m, k⟩ := r
  cases hi
  by_cases hrc : rc = .ok
  · exact .inl (by rw [hrc])
  · exact .inr ⟨rc, hrc, rfl⟩

namespace View

/-- The entry that `change` leaves. -/
def changed (v : View) : Option ParamValue :=
  match v.field with
  | none => v.entry
  | some p => if p.hasMapped || !v.entry.any ParamValue.hasMapped then some p else v.entry

def updated (v : View) : Option ParamValue := v.field.or v.entry

/-- A whole change erases the entries that are of no field and not given again. -/
def purged (isWhole : Bool) (v : View) (entry : Option ParamValue) : Option ParamValue :=
  if isWhole then entry.filter fun p => p.hasMapped || v.field.isSome else entry

def postponed (v : View) : Option ParamValue :=
  match v.coldField with
  | none => v.pending
  | some p => if p.level = .reboot then some p else v.pending

def afterChange (isWhole : Bool) (v : View) : View :=
  ⟨v.member, v.purged isWhole v.changed, v.pending, none, none⟩

def afterUpdate (isWhole : Bool) (v : View) : View :=
  ⟨v.member, v.purged isWhole v.updated, v.postponed, none, none⟩

end View

section Merge
variable (m field : KVMap) (a : Text)

theorem mergeChange_keyLocal : KeyLocal mergeChange := by
  refine ⟨fun m e a ha => ?_, fun m m' e he => ?_⟩
  · unfold mergeChange
    split_ifs <;> first | exact AList.lookup_insert_ne ha | rfl
  · unfold mergeChange
    rw [he]
    split_ifs <;> simp [he]

theorem mergeUpdate_keyLocal : KeyLocal mergeUpdate :=
  ⟨fun _ _ _ ha => AList.lookup_insert_ne ha, fun _ _ _ _ => by simp [mergeUpdate]⟩

theorem purgeOne_keyLocal : KeyLocal (purgeOne field) := by
  refine ⟨fun m e a ha => ?_, fun m m' e he => ?_⟩
  · unfold purgeOne
    split_ifs
    · exact AList.lookup_erase_ne ha
    · rfl
  · unfold purgeOne
    split_ifs
    · simp
    · exact he

theorem lookup_purgeFieldMap : (purgeFieldMap m field).lookup a =
    (m.lookup a).filter fun p => p.hasMapped || (field.lookup a).isSome := by
  unfold purgeFieldMap
  rw [(purgeOne_keyLocal field).lookup_foldl]
  cases hm : m.lookup a with
  | none => rfl
  | some p =>
    unfold purgeOne
    dsimp only
    rw [Option.filter_some]
    cases hp : p.hasMapped <;> cases hf : field.lookup a <;> simp [hm]

theorem lookup_foldl_mergeChange : (field.entries.foldl mergeChange m).lookup a =
    match field.lookup a with
    | none => m.lookup a
    | some p => if p.hasMapped || !(m.lookup a).any ParamValue.hasMapped then some p
        else m.lookup a := by
  rw [mergeChange_keyLocal.lookup_foldl]
  cases field.lookup a with
  | none => rfl
  | some p =>
    unfold mergeChange
    dsimp only
    cases p.hasMapped <;> cases (m.lookup a).any ParamValue.hasMapped <;> simp

theorem lookup_foldl_mergeUpdate :
    (field.entries.foldl mergeUpdate m).lookup a = (field.lookup a).or (m.lookup a) := by
  rw [mergeUpdate_keyLocal.lookup_foldl]
  cases field.lookup a <;> simp [mergeUpdate]

theorem lookup_foldl_mergeCold : (field.entries.foldl mergeCold m).lookup a =
    match field.lookup a with
    | none => m.lookup a
    | some p => if p.level = .reboot then some p else m.lookup a := by
  rw [mergeCold_keyLocal.lookup_foldl]
  cases field.lookup a with
  | none => rfl
  | some p =>
    unfold mergeCold
    dsimp only
    split_ifs <;> simp

end Merge

/-! ## The calls with the mutex held -/

/-- What `getKVMap` does to a view. -/
def Exchange.addView (ex : Exchange) (name : Text) (v : View) : View :=
  if ex.mappedView v then v
  else (lastUnmapped name ex.src.elements).elim v (ex.putView v)

section AddView
variable (ex : Exchange) (w : Work) (a : Text) (v : View)

theorem view_getKVMap_eq : (ex.getKVMap w).view a = ex.addView a (w.view a) := ex.view_getKVMap w a

@[simp] theorem member_addView : (ex.addView a v).member = v.member := by
  unfold Exchange.addView Exchange.putView
  cases lastUnmapped a ex.src.elements <;> cases ex.own <;> cases ex.mappedView v <;> rfl

@[simp] theorem pending_addView : (ex.addView a v).pending = v.pending := by
  unfold Exchange.addView Exchange.putView
  cases lastUnmapped a ex.src.elements <;> cases ex.own <;> cases ex.mappedView v <;> rfl

theorem entry_addView (h : ex.own = false) : (ex.addView a v).entry = v.entry := by
  unfold Exchange.addView Exchange.putView
  rw [h]
  cases lastUnmapped a ex.src.elements <;> cases ex.mappedView v <;> rfl

end AddView

namespace Record
variable {rec : Record} {hooks : Hooks}

def initExchange (pVMFile pVMCMD : Obj) : Exchange := ⟨.cmd pVMCMD pVMFile, .init, false, true, false⟩

def restoreExchange (objData : Obj) : Exchange := ⟨.bson objData, .init, false, true, false⟩

def argsExchange (pVMCMD : Obj) : Exchange := ⟨.cmd pVMCMD [], .reinit, false, true, false⟩

def changeExchange (objData : Obj) (isWhole : Bool) : Exchange :=
  ⟨.bson objData, .chg, isWhole, false, false⟩

variable {st : State} {w : Work}

theorem initLocked_cases (hi : hooks.Inert) {pVMFile pVMCMD : Obj}
    (hw : w = (initExchange pVMFile pVMCMD).doDataExchange rec.fields st.begin) :
    (rec.initLocked hooks st pVMFile pVMCMD).2 = w.toState ∨
      (rec.initLocked hooks st pVMFile pVMCMD).2 =
        ((initExchange pVMFile pVMCMD).getKVMap w.toState.bumpID.begin).toState := by
  subst hw
  unfold initLocked
  simp only [initExchange]
  generalize Exchange.doDataExchange _ rec.fields st.begin = w
  by_cases hok : w.result = .ok
  · rcases hook_cases w.toState (hi.postLoaded .init w.members w.map) with hh | ⟨rc, hrc, hh⟩
    · right
      simp [hok, hh]
    · left
      simp [hok, hh]
  · left
    rw [if_pos hok]

variable {objData : Obj}

theorem restoreLocked_cases (hi : hooks.Inert) {pVMCMD : Option Obj}
    (hw : w = (restoreExchange objData).doDataExchange rec.fields
      ({ st with map := ∅ } : State).begin) :
    (rec.restoreLocked hooks st objData pVMCMD).2 = w.toState ∨
      (rec.restoreLocked hooks st objData pVMCMD).2 =
        (rec.loadArgs ((restoreExchange objData).getKVMap w).toState pVMCMD).2 := by
  subst hw
  unfold restoreLocked
  simp only [restoreExchange]
  generalize Exchange.doDataExchange _ rec.fields _ = w
  by_cases hok : w.result = .ok
  · right
    rw [if_neg (not_not.mpr hok)]
    generalize rec.loadArgs _ pVMCMD = r
    obtain ⟨rc, st'⟩ := r
    by_cases hrc : rc = .ok
    · subst hrc
      rcases hook_cases st' (hi.postLoaded .reinit st'.members st'.map) with hh | ⟨rc, _, hh⟩ <;>
        simp [hh]
    · simp
  · left
    rw [if_pos hok]

variable {isWhole : Bool}

theorem changeLocked_cases (hi : hooks.Inert)
    (hw : w = (changeExchange objData isWhole).doDataExchange rec.fields st.begin) :
    (∃ rc, rc ≠ .ok ∧ rec.changeLocked hooks st objData isWhole = (rc, w.toState)) ∨
    w.result = .ok ∧ ∃ st', rec.changeLocked hooks st objData isWhole = (.ok, st') ∧
      ∀ a, st'.view a =
        ((changeExchange objData isWhole).addView a (w.view a)).afterChange isWhole := by
  subst hw
  unfold changeLocked
  simp only [changeExchange]
  generalize Exchange.doDataExchange _ rec.fields st.begin = w
  by_cases hok : w.result = .ok
  · rcases hook_cases w.toState (hi.postLoaded .chg w.members w.map) with hh | ⟨rc, hrc, hh⟩
    · refine .inr ⟨hok, ?_⟩
      rw [if_neg (not_not.mpr hok), hh]
      refine ⟨_, rfl, fun a => ?_⟩
      generalize hf : Exchange.getKVMap _ _ = w'
      have hview : w'.view a = (changeExchange objData isWhole).addView a (w.view a) := by
        rw [← hf, view_getKVMap_eq]
        rfl
      have hfield := congrArg View.field hview
      change _ = ((changeExchange objData isWhole).addView a (w.view a)).afterChange isWhole
      unfold View.afterChange View.purged View.changed
      rw [← hfield, member_addView, pending_addView, entry_addView _ _ _ rfl]
      cases isWhole with
      | false => simp [State.view, State.bumpID, Work.view, lookup_foldl_mergeChange]
      | true =>
        simp [State.view, State.bumpID, Work.view, lookup_purgeFieldMap, lookup_foldl_mergeChange]
    · exact .inl ⟨rc, hrc, by simp [hok, hh]⟩
  · exact .inl ⟨w.result, hok, if_pos hok⟩

variable {fuel : ℕ} {st' : State} {rc : Rc} {err : ErrorObj}

theorem updateLocked_cases (hi : hooks.Inert) {userConfig : Obj} {compare : Bool}
    (hw : w = (updateExchange userConfig isWhole).doDataExchange rec.fields st.begin)
    (h : rec.updateLocked hooks fuel st userConfig isWhole compare = some (rc, err, st')) :
    rc ≠ .ok ∧ st' = w.toState ∨
    rc = .ok ∧ w.result = .ok ∧ ∀ a, st'.view a =
        ((updateExchange userConfig isWhole).addView a (w.view a)).afterUpdate isWhole := by
  by_cases hok : w.result = .ok
  · rcases hook_cases w.toState (hi.postLoaded .chg w.members w.map) with hh | ⟨rc', hrc, hh⟩
    · right
      generalize hw' : (updateExchange userConfig isWhole).getKVMap w = w'
      rw [updateLocked_of_merges hw hok hh hw'.symm, Option.map_eq_some_iff] at h
      obtain ⟨⟨st₁, err'⟩, hloop, heq⟩ := h
      have hst₁ := coldLoop_some w'.coldField.nodupKeys hloop
      cases heq
      refine ⟨rfl, hok, fun a => ?_⟩
      have hview : w'.view a = (updateExchange userConfig isWhole).addView a (w.view a) := by
        rw [← hw', view_getKVMap_eq]
      have hfield := congrArg View.field hview
      have hcold := congrArg View.coldField hview
      unfold View.afterUpdate View.purged View.updated View.postponed
      rw [← hfield, ← hcold, member_addView, pending_addView, entry_addView _ _ _ rfl, hst₁]
      cases isWhole with
      | false =>
        simp [State.view, State.bumpID, Work.view, lookup_foldl_mergeUpdate, lookup_foldl_mergeCold]
      | true =>
        simp [State.view, State.bumpID, Work.view, lookup_purgeFieldMap,
          lookup_foldl_mergeUpdate, lookup_foldl_mergeCold]
    · rw [updateLocked_of_refused hw hok hh hrc] at h
      cases h
      exact .inl ⟨hrc, rfl⟩
  · rw [updateLocked_of_ne hw hok] at h
    cases h
    exact .inl ⟨hok, rfl⟩

/-! ## Whole calls -/

/-- How a `change` or an update ends: refused, merged, or replaced by what `restore` loads. -/
inductive Outcome (rec : Record) (hooks : Hooks) (ex : Exchange) (mask : Mask)
    (after : View → View) (st : State) : Rc → State → Prop
  | refused {rc : Rc} (hrc : rc ≠ .ok) :
      Outcome rec hooks ex mask after st rc st
  | merged {w : Work} {st' : State}
      (hloads : ex.Loads rec.fields ({ st with locked := true } : State).begin w)
      (hok : w.result = .ok) (hview : ∀ a, st'.view a = after (ex.addView a (w.view a))) :
      Outcome rec hooks ex mask after st .ok st'
  | failed {w : Work} {rc : Rc}
      (hloads : ex.Loads rec.fields ({ st with locked := true } : State).begin w)
      (hrc : rc ≠ .ok) :
      Outcome rec hooks ex mask after st rc
        (rec.restoreLocked hooks { w.toState with locked := true } (st.dump rec.fields mask)
          none).2.release

theorem release_of_unlocked (h : st.locked = false) :
    ({ st with locked := true } : State).release = st := by
  obtain ⟨members, map, cold, changeID, locked⟩ := st
  cases h
  rfl

variable (rec) in
theorem toBSON_cases (hi : hooks.Inert) (hfree : st.locked = false) (mask : Mask) :
    rec.toBSON hooks st mask = some (.ok, st.dump rec.fields mask, st) ∨
    ∃ rc, rc ≠ .ok ∧ rec.toBSON hooks st mask = some (rc, [], st) := by
  have hrelease := release_of_unlocked hfree
  unfold toBSON
  rw [get_of_unlocked hfree]
  rcases hook_cases { st with locked := true } (hi.preSaving st.members st.map) with
    hh | ⟨rc, hrc, hh⟩
  · left
    simp only [hh, hrelease]
    rfl
  · exact .inr ⟨rc, hrc, by simp [hh, hrelease]⟩

/-- **How `change` ends.** -/
theorem change_outcome (hi : hooks.Inert) (hfree : st.locked = false)
    (h : rec.change hooks st objData isWhole = some (rc, st')) :
    Outcome rec hooks (changeExchange objData isWhole) changeMask (View.afterChange isWhole) st
      rc st' := by
  unfold change at h
  rcases rec.toBSON_cases hi hfree changeMask with hbson | ⟨rc', hrc, hbson⟩
  · obtain ⟨w, hw⟩ : ∃ w, w = (changeExchange objData isWhole).doDataExchange rec.fields
      ({ st with locked := true } : State).begin := ⟨_, rfl⟩
    have hloads : (changeExchange objData isWhole).Loads rec.fields
        ({ st with locked := true } : State).begin w :=
      hw ▸ Exchange.loads_doDataExchange rec.nodup rfl
    simp only [hbson, get_of_unlocked hfree] at h
    rcases changeLocked_cases hi hw with ⟨rc', hrc, heq⟩ | ⟨hok, st₁, heq, hview⟩
    · have hget : w.toState.release.get = some { w.toState with locked := true } :=
        get_of_unlocked rfl
      simp only [heq, restore, hget] at h
      cases h
      exact .failed hloads hrc
    · simp only [heq] at h
      cases h
      exact .merged hloads hok hview
  · simp only [hbson] at h
    cases h
    exact .refused hrc

/-- **How an update ends.** -/
theorem updateWith_outcome (hi : hooks.Inert) (hfree : st.locked = false) {userConfig : Obj}
    {compare : Bool}
    (h : rec.updateWith hooks fuel st userConfig isWhole compare = some (rc, err, st')) :
    Outcome rec hooks (updateExchange userConfig isWhole) updateMask (View.afterUpdate isWhole) st
      rc st' := by
  unfold updateWith at h
  rcases rec.toBSON_cases hi hfree updateMask with hbson | ⟨rc', hrc, hbson⟩
  · obtain ⟨w, hw⟩ : ∃ w, w = (updateExchange userConfig isWhole).doDataExchange rec.fields
      ({ st with locked := true } : State).begin := ⟨_, rfl⟩
    have hloads : (updateExchange userConfig isWhole).Loads rec.fields
        ({ st with locked := true } : State).begin w :=
      hw ▸ Exchange.loads_doDataExchange rec.nodup rfl
    simp only [hbson, get_of_unlocked hfree] at h
    cases hu : rec.updateLocked hooks fuel { st with locked := true } userConfig isWhole compare with
    | none =>
      simp only [hu] at h
      cases h
    | some r =>
      obtain ⟨rc', err', st₁⟩ := r
      simp only [hu] at h
      rcases updateLocked_cases hi hw hu with ⟨hrc, rfl⟩ | ⟨rfl, hok, hview⟩
      · have hget : w.toState.release.get = some { w.toState with locked := true } :=
          get_of_unlocked rfl
        simp only [restore, hget] at h
        cases h
        exact .failed hloads hrc
      · cases h
        exact .merged hloads hok hview
  · simp only [hbson] at h
    cases h
    exact .refused hrc

/-- **How `deleteConf` ends**: as a whole update with the elements that it keeps. -/
theorem deleteConf_outcome (hi : hooks.Inert) (hfree : st.locked = false)
    (h : rec.deleteConf hooks fuel st objData = some (rc, err, st')) :
    Outcome rec hooks (updateExchange (keptElements (st.dump rec.fields deleteMask) objData) true)
      updateMask (View.afterUpdate true) st rc st' := by
  unfold deleteConf at h
  rcases rec.toBSON_cases hi hfree deleteMask with hbson | ⟨rc', hrc, hbson⟩
  · simp only [hbson] at h
    exact updateWith_outcome hi hfree h
  · simp only [hbson] at h
    cases h
    exact .refused hrc

end Record

theorem Source.find_eq_none_iff {src : Source} {name : Text} :
    src.find name = none ↔ ∀ e ∈ src.elements, e.1 ≠ name := by
  have hlookup : ∀ obj : Obj, obj.lookup name = none ↔ ∀ e ∈ obj, e.1 ≠ name := by
    intro obj
    rw [List.lookup_eq_none_iff]
    simp only [bne_iff_ne, ne_comm]
  cases src with
  | bson obj => exact hlookup obj
  | cmd pVMCmd pVMFile =>
    rw [Source.find, Source.elements, Option.or_eq_none_iff, hlookup, hlookup,
      List.forall_mem_append, and_comm]

theorem field_addView_of_taken {ex : Exchange} {f : Field} {v : View} (hown : ex.own = false)
    {t : Text × Bool} (ht : ex.takes f = .ok (some t)) (ha : ex.assigns f.level = true) :
    (ex.addView f.name (ex.act f v).2).field = some (f.entry t) := by
  have hfield : (ex.act f v).2.field = some (f.entry t) := by
    simp [Exchange.field_act ht, ha, hown]
  have hmapped : ex.mappedView (ex.act f v).2 = true := by
    simp [Exchange.mappedView, hown, hfield, Field.entry]
  rw [Exchange.addView, if_pos hmapped, hfield]

/-- What an update that succeeds does to the fields. -/
structure Record.Merged (rec : Record) (ex : Exchange) (st st' : State) : Prop where
  passes : ∀ f ∈ rec.fields, (ex.act f (st.view f.name)).1 = .ok
  member_eq : ∀ f ∈ rec.fields, st'.members f.name = (ex.act f (st.view f.name)).2.member
  taken : ∀ f ∈ rec.fields, ∀ t, ex.takes f = .ok (some t) → ex.assigns f.level = true →
    st'.map.lookup f.name = some (f.entry t)

theorem entry_afterUpdate {isWhole : Bool} {v : View} {p : ParamValue} (hp : v.field = some p) :
    (v.afterUpdate isWhole).entry = some p := by
  cases isWhole <;> simp [View.afterUpdate, View.purged, View.updated, hp, Option.filter_some]

namespace Record
variable {rec : Record} {st st' : State} {w : Work} {ex : Exchange} {isWhole : Bool}

/-- **The fields after an update that succeeds.** -/
theorem merged_of_view (hown : ex.own = false)
    (hloads : ex.Loads rec.fields ({ st with locked := true } : State).begin w)
    (hok : w.result = .ok)
    (hview : ∀ a, st'.view a = (ex.addView a (w.view a)).afterUpdate isWhole) :
    rec.Merged ex st st' := by
  have hf : ∀ f ∈ rec.fields, st'.view f.name =
      (ex.addView f.name (ex.act f (st.view f.name)).2).afterUpdate isWhole := by
    intro f hf
    rw [hview, (hloads.of_ok hok f hf).2]
    rfl
  refine ⟨fun f hmem => (hloads.of_ok hok f hmem).1, fun f hmem => ?_, fun f hmem t ht ha => ?_⟩
  · have hmember := congrArg View.member (hf f hmem)
    rw [← member_addView ex f.name]
    exact hmember
  · have hentry := congrArg View.entry (hf f hmem)
    rwa [entry_afterUpdate (field_addView_of_taken hown ht ha)] at hentry

end Record

end Novachains.Util.Cfg
