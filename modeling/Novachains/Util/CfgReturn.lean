import Novachains.Util.CfgCalls

/-!
# The calls of a configuration record return

A run of a record is a sequence of its calls, each with its own hooks.  `change` and `update` always
return and leave the mutex free.  `deleteConf` compares the new text of a field that cannot be
changed at run time with the pending one, and where they are the same the loop of
`_saveUpdateChange` does not advance: the call never returns, and the mutex stays held.
-/

namespace Novachains.Util.Cfg

open Lib List

theorem samePending_mergeCold {cold : KVMap} {e e' : (_ : Text) × ParamValue} (h : e'.1 ≠ e.1) :
    samePending (mergeCold cold e) e' = samePending cold e' := by
  rw [samePending, samePending, mergeCold_keyLocal.lookup_of_ne cold e e'.1 h]

section ColdLoop
variable {compare : Bool} {fuel : ℕ} {es : List ((_ : Text) × ParamValue)} {st : State}
  {err : ErrorObj}

theorem coldLoop_eq (hnd : es.NodupKeys)
    (h : ∀ e ∈ es, (compare && samePending st.cold e) = false) (hfuel : es.length ≤ fuel) :
    ∃ err', coldLoop compare fuel es st err =
      some ({ st with cold := es.foldl mergeCold st.cold }, err') := by
  induction es generalizing fuel st err with
  | nil => exact ⟨err, by cases fuel <;> rfl⟩
  | cons e es ih =>
    obtain ⟨fuel, rfl⟩ : ∃ k, fuel = k + 1 :=
      ⟨fuel - 1, (Nat.sub_add_cancel (Nat.one_le_iff_ne_zero.mpr (by rintro rfl; cases hfuel))).symm⟩
    rw [nodupKeys_cons] at hnd
    rw [coldLoop_cons e (h e mem_cons_self)]
    refine ih hnd.2 (fun e' he' => ?_) (Nat.le_of_succ_le_succ hfuel)
    rw [samePending_mergeCold]
    · exact h e' (mem_cons_of_mem e he')
    · rintro heq
      exact hnd.1 (heq ▸ mem_keys_of_mem he')

/-- **The loop does not get past a pending text that is the same.** -/
theorem coldLoop_eq_none (hnd : es.NodupKeys) (h : ∃ e ∈ es, samePending st.cold e = true) :
    coldLoop true fuel es st err = none := by
  induction fuel generalizing es st err with
  | zero =>
    cases es with
    | nil => simp at h
    | cons e es => rfl
  | succ fuel ih =>
    cases es with
    | nil => simp at h
    | cons e es =>
      by_cases he : samePending st.cold e = true
      · -- The iterator stays where it is.
        rw [coldLoop, he]
        exact ih hnd ⟨e, mem_cons_self, he⟩
      rw [coldLoop_cons e (by simpa using he)]
      rw [nodupKeys_cons] at hnd
      refine ih hnd.2 ?_
      obtain ⟨e', he', hs⟩ := h
      rcases mem_cons.mp he' with rfl | he'
      · exact absurd hs he
      refine ⟨e', he', ?_⟩
      rw [samePending_mergeCold]
      · exact hs
      · rintro heq
        exact hnd.1 (heq ▸ mem_keys_of_mem he')

theorem coldLoop_returns_iff (compare : Bool) (st : State) (err : ErrorObj) (hnd : es.NodupKeys) :
    (∃ fuel, (coldLoop compare fuel es st err).isSome) ↔
      ¬ (compare = true ∧ ∃ e ∈ es, samePending st.cold e = true) := by
  constructor
  · rintro ⟨fuel, hsome⟩ ⟨rfl, hex⟩
    rw [coldLoop_eq_none hnd hex] at hsome
    cases hsome
  intro hnot
  have hall : ∀ e ∈ es, (compare && samePending st.cold e) = false := by
    intro e he
    by_contra hne
    rw [Bool.not_eq_false, Bool.and_eq_true] at hne
    exact hnot ⟨hne.1, e, he, hne.2⟩
  obtain ⟨err', heq⟩ : ∃ err', coldLoop compare es.length es st err = some (_, err') :=
    coldLoop_eq hnd hall le_rfl
  refine ⟨es.length, ?_⟩
  rw [heq]
  rfl

end ColdLoop

/-! ## Calls that do not return -/

/-- A cold field has a pending text, the one that the exchange takes, or for a boolean that of its
member. -/
def State.StallsAt (st : State) (ex : Exchange) (f : Field) : Prop :=
  f.level.allowRunChange = false ∧ ∃ t p, ex.takes f = .ok (some t) ∧
    st.cold.lookup f.name = some p ∧
    (if f.isBoolean then f.text (st.members f.name) else p.value) = t.1

namespace Record
variable (rec : Record) (hooks : Hooks)

/-- The update merges its maps: every field is read and passes, and `postLoaded` accepts. -/
def Merges (st : State) (userConfig : Obj) (isWhole : Bool) : Prop :=
  let ex := updateExchange userConfig isWhole
  (∀ f ∈ rec.fields, (ex.act f (st.begin.view f.name)).1 = .ok) ∧
    ((ex.doDataExchange rec.fields st.begin).toState.hook (hooks.postLoaded .chg)).1 = .ok

/-- An update that meets a pending text which is the new one, after `preSaving` has accepted. -/
def UpdateStalls (st : State) (userConfig : Obj) (isWhole : Bool) : Prop :=
  let saved := st.hook hooks.preSaving
  saved.1 = .ok ∧ rec.Merges hooks { saved.2 with locked := true } userConfig isWhole ∧
    ∃ f ∈ rec.fields, saved.2.StallsAt (updateExchange userConfig isWhole) f

/-- Only a `deleteConf` compares texts. -/
def Stalls (st : State) : Call → Prop
  | .deleteConf objData =>
    let saved := st.hook hooks.preSaving
    saved.1 = .ok ∧
      rec.UpdateStalls hooks saved.2 (keptElements (saved.2.dump rec.fields deleteMask) objData) true
  | _ => False

variable {rec hooks}

theorem assigns_updateExchange (obj : Obj) (isWhole : Bool) (level : Level) :
    (updateExchange obj isWhole).assigns level = level.allowRunChange := rfl

variable {st : State} {obj : Obj} {isWhole : Bool} {w : Work}

section
variable (hw : w = (updateExchange obj isWhole).doDataExchange rec.fields st.begin)
include hw

theorem coldField_doDataExchange
    (hok : w.result = .ok) (a : Text) (p : ParamValue) :
    w.coldField.lookup a = some p ↔ ∃ f ∈ rec.fields, f.name = a ∧
      f.level.allowRunChange = false ∧ ∃ t, (updateExchange obj isWhole).takes f = .ok (some t) ∧
        p = f.entry t := by
  have hloads : (updateExchange obj isWhole).Loads rec.fields st.begin w :=
    hw ▸ Exchange.loads_doDataExchange rec.nodup rfl
  have hview : ∀ f ∈ rec.fields, ∀ t, (updateExchange obj isWhole).takes f = .ok t →
      w.coldField.lookup f.name =
        if !f.level.allowRunChange then t.map f.entry else none := by
    intro f hf t ht
    have hcold := congrArg View.coldField (hloads.of_ok hok f hf).2
    rw [Exchange.coldField_act ht, assigns_updateExchange] at hcold
    refine hcold.trans ?_
    simp [updateExchange, Work.view, State.begin]
  constructor
  · intro hlookup
    rcases hloads.view_cases a with heq | ⟨f, hf, hfa, -⟩
    · have hnone := congrArg View.coldField heq
      rw [Work.view, hlookup] at hnone
      cases hnone
    · obtain ⟨t, ht⟩ := Exchange.takes_of_act (hloads.of_ok hok f hf).1
      have hentry := hview f hf t ht
      rw [hfa, hlookup] at hentry
      split at hentry
      next hlevel =>
        obtain ⟨t, rfl, hp⟩ := Option.map_eq_some_iff.mp hentry.symm
        exact ⟨f, hf, hfa, by simpa using hlevel, t, ht, hp.symm⟩
      next => cases hentry
  · rintro ⟨f, hf, hfa, hlevel, t, ht, hp⟩
    rw [← hfa, hview f hf _ ht, hlevel, hp]
    rfl

theorem cold_doDataExchange
    (hok : w.result = .ok) {f : Field} (hf : f ∈ rec.fields)
    (hlevel : f.level.allowRunChange = false) : w.cold.lookup f.name =
      (st.cold.lookup f.name).map (f.spell (st.members f.name)) := by
  have hloads : (updateExchange obj isWhole).Loads rec.fields st.begin w :=
    hw ▸ Exchange.loads_doDataExchange rec.nodup rfl
  obtain ⟨t, ht⟩ := Exchange.takes_of_act (hloads.of_ok hok f hf).1
  have hcold := congrArg View.pending (hloads.of_ok hok f hf).2
  rwa [Exchange.pending_act ht, assigns_updateExchange, hlevel] at hcold

theorem exists_samePending_iff
    (hok : w.result = .ok) {coldField : KVMap}
    (hcold : ∀ a, coldField.lookup a = w.coldField.lookup a) :
    (∃ e ∈ coldField.entries, samePending w.cold e = true) ↔
      ∃ f ∈ rec.fields, st.StallsAt (updateExchange obj isWhole) f := by
  constructor
  · rintro ⟨e, he, hsame⟩
    rw [← AList.mem_lookup_iff, Option.mem_def, hcold, coldField_doDataExchange hw hok] at he
    obtain ⟨f, hf, hfe, hlevel, t, ht, hp⟩ := he
    rw [samePending, ← hfe, cold_doDataExchange hw hok hf hlevel, hp] at hsame
    cases hq : st.cold.lookup f.name with
    | none => simp [hq] at hsame
    | some q =>
      refine ⟨f, hf, hlevel, t, q, ht, hq, ?_⟩
      simpa [hq, Field.value_spell, Field.entry] using hsame
  · rintro ⟨f, hf, hlevel, t, p, ht, hp, htext⟩
    refine ⟨⟨f.name, f.entry t⟩, ?_, ?_⟩
    · rw [← AList.mem_lookup_iff, Option.mem_def, hcold, coldField_doDataExchange hw hok]
      exact ⟨f, hf, rfl, hlevel, t, ht, rfl⟩
    · rw [samePending, cold_doDataExchange hw hok hf hlevel, hp]
      simpa [Field.value_spell, Field.entry] using htext

end

theorem updateLocked_returns_iff {compare : Bool} :
    (∃ fuel, (rec.updateLocked hooks fuel st obj isWhole compare).isSome) ↔
      ¬ (compare = true ∧ rec.Merges hooks st obj isWhole ∧
        ∃ f ∈ rec.fields, st.StallsAt (updateExchange obj isWhole) f) := by
  have hloads : (updateExchange obj isWhole).Loads rec.fields st.begin _ :=
    Exchange.loads_doDataExchange rec.nodup rfl
  have hread := Iff.intro hloads.ok_of fun hok f hf => (hloads.of_ok hok f hf).1
  unfold Merges
  dsimp only
  rw [hread]
  generalize hw : (updateExchange obj isWhole).doDataExchange rec.fields st.begin = w
  by_cases hok : w.result = .ok
  · generalize hhook : w.toState.hook (hooks.postLoaded .chg) = r
    obtain ⟨rc, st'⟩ := r
    by_cases hrc : rc = .ok
    · subst hrc
      generalize hw' : (updateExchange obj isWhole).getKVMap { w with toState := st' } = w'
      have hcold : st'.cold = w.cold := (congrArg (fun r => r.2.cold) hhook).symm
      have hfield : ∀ a, w'.coldField.lookup a = w.coldField.lookup a := by
        intro a
        rw [← hw', Exchange.coldField_getKVMap]
      have hloop := coldLoop_returns_iff compare
        { st' with map := w'.field.entries.foldl mergeUpdate st'.map } ⟨[], []⟩
        w'.coldField.nodupKeys
      rw [hcold, exists_samePending_iff hw.symm hok hfield] at hloop
      simpa [updateLocked_of_merges hw.symm hok hhook hw'.symm, hok, hcold] using hloop
    · simp [updateLocked_of_refused hw.symm hok hhook hrc, hrc]
  · simp [updateLocked_of_ne hw.symm hok, hok]

theorem isSome_updateWith {fuel : ℕ} {st' : State} {oldCfg : Obj}
    (h : rec.toBSON hooks st updateMask = some (.ok, oldCfg, st')) (obj : Obj)
    (isWhole compare : Bool) : (rec.updateWith hooks fuel st obj isWhole compare).isSome =
      (rec.updateLocked hooks fuel { st' with locked := true } obj isWhole compare).isSome := by
  unfold updateWith
  rw [h]
  dsimp only
  rw [get_of_unlocked (toBSON_unlocked h)]
  dsimp only
  cases hu : rec.updateLocked hooks fuel { st' with locked := true } obj isWhole compare with
  | none => rfl
  | some r =>
    obtain ⟨rc, err, st''⟩ := r
    split
    next heq => cases heq
    · rfl
    next rc' err' st₃ _ heq =>
      obtain ⟨rc'', st₄, hr⟩ :
          ∃ rc'' st₄, rec.restore hooks st₃.release oldCfg none = some (rc'', st₄) :=
        restore_of_unlocked rfl oldCfg none
      rw [hr]
      rfl

theorem updateWith_returns_iff (h : st.locked = false) (obj : Obj) (isWhole compare : Bool) :
    (∃ fuel, (rec.updateWith hooks fuel st obj isWhole compare).isSome) ↔
      ¬ (compare = true ∧ rec.UpdateStalls hooks st obj isWhole) := by
  unfold UpdateStalls
  obtain ⟨hok, hbson⟩ | ⟨hne, rc, st₁, hrc, hbson⟩ := toBSON_of_unlocked h rec hooks updateMask
  · simp only [isSome_updateWith hbson, updateLocked_returns_iff, hok, true_and]
    rfl
  · refine iff_of_true ⟨0, ?_⟩ fun hstalls => hne hstalls.2.1
    unfold updateWith
    rw [hbson]
    split
    next heq => cases heq
    next heq =>
      cases heq
      exact absurd rfl hrc
    · rfl

theorem deleteConf_returns_iff (h : st.locked = false) (objData : Obj) :
    (∃ fuel, (rec.deleteConf hooks fuel st objData).isSome) ↔
      ¬ rec.Stalls hooks st (.deleteConf objData) := by
  unfold Stalls
  obtain ⟨hok, hbson⟩ | ⟨hne, rc, st₁, hrc, hbson⟩ := toBSON_of_unlocked h rec hooks deleteMask
  · simp only [deleteConf, hbson, hok, true_and, updateWith_returns_iff (toBSON_unlocked hbson)]
  · refine iff_of_true ⟨0, ?_⟩ fun hstalls => hne hstalls.1
    unfold deleteConf
    rw [hbson]
    split
    next heq => cases heq
    next heq =>
      cases heq
      exact absurd rfl hrc
    · rfl

/-- **A call returns, with the mutex free, unless it is a `deleteConf` that stalls.** -/
theorem call_returns_iff {st : State}
    (h : (rec.system (fun _ => True) fun _ _ _ _ => True).Reachable st) (hooks : Hooks)
    (call : Call) :
    (∃ fuel rc st', rec.run hooks fuel st call = some (rc, st') ∧ st'.locked = false) ↔
      ¬ rec.Stalls hooks st call := by
  have hfree := reachable_unlocked h
  have hreturns : (∃ fuel rc st', rec.run hooks fuel st call = some (rc, st') ∧
      st'.locked = false) ↔ ∃ fuel, (rec.run hooks fuel st call).isSome := by
    constructor
    · rintro ⟨fuel, rc, st', hrun, -⟩
      exact ⟨fuel, by rw [hrun]; rfl⟩
    · rintro ⟨fuel, hsome⟩
      obtain ⟨⟨rc, st'⟩, hrun⟩ := Option.isSome_iff_exists.mp hsome
      exact ⟨fuel, rc, st', hrun, run_unlocked hrun⟩
  rw [hreturns]
  cases call with
  | init pVMFile pVMCMD =>
    obtain ⟨rc, st', hrun⟩ : ∃ rc st', rec.init hooks st pVMFile pVMCMD = some (rc, st') :=
      init_of_unlocked hfree pVMFile pVMCMD
    simp [run, hrun, Stalls]
  | restore objData pVMCMD =>
    obtain ⟨rc, st', hrun⟩ : ∃ rc st', rec.restore hooks st objData pVMCMD = some (rc, st') :=
      restore_of_unlocked hfree objData pVMCMD
    simp [run, hrun, Stalls]
  | change objData isWhole =>
    obtain ⟨rc, st', hrun⟩ : ∃ rc st', rec.change hooks st objData isWhole = some (rc, st') :=
      change_of_unlocked hfree objData isWhole
    simp [run, hrun, Stalls]
  | update userConfig isWhole =>
    have hiff : (∃ fuel, (rec.updateWith hooks fuel st userConfig isWhole false).isSome) ↔ _ :=
      updateWith_returns_iff hfree userConfig isWhole false
    simpa [run, update, Stalls] using hiff
  | deleteConf objData =>
    simpa [run] using deleteConf_returns_iff hfree objData

end Record

def rebootRecord : Record := ⟨[⟨['p'], false, .reboot, false, .string 8 ['d']⟩], by decide⟩

/-- `rebootRecord` after `init` and a first `deleteConf`: the default value is pending. -/
def State.afterDelete : State where
  members := Function.update (Function.update State.new.members ['p'] ⟨0, ['x'], false⟩)
    ['p'] ⟨0, ['x'], false⟩
  map := AList.singleton ['p'] ⟨['x'], true, true, .reboot⟩
  cold := AList.singleton ['p'] ⟨['d'], true, false, .reboot⟩
  changeID := 2
  locked := false

theorem afterDelete_reachable :
    (rebootRecord.system (fun _ => True) fun _ _ _ _ => True).Reachable State.afterDelete := by
  exact .step (.step (rebootRecord.new_reachable _)
    ⟨.base, 0, .init [(['p'], .string ['x'])] [], .ok, trivial, rfl⟩)
    ⟨.base, 1, .deleteConf [], .ok, trivial, rfl⟩

/-- **The second `deleteConf` never returns.** -/
theorem deleteConf_stalls :
    (rebootRecord.system (fun _ => True) fun _ _ _ _ => True).Reachable State.afterDelete ∧
      ∀ fuel, rebootRecord.run .base fuel State.afterDelete (.deleteConf []) = none := by
  have hstalls : rebootRecord.Stalls .base State.afterDelete (.deleteConf []) :=
    ⟨rfl, rfl, ⟨by simp [rebootRecord]; rfl, rfl⟩,
      ⟨['p'], false, .reboot, false, .string 8 ['d']⟩, mem_singleton_self _, rfl,
      (['d'], false), ⟨['d'], true, false, .reboot⟩, rfl, rfl, rfl⟩
  refine ⟨afterDelete_reachable, fun fuel => ?_⟩
  by_contra hne
  obtain ⟨r, hr⟩ := Option.ne_none_iff_exists'.mp hne
  refine (Record.deleteConf_returns_iff rfl []).mp ⟨fuel, ?_⟩ hstalls
  simpa [Record.run] using congrArg Option.isSome hr

/-- In the same state an update returns. -/
theorem update_returns_afterDelete :
    ∃ fuel rc st', rebootRecord.run .base fuel State.afterDelete (.update [] true) = some (rc, st') ∧
      st'.locked = false :=
  (Record.call_returns_iff afterDelete_reachable .base (.update [] true)).mpr fun h => h

end Novachains.Util.Cfg
