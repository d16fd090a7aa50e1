import Novachains.Util.CfgEffects

/-!
# The entries of the map

In every run with hooks that only check, an entry of `_mapKeyValue` that belongs to no field is one
that `getKVMap` has added, and those are marked as configured.
-/

namespace Novachains.Util.Cfg

open Lib

def EntryOk (p : ParamValue) : Prop := p.hasMapped = false → p.hasField = true

def State.Shaped (st : State) : Prop := ∀ a p, st.map.lookup a = some p → EntryOk p

section View

/-- The entries of a view, in the map of the record and in that of the exchange. -/
def View.Ok (v : View) : Prop :=
  (∀ p, v.entry = some p → EntryOk p) ∧ ∀ p, v.field = some p → EntryOk p

theorem entryOk_spell {p : ParamValue} (h : EntryOk p) (f : Field) (m : Member) :
    EntryOk (f.spell m p) := by
  rw [EntryOk, Field.hasMapped_spell, Field.hasField_spell]
  exact h

theorem entryOk_unmapped {e : Elem} {p : ParamValue} (h : e.unmapped = some p) : EntryOk p := by
  cases e with
  | number n =>
    cases h
    exact fun _ => rfl
  | string s =>
    cases h
    exact fun _ => rfl
  | other => cases h

variable {v : View}

theorem View.Ok.act {ex : Exchange} (f : Field) (h : v.Ok) : (ex.act f v).2.Ok := by
  cases ht : ex.takes f with
  | error rc =>
    rw [Exchange.act, ht]
    exact h
  | ok t =>
    have hor : ∀ o p, (∀ p, o = some p → EntryOk p) →
        (t.map f.entry).or o = some p → EntryOk p := by
      intro o p ho hp
      rcases Option.or_eq_some_iff.mp hp with hp | ⟨-, hp⟩
      · obtain ⟨t, -, rfl⟩ := Option.map_eq_some_iff.mp hp
        exact fun h => by cases h
      · exact ho p hp
    refine ⟨fun p hp => ?_, fun p hp => ?_⟩
    · rw [Exchange.entry_act ht] at hp
      split at hp
      · obtain ⟨q, hq, rfl⟩ := Option.map_eq_some_iff.mp hp
        refine entryOk_spell ?_ f _
        split at hq
        · exact hor v.entry q h.1 hq
        · exact h.1 q hq
      · exact h.1 p hp
    · rw [Exchange.field_act ht] at hp
      split at hp
      · exact hor v.field p h.2 hp
      · exact h.2 p hp

theorem View.Ok.addView {ex : Exchange} {name : Text} (h : v.Ok) : (ex.addView name v).Ok := by
  unfold Exchange.addView
  split
  · exact h
  cases hlast : lastUnmapped name ex.src.elements with
  | none => exact h
  | some q =>
    obtain ⟨e, he⟩ := exists_of_lastUnmapped hlast
    have hq : EntryOk q := entryOk_unmapped he
    simp only [Option.elim_some, Exchange.putView]
    split
    · exact ⟨fun p hp => Option.some.inj hp ▸ hq, h.2⟩
    · exact ⟨h.1, fun p hp => Option.some.inj hp ▸ hq⟩

variable {isWhole : Bool}

theorem entryOk_purged {e : Option ParamValue} (h : ∀ p, e = some p → EntryOk p) :
    ∀ p, v.purged isWhole e = some p → EntryOk p := by
  intro p hp
  unfold View.purged at hp
  split at hp
  · exact h p (Option.filter_eq_some_iff.mp hp).1
  · exact h p hp

theorem View.Ok.afterChange (h : v.Ok) : (v.afterChange isWhole).Ok := by
  refine ⟨entryOk_purged fun p hp => ?_, fun p hp => nomatch hp⟩
  unfold View.changed at hp
  split at hp
  · exact h.1 p hp
  next q hq =>
    split at hp
    · exact h.2 p (hq.trans hp)
    · exact h.1 p hp

theorem View.Ok.afterUpdate (h : v.Ok) : (v.afterUpdate isWhole).Ok := by
  refine ⟨entryOk_purged fun p hp => ?_, fun p hp => nomatch hp⟩
  rcases Option.or_eq_some_iff.mp hp with hp | ⟨-, hp⟩
  · exact h.2 p hp
  · exact h.1 p hp

end View

/-! ## Every call -/

variable {ex : Exchange} {w : Work}

namespace Record
variable {rec : Record} {hooks : Hooks} {st st' : State}

theorem shaped_iff : st.Shaped ↔ ∀ a, (st.view a).Ok := by
  refine ⟨fun h a => ⟨h a, fun p hp => nomatch hp⟩, fun h a => (h a).1⟩

theorem ok_of_loads {w' : Work} (hloads : ex.Loads rec.fields w w') (h : ∀ a, (w.view a).Ok) :
    ∀ a, (w'.view a).Ok := by
  intro a
  rcases hloads.view_cases a with heq | ⟨f, hf, rfl, heq⟩
  · rw [heq]
    exact h a
  · rw [heq]
    exact (h f.name).act f

theorem ok_getKVMap (h : ∀ a, (w.view a).Ok) : ∀ a, ((ex.getKVMap w).view a).Ok := by
  intro a
  rw [view_getKVMap_eq]
  exact (h a).addView

theorem shaped_of_ok (h : ∀ a, (w.view a).Ok) : w.toState.Shaped :=
  fun a => (h a).1

theorem initLocked_shaped (hi : hooks.Inert) (h : st.Shaped) (pVMFile pVMCMD : Obj) :
    (rec.initLocked hooks st pVMFile pVMCMD).2.Shaped := by
  obtain ⟨w, hw⟩ : ∃ w, w = (initExchange pVMFile pVMCMD).doDataExchange rec.fields st.begin :=
    ⟨_, rfl⟩
  have hloads : (initExchange pVMFile pVMCMD).Loads rec.fields st.begin w :=
    hw ▸ Exchange.loads_doDataExchange rec.nodup rfl
  have hok := ok_of_loads hloads (shaped_iff.mp h)
  rcases initLocked_cases hi hw with heq | heq
  · rw [heq]
    exact shaped_of_ok hok
  · have hbumped : w.toState.bumpID.Shaped := shaped_of_ok hok
    rw [heq]
    exact shaped_of_ok (ok_getKVMap (shaped_iff.mp hbumped))

theorem loadArgs_shaped (h : st.Shaped) (pVMCMD : Option Obj) :
    (rec.loadArgs st pVMCMD).2.Shaped := by
  cases pVMCMD with
  | none => exact h
  | some obj =>
    have hloads : (argsExchange obj).Loads rec.fields st.begin
        ((argsExchange obj).doDataExchange rec.fields st.begin) :=
      Exchange.loads_doDataExchange rec.nodup rfl
    have hok := ok_of_loads hloads (shaped_iff.mp h)
    unfold loadArgs
    dsimp only
    split
    · exact shaped_of_ok hok
    · exact shaped_of_ok (ok_getKVMap hok)

theorem restoreLocked_shaped (hi : hooks.Inert) (objData : Obj) (pVMCMD : Option Obj) :
    (rec.restoreLocked hooks st objData pVMCMD).2.Shaped := by
  obtain ⟨w, hw⟩ : ∃ w, w = (restoreExchange objData).doDataExchange rec.fields
    ({ st with map := ∅ } : State).begin := ⟨_, rfl⟩
  have hloads : (restoreExchange objData).Loads rec.fields ({ st with map := ∅ } : State).begin w :=
    hw ▸ Exchange.loads_doDataExchange rec.nodup rfl
  have hempty : State.Shaped { st with map := ∅ } := fun a p hp => nomatch hp
  have hok := ok_of_loads hloads (shaped_iff.mp hempty)
  rcases restoreLocked_cases hi hw with heq | heq
  · rw [heq]
    exact shaped_of_ok hok
  · rw [heq]
    exact loadArgs_shaped (shaped_of_ok (ok_getKVMap hok)) pVMCMD

theorem Outcome.shaped {mask : Mask} {after : View → View} {rc : Rc}
    (h : Outcome rec hooks ex mask after st rc st') (hi : hooks.Inert) (hst : st.Shaped)
    (hafter : ∀ v, v.Ok → (after v).Ok) : st'.Shaped := by
  cases h with
  | refused hrc => exact hst
  | merged hloads hok hview =>
    have hall := ok_of_loads hloads (shaped_iff.mp hst)
    rw [shaped_iff]
    intro a
    rw [hview]
    exact hafter _ (hall a).addView
  | failed hloads hrc => exact restoreLocked_shaped hi _ none

/-- **Every call keeps the shape of the entries.** -/
theorem run_shaped (hi : hooks.Inert) (hfree : st.locked = false) (hst : st.Shaped) {fuel : ℕ}
    {call : Call} {rc : Rc} (h : rec.run hooks fuel st call = some (rc, st')) : st'.Shaped := by
  cases call with
  | init pVMFile pVMCMD =>
    simp only [run, init, get_of_unlocked hfree] at h
    cases h
    have hheld : State.Shaped { st with locked := true } := hst
    exact initLocked_shaped hi hheld pVMFile pVMCMD
  | restore objData pVMCMD =>
    simp only [run, restore, get_of_unlocked hfree] at h
    cases h
    exact restoreLocked_shaped hi objData pVMCMD
  | change objData isWhole =>
    exact (change_outcome hi hfree h).shaped hi hst fun _ hv => hv.afterChange
  | update userConfig isWhole =>
    obtain ⟨⟨rc', err, st''⟩, hr, heq⟩ := Option.map_eq_some_iff.mp h
    cases heq
    exact (updateWith_outcome hi hfree hr).shaped hi hst fun _ hv => hv.afterUpdate
  | deleteConf objData =>
    obtain ⟨⟨rc', err, st''⟩, hr, heq⟩ := Option.map_eq_some_iff.mp h
    cases heq
    exact (deleteConf_outcome hi hfree hr).shaped hi hst fun _ hv => hv.afterUpdate

theorem reachable_shaped {init : State → Prop} {P : State → Hooks → Call → Rc → Prop}
    (hP : ∀ st hooks call rc, P st hooks call rc → hooks.Inert)
    (h : (rec.system init P).Reachable st) : st.Shaped := by
  refine (System.Invariant.reachable (I := fun st => st.locked = false ∧ st.Shaped)
    ⟨?_, ?_⟩ h).2
  · rintro s ⟨hmap, -, -, hfree, -⟩
    refine ⟨hfree, fun a p hp => ?_⟩
    rw [hmap] at hp
    cases hp
  · rintro s t ⟨hfree, hs⟩ ⟨hooks, fuel, call, rc, hcall, hrun⟩
    exact ⟨run_unlocked hrun, run_shaped (hP s hooks call rc hcall) hfree hs hrun⟩

end Record

end Novachains.Util.Cfg
