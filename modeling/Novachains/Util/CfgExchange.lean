import Novachains.Util.CfgRecord

/-!
# What an exchange does to one field

The calls of a field work on what the record and the exchange have under its name: the member, the
two entries of the record and those of the exchange.  `View` is all of that, and `Exchange.act` is
what the calls do to it.  As the names are different, a whole load is these changes next to each
other, up to the first error.
-/

namespace Novachains.Util.Cfg

open List

namespace Field

variable (f : Field)

def text (m : Member) : Text :=
  match f.kind with
  | .int _ _ => itoa m.int
  | .string _ _ => m.str
  | .boolean _ => boolText m.bool

def read (e : Elem) : Option Text :=
  match f.kind, e with
  | .int _ _, .number n => some (itoa n)
  | .string _ _, .string s => some s
  | .boolean _, .string s => some s
  | _, _ => none

def defaultText : Text :=
  match f.kind with
  | .int default _ => itoa default
  | .string _ default => default
  | .boolean default => boolText default

def assign (text : Text) (m : Member) : Member :=
  match f.kind with
  | .int _ _ => { m with int := atoi text }
  | .string len _ => { m with str := clip len text }
  | .boolean default =>
    { m with bool := (ossStrToBoolean (clip enumStrSize text)).getD default }

def check (m : Member) : Rc × Member :=
  match f.kind with
  | .int _ checks =>
    let (rc, v) := checks.foldl rdvMinMax (.ok, m.int)
    (rc, { m with int := v })
  | _ => (.ok, m)

def isBoolean : Bool :=
  match f.kind with
  | .boolean _ => true
  | _ => false

end Field

structure View where
  member : Member
  entry : Option ParamValue
  pending : Option ParamValue
  field : Option ParamValue
  coldField : Option ParamValue

def Work.view (w : Work) (name : Text) : View :=
  ⟨w.members name, w.map.lookup name, w.cold.lookup name, w.field.lookup name,
    w.coldField.lookup name⟩

namespace Exchange

/-- The text that the calls of a field take and whether it is configured; `none` if the field is
passed over. -/
def takes (ex : Exchange) (f : Field) : Except Rc (Option (Text × Bool)) :=
  if ex.skips f.name then .ok none
  else
    match ex.src.find f.name with
    | some e =>
      match f.read e with
      | some text => .ok (some (text, true))
      | none => .error .invalidArg
    | none => if f.required then .error .fieldNotExist else .ok (some (f.defaultText, false))

def saveView (ex : Exchange) (f : Field) (v : View) (t : Text × Bool) : View :=
  let p : ParamValue := ⟨t.1, true, t.2, f.level⟩
  if ex.assigns f.level then
    if ex.own then { v with member := f.assign t.1 v.member, entry := some p }
    else { v with member := f.assign t.1 v.member, field := some p }
  else if ex.hasCold then { v with coldField := some p }
  else v

def spellView (ex : Exchange) (f : Field) (v : View) : View :=
  if f.isBoolean then
    if ex.assigns f.level then
      { v with entry := v.entry.map fun p => { p with value := f.text v.member } }
    else { v with pending := v.pending.map fun p => { p with value := f.text v.member } }
  else v

/-- **What the calls of a field do** to what there is under its name. -/
def act (ex : Exchange) (f : Field) (v : View) : Rc × View :=
  match ex.takes f with
  | .error rc => (rc, v)
  | .ok t =>
    let v := t.elim v (ex.saveView f v)
    let (rc, m) := f.check v.member
    (rc, ex.spellView f { v with member := m })

/-! ## The calls of one field -/

section Load
variable (ex : Exchange) (w : Work) (f : Field)

theorem saveToMap_result {w : Work} (h : w.result = .ok) (name text : Text) (level : Level)
    (useDefault : Bool) : { ex.saveToMap w name text level useDefault with result := .ok } =
      ex.saveToMap w name text level useDefault := by
  unfold saveToMap put
  split_ifs <;> rw [← h]

def saved (t : Text × Bool) : Work := ex.saveToMap w f.name t.1 f.level !t.2

@[simp] theorem members_saved (t : Text × Bool) : (ex.saved w f t).members = w.members := by
  unfold saved saveToMap put
  split_ifs <;> rfl

@[simp] theorem result_saved (t : Text × Bool) : (ex.saved w f t).result = w.result := by
  unfold saved saveToMap put
  split_ifs <;> rfl

theorem view_saved_of_ne (t : Text × Bool) {a : Text} (h : a ≠ f.name) :
    (ex.saved w f t).view a = w.view a := by
  unfold saved saveToMap put
  split_ifs <;> simp [Work.view, AList.lookup_insert_ne h]

theorem saveView_eq (t : Text × Bool) : ex.saveView f (w.view f.name) t =
    { (ex.saved w f t).view f.name with
      member := if ex.assigns f.level then f.assign t.1 (w.members f.name)
        else w.members f.name } := by
  unfold saveView saved saveToMap put
  split_ifs <;> simp [Work.view, AList.lookup_insert]

theorem rdxInt_eq (h : w.result = .ok) {default : ℤ} {checks : List Range}
    (hk : f.kind = .int default checks) (v : ℤ) :
    ex.rdxInt w f v default =
      match ex.takes f with
      | .error rc => ({ w with result := rc }, v)
      | .ok none => (w, v)
      | .ok (some t) => (ex.saved w f t, if ex.assigns f.level then atoi t.1 else v) := by
  have hsame := ex.saveToMap_result h
  unfold rdxInt takes
  rw [if_neg (not_not.mpr h)]
  split
  · rfl
  unfold readInt Field.read Field.defaultText
  rw [hk]
  cases ex.src.find f.name with
  | none => cases hr : f.required <;> simp [saveToMapInt, hsame, saved]
  | some e => cases e <;> simp [saveToMapInt, hsame, saved]

theorem rdxString_eq (h : w.result = .ok)
    (hread : ∀ e, f.read e = match e with | .string s => some s | _ => none) (v : Text) (len : ℕ) :
    ex.rdxString w f v len f.defaultText =
      match ex.takes f with
      | .error rc => ({ w with result := rc }, v)
      | .ok none => (w, v)
      | .ok (some t) => (ex.saved w f t, if ex.assigns f.level then clip len t.1 else v) := by
  have hsame := ex.saveToMap_result h
  unfold rdxString takes
  rw [if_neg (not_not.mpr h)]
  split
  · rfl
  unfold readString
  cases ex.src.find f.name with
  | none => cases hr : f.required <;> simp [saveToMapString, hsame, saved]
  | some e => cases e <;> simp [saveToMapString, hsame, saved, hread]

theorem takes_error {rc : Rc} (h : ex.takes f = .error rc) : rc ≠ .ok := by
  unfold takes at h
  split at h
  · cases h
  split at h
  · split at h
    · cases h
    · cases h
      decide
  · split at h
    · cases h
      decide
    · cases h

theorem foldl_rdvMinMax_of_ne {rc : Rc} (h : rc ≠ .ok) (checks : List Range) (v : ℤ) :
    checks.foldl rdvMinMax (rc, v) = (rc, v) := by
  induction checks with
  | nil => rfl
  | cons r checks ih => rw [foldl_cons, rdvMinMax, if_pos h, ih]

theorem lookup_setText (m : KVMap) (name text a : Text) : (setText m name text).lookup a =
    if a = name then (m.lookup a).map fun p => { p with value := text } else m.lookup a := by
  unfold setText
  by_cases h : a = name
  · subst h
    rw [if_pos rfl]
    cases hl : m.lookup a with
    | none => simpa using hl
    | some p => simp
  · rw [if_neg h]
    split
    · rfl
    · exact AList.lookup_insert_ne h

theorem load_of_ne (h : w.result ≠ .ok) : ex.load w f = w := by
  unfold load rdxInt rdxString
  cases f.kind with
  | int default checks => simp [h, foldl_rdvMinMax_of_ne h]
  | string len default => simp [h]
  | boolean default => simp [h]

/-- `w'` is `w` but for what there is under the name, and the result. -/
def KeepsElse (w w' : Work) (name : Text) : Prop := ∀ a, a ≠ name → w'.view a = w.view a

theorem keepsElse_saved (t : Text × Bool) : KeepsElse w (ex.saved w f t) f.name :=
  fun _ ha => ex.view_saved_of_ne w f t ha

theorem KeepsElse.setMember {w w' : Work} {name : Text} (h : KeepsElse w w' name) (m : Member)
    (rc : Rc) : KeepsElse w { w' with members := Function.update w'.members name m, result := rc }
      name := by
  intro a ha
  rw [← h a ha]
  simp [Work.view, ha]

theorem KeepsElse.updateFieldMap {w w' : Work} {name : Text} (h : KeepsElse w w' name)
    (text : Text) (level : Level) : KeepsElse w (ex.updateFieldMap w' name text level) name := by
  intro a ha
  rw [← h a ha]
  unfold Exchange.updateFieldMap
  split <;> simp [Work.view, lookup_setText, ha]

theorem keepsElse_taken (t : Option (Text × Bool)) :
    KeepsElse w (t.elim w (ex.saved w f)) f.name := by
  cases t with
  | none => exact fun _ _ => rfl
  | some t => exact ex.keepsElse_saved w f t

/-- **The calls of a field** do what `act` says under its name, and keep what is under other
names. -/
theorem load_spec (h : w.result = .ok) :
    ((ex.load w f).result = (ex.act f (w.view f.name)).1 ∧
      (ex.load w f).view f.name = (ex.act f (w.view f.name)).2) ∧
    KeepsElse w (ex.load w f) f.name := by
  have hself : ∀ rc, KeepsElse w { w with result := rc } f.name := fun _ _ _ => rfl
  have htaken := ex.keepsElse_taken w f
  unfold act load
  cases hk : f.kind with
  | int default checks =>
    dsimp only
    rw [ex.rdxInt_eq w f h hk]
    rcases ht : ex.takes f with rc | _ | t
    · have hrc := ex.takes_error f ht
      exact ⟨by simp [foldl_rdvMinMax_of_ne hrc, Work.view], (hself rc).setMember _ _⟩
    · refine ⟨?_, (htaken none).setMember _ _⟩
      simp [h, Work.view, Field.check, spellView, Field.isBoolean, hk]
    · refine ⟨?_, (htaken (some t)).setMember _ _⟩
      simp only [Option.elim, ex.saveView_eq w f t]
      by_cases ha : ex.assigns f.level = true <;>
        simp [h, ha, Work.view, Field.check, spellView, Field.isBoolean, hk, Field.assign]
  | string len default =>
    have hd : default = f.defaultText := by rw [Field.defaultText, hk]
    dsimp only
    rw [hd, ex.rdxString_eq w f h fun e => by cases e <;> simp [Field.read, hk]]
    rcases ht : ex.takes f with rc | _ | t
    · exact ⟨by simp [Work.view], (hself rc).setMember _ rc⟩
    · refine ⟨?_, (htaken none).setMember _ w.result⟩
      simp [h, Work.view, Field.check, spellView, Field.isBoolean, hk]
    · refine ⟨?_, (htaken (some t)).setMember _ (ex.saved w f t).result⟩
      simp only [Option.elim, ex.saveView_eq w f t]
      by_cases ha : ex.assigns f.level = true <;>
        simp [h, ha, Work.view, Field.check, spellView, Field.isBoolean, hk, Field.assign]
  | boolean default =>
    have hd : boolText default = f.defaultText := by rw [Field.defaultText, hk]
    dsimp only
    rw [hd, ex.rdxString_eq w f h fun e => by cases e <;> simp [Field.read, hk]]
    rcases ht : ex.takes f with rc | _ | t
    · rw [if_neg (ex.takes_error f ht)]
      exact ⟨by simp [Work.view], hself rc⟩
    · rw [if_pos h]
      refine ⟨?_, ((htaken none).setMember _ w.result).updateFieldMap ex _ _⟩
      by_cases ha : ex.assigns f.level = true <;>
        simp [h, ha, Work.view, Field.check, spellView, Field.isBoolean, hk, Field.text,
          updateFieldMap, lookup_setText]
    · rw [if_pos (by rw [result_saved, h])]
      refine ⟨?_, ((htaken (some t)).setMember _ (ex.saved w f t).result).updateFieldMap ex _ _⟩
      simp only [Option.elim, ex.saveView_eq w f t]
      by_cases ha : ex.assigns f.level = true <;>
        simp [h, ha, Work.view, Field.check, spellView, Field.isBoolean, hk, Field.text,
          Field.assign, updateFieldMap, lookup_setText]

end Load

/-! ## A whole load -/

section Whole
variable {ex : Exchange} {w : Work} {fields : List Field}

/-- What a load does to the views. -/
structure Loads (ex : Exchange) (fields : List Field) (w w' : Work) : Prop where
  view_cases : ∀ a, w'.view a = w.view a ∨
    ∃ f ∈ fields, f.name = a ∧ w'.view a = (ex.act f (w.view a)).2
  of_ok : w'.result = .ok → ∀ f ∈ fields, (ex.act f (w.view f.name)).1 = .ok ∧
    w'.view f.name = (ex.act f (w.view f.name)).2
  ok_of : (∀ f ∈ fields, (ex.act f (w.view f.name)).1 = .ok) → w'.result = .ok

theorem doDataExchange_of_ne (h : w.result ≠ .ok) : ex.doDataExchange fields w = w := by
  unfold doDataExchange
  induction fields with
  | nil => rfl
  | cons f fields ih => rw [foldl_cons, ex.load_of_ne w f h, ih]

/-- **A whole load**: the fields one after the other, up to the first error. -/
theorem loads_doDataExchange (hnd : (fields.map Field.name).Nodup) (h : w.result = .ok) :
    ex.Loads fields w (ex.doDataExchange fields w) := by
  induction fields generalizing w with
  | nil => exact ⟨fun _ => .inl rfl, fun _ => forall_mem_nil _, fun _ => h⟩
  | cons f fields ih =>
    rw [map_cons, nodup_cons] at hnd
    obtain ⟨⟨hresult, hself⟩, hkeeps⟩ := ex.load_spec w f h
    have hne : ∀ g ∈ fields, g.name ≠ f.name := by
      intro g hg heq
      exact hnd.1 (heq ▸ List.mem_map_of_mem hg)
    have hview : ∀ g ∈ fields, (ex.load w f).view g.name = w.view g.name := fun g hg =>
      hkeeps g.name (hne g hg)
    have hhead : ∀ a, (ex.load w f).view a = w.view a ∨
        ∃ g ∈ f :: fields, g.name = a ∧ (ex.load w f).view a = (ex.act g (w.view a)).2 := by
      intro a
      by_cases ha : a = f.name
      · subst ha
        exact .inr ⟨f, mem_cons_self, rfl, hself⟩
      · exact .inl (hkeeps a ha)
    change ex.Loads (f :: fields) w (ex.doDataExchange fields (ex.load w f))
    by_cases hok : (ex.act f (w.view f.name)).1 = .ok
    · have hrest := ih hnd.2 (hresult.trans hok)
      refine ⟨fun a => ?_, fun hall => forall_mem_cons.mpr ⟨⟨hok, ?_⟩, fun g hg => ?_⟩,
        fun hall => hrest.ok_of fun g hg => ?_⟩
      · rcases hrest.view_cases a with heq | ⟨g, hg, rfl, heq⟩
        · rw [heq]
          exact hhead a
        · rw [hview g hg] at heq
          exact .inr ⟨g, mem_cons_of_mem f hg, rfl, heq⟩
      · rcases hrest.view_cases f.name with heq | ⟨g, hg, hname, -⟩
        · exact heq.trans hself
        · exact absurd hname (hne g hg)
      · rw [← hview g hg]
        exact hrest.of_ok hall g hg
      · rw [hview g hg]
        exact hall g (mem_cons_of_mem f hg)
    · -- The first field fails, and the others are not looked at.
      rw [doDataExchange_of_ne (by rwa [hresult])]
      exact ⟨hhead, fun hall => absurd (hresult.symm.trans hall) hok,
        fun hall => absurd (hall f mem_cons_self) hok⟩

theorem takes_of_act {f : Field} {v : View} (h : (ex.act f v).1 = .ok) :
    ∃ t, ex.takes f = .ok t := by
  unfold act at h
  cases ht : ex.takes f with
  | error rc =>
    rw [ht] at h
    exact absurd h (ex.takes_error f ht)
  | ok t => exact ⟨t, rfl⟩

end Whole

end Exchange

end Novachains.Util.Cfg
