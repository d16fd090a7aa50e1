import Novachains.Basic
import Novachains.Util.CfgText
import Mathlib.Data.List.AList

/-!
# Configuration records

`_utilCfgRecord` keeps the members of a subclass and two maps with their texts: `_mapKeyValue` and,
for what takes effect after a restart, `_mapColdKeyValue`.  The subclass declares its fields in
`doDataExchange`, a list of calls of `rdxInt`, `rdxString` and `rdxBooleanS`; an integer is followed
by its range checks, `rdvMinMax`.  One exchange loads all fields from a document or from the
arguments of the program, another saves them to a document.

A `std::map` is an association list; only the order of the names in an error object and of the last
elements of a dump depend on its order.  A value of the wrong type among the arguments throws out of
the call, which is modelled as a failed call.
-/

namespace Novachains.Util.Cfg

/-- `UTIL_CFG_CHANGE`. -/
inductive Level
  | invalid
  | forbidden
  | run
  | reboot
  deriving DecidableEq, Repr

def Level.allowRunChange : Level → Bool
  | .reboot | .forbidden => false
  | _ => true

inductive Step
  | init
  | reinit
  | chg
  deriving DecidableEq, Repr

/-- `_utilParamValue`; `hasField` marks what has been configured and is not a default. -/
structure ParamValue where
  value : Text
  hasMapped : Bool
  hasField : Bool
  level : Level
  deriving DecidableEq, Repr

/-- `MAP_K2V`. -/
abbrev KVMap := AList fun _ : Text => ParamValue

def setText (m : KVMap) (name text : Text) : KVMap :=
  match m.lookup name with
  | none => m
  | some p => m.insert name { p with value := text }

/-- The arguments of `rdvMinMax` after the value. -/
structure Range where
  minV : ℤ
  maxV : ℤ
  autoAdjust : Bool
  deriving DecidableEq, Repr

inductive Kind
  | int (default : ℤ) (checks : List Range)
  | string (len : ℕ) (default : Text)
  | boolean (default : Bool)
  deriving DecidableEq, Repr

/-- The arguments of one call of `rdxInt`, `rdxString` or `rdxBooleanS`. -/
structure Field where
  name : Text
  required : Bool
  level : Level
  hideParam : Bool
  kind : Kind
  deriving DecidableEq, Repr

/-- The fields of a record, in the order of `doDataExchange`. -/
structure Record where
  fields : List Field
  nodup : (fields.map Field.name).Nodup

structure Member where
  int : ℤ
  str : Text
  bool : Bool
  deriving DecidableEq, Repr

abbrev Members := Text → Member

structure State where
  members : Members
  map : KVMap
  cold : KVMap
  changeID : ℕ
  locked : Bool

/-- `BSONElement`, as far as it is looked at: a number is its `numberInt`. -/
inductive Elem
  | number (n : ℤ)
  | string (s : Text)
  | other
  deriving DecidableEq, Repr

/-- The elements of a document, or the variables of a `variables_map`. -/
abbrev Obj := List (Text × Elem)

inductive Source
  | bson (obj : Obj)
  | cmd (pVMCmd pVMFile : Obj)

/-- `getField`, or the variable of the name. -/
def Source.find : Source → Text → Option Elem
  | .bson obj, name => obj.lookup name
  | .cmd pVMCmd pVMFile, name => (pVMCmd.lookup name).or (pVMFile.lookup name)

/-- `_utilCfgExchange` while it loads; with `own`, `_pMapKeyField` is the map of the record. -/
structure Exchange where
  src : Source
  step : Step
  isWhole : Bool
  own : Bool
  hasCold : Bool

/-- The record in an exchange, the maps of the exchange and `_result`. -/
structure Work extends State where
  field : KVMap
  coldField : KVMap
  result : Rc

variable (st : State)

def State.begin : Work := { st with field := ∅, coldField := ∅, result := .ok }

/-! ## Loading -/

variable (ex : Exchange)

namespace Exchange

def hasField (name : Text) : Bool := (ex.src.find name).isSome

def skips (name : Text) : Bool :=
  match ex.step with
  | .init => false
  | .reinit => !ex.hasField name
  | .chg => !ex.isWhole && !ex.hasField name

def assigns (level : Level) : Bool := ex.step ≠ .chg || level.allowRunChange

/-- An entry for `_pMapKeyField`. -/
def put (w : Work) (name : Text) (v : ParamValue) : Work :=
  if ex.own then { w with map := w.map.insert name v }
  else { w with field := w.field.insert name v }

/-- What `_saveToMapInt` and `_saveToMapString` do to the maps. -/
def saveToMap (w : Work) (name newValue : Text) (level : Level)
    (useDefault : Bool) : Work :=
  let v : ParamValue := ⟨newValue, true, !useDefault, level⟩
  if ex.assigns level then ex.put w name v
  else if ex.hasCold then { w with coldField := w.coldField.insert name v }
  else w

def saveToMapInt (w : Work) (name : Text) (value newValue : ℤ) (level : Level)
    (useDefault : Bool) : Work × ℤ :=
  (ex.saveToMap w name (itoa newValue) level useDefault,
    if ex.assigns level then newValue else value)

def saveToMapString (w : Work) (name value : Text) (len : ℕ) (newValue : Text)
    (level : Level) (useDefault : Bool) : Work × Text :=
  (ex.saveToMap w name newValue level useDefault,
    if ex.assigns level then clip len newValue else value)

/-- `readInt`; without a default value the field is required. -/
def readInt (w : Work) (name : Text) (value : ℤ) (defaultValue : Option ℤ)
    (level : Level) : Rc × Work × ℤ :=
  match ex.src.find name with
  | some (.number n) => (.ok, ex.saveToMapInt w name value n level false)
  | some _ => (.invalidArg, w, value)
  | none =>
    match defaultValue with
    | some d => (.ok, ex.saveToMapInt w name value d level true)
    | none => (.fieldNotExist, w, value)

/-- `readString`; without a default value the field is required. -/
def readString (w : Work) (name value : Text) (len : ℕ)
    (defaultValue : Option Text) (level : Level) : Rc × Work × Text :=
  match ex.src.find name with
  | some (.string s) => (.ok, ex.saveToMapString w name value len s level false)
  | some _ => (.invalidArg, w, value)
  | none =>
    match defaultValue with
    | some d => (.ok, ex.saveToMapString w name value len d level true)
    | none => (.fieldNotExist, w, value)

/-- `rdxInt` in a load. -/
def rdxInt (w : Work) (f : Field) (value default : ℤ) : Work × ℤ :=
  if w.result ≠ .ok then (w, value)
  else if ex.skips f.name then (w, value)
  else
    let (rc, w, value) :=
      ex.readInt w f.name value (if f.required then none else some default) f.level
    ({ w with result := rc }, value)

/-- `rdxString` in a load. -/
def rdxString (w : Work) (f : Field) (value : Text) (len : ℕ) (default : Text) :
    Work × Text :=
  if w.result ≠ .ok then (w, value)
  else if ex.skips f.name then (w, value)
  else
    let (rc, w, value) :=
      ex.readString w f.name value len (if f.required then none else some default) f.level
    ({ w with result := rc }, value)

/-- `_updateFieldMap`; it works on the maps of the record, not on those of the exchange. -/
def updateFieldMap (w : Work) (name value : Text) (level : Level) : Work :=
  if ex.assigns level then { w with map := setText w.map name value }
  else { w with cold := setText w.cold name value }

end Exchange

/-- `rdvMinMax` in a load, on `_result` and the value. -/
def rdvMinMax (s : Rc × ℤ) (r : Range) : Rc × ℤ :=
  if s.1 ≠ .ok then s
  else if s.2 < r.minV then
    if r.autoAdjust then (.ok, r.minV) else (.invalidArg, s.2)
  else if s.2 > r.maxV then
    if r.autoAdjust then (.ok, r.maxV) else (.invalidArg, s.2)
  else s

/-- The size of the buffer of `rdxBooleanS`. -/
def enumStrSize : ℕ := 32 + 1

namespace Exchange

/-- The calls of one field. -/
def load (w : Work) (f : Field) : Work :=
  match f.kind with
  | .int default checks =>
    let (w, v) := ex.rdxInt w f (w.members f.name).int default
    let (rc, v) := checks.foldl rdvMinMax (w.result, v)
    { w with
      members := Function.update w.members f.name { w.members f.name with int := v }
      result := rc }
  | .string len default =>
    let (w, v) := ex.rdxString w f (w.members f.name).str len default
    { w with members := Function.update w.members f.name { w.members f.name with str := v } }
  | .boolean default =>
    let (w, szTmp) :=
      ex.rdxString w f (boolText (w.members f.name).bool) enumStrSize (boolText default)
    if w.result = .ok then
      let value := (ossStrToBoolean szTmp).getD default
      let members :=
        Function.update w.members f.name { w.members f.name with bool := value }
      ex.updateFieldMap { w with members := members } f.name (boolText value) f.level
    else w

/-- `doDataExchange` in a load. -/
def doDataExchange (fields : List Field) (w : Work) : Work :=
  fields.foldl ex.load w

def keyField (w : Work) : KVMap := if ex.own then w.map else w.field

def isMapped (w : Work) (name : Text) : Bool :=
  ((ex.keyField w).lookup name).any ParamValue.hasMapped ||
    ex.hasCold && (w.coldField.lookup name).any ParamValue.hasMapped

/-- What `getKVMap` and `_makeKeyValueMap` do with one element. -/
def addUnmapped (w : Work) (e : Text × Elem) : Work :=
  if ex.isMapped w e.1 then w
  else
    match e.2 with
    | .string s => ex.put w e.1 ⟨cstr s, false, true, .invalid⟩
    | .number n => ex.put w e.1 ⟨itoa n, false, true, .invalid⟩
    | .other => w

def getKVMap (w : Work) : Work :=
  match ex.src with
  | .bson obj => obj.foldl ex.addUnmapped w
  | .cmd pVMCmd pVMFile => pVMCmd.foldl ex.addUnmapped (pVMFile.foldl ex.addUnmapped w)

end Exchange

/-! ## Saving -/

structure Mask where
  skipUnField : Bool
  skipNormalDefault : Bool
  skipHideDefault : Bool
  localMode : Bool

namespace State

/-- The mark that a dump looks at: that of the pending value, if a cold field has one. -/
def dumpMark (f : Field) : Bool :=
  match f.level, st.cold.lookup f.name with
  | .reboot, some p => p.hasField
  | _, _ => (st.map.lookup f.name).any ParamValue.hasField

def skipsField (mask : Mask) (f : Field) (isDefault : Bool) : Bool :=
  (isDefault && if f.hideParam then mask.skipHideDefault else mask.skipNormalDefault) ||
    mask.skipUnField && !st.dumpMark f

/-- The member is written, and not the pending value; `same` compares the member with a text. -/
def writesMember (mask : Mask) (f : Field) (same : Text → Bool) : Bool :=
  f.level ≠ .reboot || !mask.localMode ||
    (st.map.lookup f.name).any (fun p => !same p.value) || (st.cold.lookup f.name).isNone

def coldText (name : Text) : Text :=
  ((st.cold.lookup name).map ParamValue.value).getD []

/-- `rdxInt` in a dump. -/
def saveInt (mask : Mask) (f : Field) (value default : ℤ) : Obj :=
  if st.skipsField mask f (value = default) then []
  else if st.writesMember mask f (fun t => value = atoi t) then [(f.name, .number value)]
  else [(f.name, .number (atoi (st.coldText f.name)))]

/-- `rdxString` in a dump. -/
def saveString (mask : Mask) (f : Field) (value default : Text) : Obj :=
  if st.skipsField mask f (value = cstr default) then []
  else if st.writesMember mask f (fun t => value = cstr t) then [(f.name, .string value)]
  else [(f.name, .string (cstr (st.coldText f.name)))]

def save (mask : Mask) (f : Field) : Obj :=
  match f.kind with
  | .int default _ => st.saveInt mask f (st.members f.name).int default
  | .string _ default => st.saveString mask f (st.members f.name).str default
  | .boolean default =>
    st.saveString mask f (boolText (st.members f.name).bool) (boolText default)

/-- `doDataExchange` in a dump and `getData`. -/
def dump (fields : List Field) (mask : Mask) : Obj :=
  fields.flatMap (st.save mask) ++
    (st.map.entries.filter fun e => !e.2.hasMapped).map fun e => (e.1, .string e.2.value)

end State

/-! ## Calls -/

/-- What a subclass does: the hooks may change the members and add entries to the map. -/
structure Hooks where
  preSaving : Members → KVMap → Rc × Members × KVMap
  postLoaded : Step → Members → KVMap → Rc × Members × KVMap
  onConfigInit : Rc

def Hooks.base : Hooks := ⟨fun m k => (.ok, m, k), fun _ m k => (.ok, m, k), .ok⟩

namespace State

/-- `_mutex.get`, which does not return as long as the mutex is held. -/
def get : Option State := if st.locked then none else some { st with locked := true }

/-- `_mutex.release`. -/
def release : State := { st with locked := false }

def hook (h : Members → KVMap → Rc × Members × KVMap) : Rc × State :=
  let (rc, members, map) := h st.members st.map
  (rc, { st with members := members, map := map })

def bumpID : State := { st with changeID := (st.changeID + 1) % 2 ^ 32 }

end State

namespace Record
variable (rec : Record) (hooks : Hooks)

/-- The dump of the record under a mask. -/
def toBSON (st : State) (mask : Mask) : Option (Rc × Obj × State) :=
  match st.get with
  | none => none
  | some st =>
    match st.hook hooks.preSaving with
    | (.ok, st) => some (.ok, st.dump rec.fields mask, st.release)
    | (rc, st) => some (rc, [], st.release)

/-- `init` with the mutex held. -/
def initLocked (st : State) (pVMFile pVMCMD : Obj) : Rc × State :=
  let ex : Exchange := ⟨.cmd pVMCMD pVMFile, .init, false, true, false⟩
  let w := ex.doDataExchange rec.fields st.begin
  if w.result ≠ .ok then (w.result, w.toState)
  else
    match w.toState.hook (hooks.postLoaded .init) with
    | (.ok, st) => (hooks.onConfigInit, (ex.getKVMap st.bumpID.begin).toState)
    | (rc, st) => (rc, st)

def init (st : State) (pVMFile pVMCMD : Obj) : Option (Rc × State) :=
  match st.get with
  | none => none
  | some st =>
    let (rc, st) := rec.initLocked hooks st pVMFile pVMCMD
    some (rc, st.release)

/-- The part of `restore` for the arguments of the program. -/
def loadArgs (st : State) : Option Obj → Rc × State
  | none => (.ok, st)
  | some pVMCMD =>
    let ex : Exchange := ⟨.cmd pVMCMD [], .reinit, false, true, false⟩
    let w := ex.doDataExchange rec.fields st.begin
    if w.result ≠ .ok then (w.result, w.toState) else (.ok, (ex.getKVMap w).toState)

/-- `restore` with the mutex held. -/
def restoreLocked (st : State) (objData : Obj) (pVMCMD : Option Obj) : Rc × State :=
  let ex : Exchange := ⟨.bson objData, .init, false, true, false⟩
  let w := ex.doDataExchange rec.fields ({ st with map := ∅ } : State).begin
  if w.result ≠ .ok then (w.result, w.toState)
  else
    match rec.loadArgs (ex.getKVMap w).toState pVMCMD with
    | (.ok, st) =>
      match st.hook (hooks.postLoaded .reinit) with
      | (.ok, st) => (hooks.onConfigInit, st)
      | (rc, st) => (rc, st)
    | (rc, st) => (rc, st)

def restore (st : State) (objData : Obj) (pVMCMD : Option Obj) : Option (Rc × State) :=
  match st.get with
  | none => none
  | some st =>
    let (rc, st) := rec.restoreLocked hooks st objData pVMCMD
    some (rc, st.release)

end Record

/-- What `change` does with one entry of the map of the exchange. -/
def mergeChange (m : KVMap) (e : (_ : Text) × ParamValue) : KVMap :=
  if e.2.hasMapped then m.insert e.1 e.2
  else if (m.lookup e.1).any ParamValue.hasMapped then m
  else m.insert e.1 e.2

/-- What `_saveUpdateChange` does with one entry of the map of the exchange. -/
def mergeUpdate (m : KVMap) (e : (_ : Text) × ParamValue) : KVMap := m.insert e.1 e.2

/-- What `_purgeFieldMap` does with one entry. -/
def purgeOne (mapKeyField m : KVMap) (e : (_ : Text) × ParamValue) : KVMap :=
  if !e.2.hasMapped && (mapKeyField.lookup e.1).isNone then m.erase e.1 else m

/-- `_purgeFieldMap`, which `change` has a copy of. -/
def purgeFieldMap (m mapKeyField : KVMap) : KVMap :=
  m.entries.foldl (purgeOne mapKeyField) m

/-- The error object of an update: the names of the fields that change after a restart, and of
those that do not change. -/
structure ErrorObj where
  reboot : List Text
  forbidden : List Text
  deriving DecidableEq, Repr

def ErrorObj.report (err : ErrorObj) (map : KVMap) (e : (_ : Text) × ParamValue) : ErrorObj :=
  if (map.lookup e.1).any (fun p => p.value ≠ e.2.value) then
    match e.2.level with
    | .reboot => { err with reboot := err.reboot ++ [e.1] }
    | .forbidden => { err with forbidden := err.forbidden ++ [e.1] }
    | _ => err
  else err

def samePending (cold : KVMap) (e : (_ : Text) × ParamValue) : Bool :=
  (cold.lookup e.1).any fun p => p.value = e.2.value

/-- The loop of `_saveUpdateChange` over the pending values; where the texts are the same the round
does not go on. -/
def coldLoop (enableColdCompre : Bool) :
    ℕ → List ((_ : Text) × ParamValue) → State → ErrorObj → Option (State × ErrorObj)
  | _, [], st, err => some (st, err)
  | 0, _ :: _, _, _ => none
  | fuel + 1, e :: es, st, err =>
    if enableColdCompre && samePending st.cold e then
      coldLoop enableColdCompre fuel (e :: es) st err
    else
      let st := if e.2.level = .reboot then { st with cold := st.cold.insert e.1 e.2 } else st
      coldLoop enableColdCompre fuel es st (err.report st.map e)

namespace Record
variable (rec : Record) (hooks : Hooks)

/-- The mask of the dump that `change` restores from. -/
def changeMask : Mask := ⟨true, false, false, false⟩

def updateMask : Mask := ⟨false, false, false, false⟩

/-- The mask of the dump that `deleteConf` compares with. -/
def deleteMask : Mask := ⟨true, false, false, true⟩

/-- `change` with the mutex held, up to `restore`. -/
def changeLocked (st : State) (objData : Obj) (isWhole : Bool) : Rc × State :=
  let ex : Exchange := ⟨.bson objData, .chg, isWhole, false, false⟩
  let w := ex.doDataExchange rec.fields st.begin
  if w.result ≠ .ok then (w.result, w.toState)
  else
    match w.toState.hook (hooks.postLoaded .chg) with
    | (.ok, st) =>
      let mapKeyField := (ex.getKVMap { w with toState := st.bumpID }).field
      let map := mapKeyField.entries.foldl mergeChange st.map
      (.ok, { st.bumpID with map := if isWhole then purgeFieldMap map mapKeyField else map })
    | (rc, st) => (rc, st)

/-- A change that fails is taken back. -/
def change (st : State) (objData : Obj) (isWhole : Bool) : Option (Rc × State) :=
  match rec.toBSON hooks st changeMask with
  | none => none
  | some (.ok, oldCfg, st) =>
    match st.get with
    | none => none
    | some st =>
      match rec.changeLocked hooks st objData isWhole with
      | (.ok, st) => some (.ok, st.release)
      | (rc, st) => (rec.restore hooks st.release oldCfg none).map fun r => (rc, r.2)
  | some (rc, _, st) => some (rc, st)

/-- `_update` with the mutex held, up to `restore`; the loop of `_saveUpdateChange` gets `fuel`
rounds. -/
def updateLocked (fuel : ℕ) (st : State) (userConfig : Obj) (isWhole enableColdCompre : Bool) :
    Option (Rc × ErrorObj × State) :=
  let ex : Exchange := ⟨.bson userConfig, .chg, isWhole, false, true⟩
  let w := ex.doDataExchange rec.fields st.begin
  if w.result ≠ .ok then some (w.result, ⟨[], []⟩, w.toState)
  else
    match w.toState.hook (hooks.postLoaded .chg) with
    | (.ok, st) =>
      let w := ex.getKVMap { w with toState := st }
      let st := { st with map := w.field.entries.foldl mergeUpdate st.map }
      match coldLoop enableColdCompre fuel w.coldField.entries st ⟨[], []⟩ with
      | none => none
      | some (st, err) =>
        let map := if isWhole then purgeFieldMap st.map w.field else st.map
        some (.ok, err, { st.bumpID with map := map })
    | (rc, st) => some (rc, ⟨[], []⟩, st)

/-- `_update`. -/
def updateWith (fuel : ℕ) (st : State) (userConfig : Obj) (isWhole enableColdCompre : Bool) :
    Option (Rc × ErrorObj × State) :=
  match rec.toBSON hooks st updateMask with
  | none => none
  | some (.ok, oldCfg, st) =>
    match st.get with
    | none => none
    | some st =>
      match rec.updateLocked hooks fuel st userConfig isWhole enableColdCompre with
      | none => none
      | some (.ok, err, st) => some (.ok, err, st.release)
      | some (rc, err, st) =>
        (rec.restore hooks st.release oldCfg none).map fun r => (rc, err, r.2)
  | some (rc, _, st) => some (rc, ⟨[], []⟩, st)

def update (fuel : ℕ) (st : State) (userConfig : Obj) (isWhole : Bool) :
    Option (Rc × ErrorObj × State) :=
  rec.updateWith hooks fuel st userConfig isWhole false

/-- The elements that `deleteConf` keeps: those that the dump does not have. -/
def keptElements (curConf objData : Obj) : Obj :=
  objData.filter fun e => !curConf.any fun c => c.1 = e.1

/-- A whole update with the elements that the dump lacks. -/
def deleteConf (fuel : ℕ) (st : State) (objData : Obj) : Option (Rc × ErrorObj × State) :=
  match rec.toBSON hooks st deleteMask with
  | none => none
  | some (.ok, curConf, st) =>
    rec.updateWith hooks fuel st (keptElements curConf objData) true true
  | some (rc, _, st) => some (rc, ⟨[], []⟩, st)

end Record

end Novachains.Util.Cfg
