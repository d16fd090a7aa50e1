import Novachains.Dms.Alloc

/-!
# Inserting a record

`insertRecord` prepares the bytes to store, allocates space for them and puts them into it.
Documents come from the BSON library, of which only the field `_id` is looked at; the size
to allocate goes through a floating point multiplication.  Both are parameters.
-/

namespace Novachains.Dms

open Lib Oss List Function

/-- `BSONObj`: the first four bytes say how many there are; any positive number is valid, even 1 to
3. -/
structure BSONObj where
  bytes : List UInt8
  pos : 0 < bytes.length
  lt_int : bytes.length < 2 ^ 31
  objsize_eq : decode (bytes.take 4) = bytes.length

def bsonObjMaxInternalSize : ℕ := 16 * 1024 * 1024 + 16 * 1024

/-- The fields of an object; a field that is an object or an array has fields itself. -/
inductive Fields
  | nil
  | field (name : CStr) (rest : Fields)
  | nested (name : CStr) (value rest : Fields)

/-- The element `_id`, as far as an insert looks at it; `eoo` stands for none. -/
inductive IdElement
  | eoo
  | array
  | regEx
  | object (fields : Fields)
  | other

/-- `BSONElement::eoo`. -/
def IdElement.isEoo : IdElement → Bool
  | .eoo => true
  | _ => false

def checkKeyName (name : CStr) : Except String Unit :=
  if name.head? = some 36 then .error "field name can't start with '$'"
  else if 46 ∈ name then .error "field name can't include '.'"
  else .ok ()

/-- Every key is checked, and those of embedded objects. -/
def dmsIsKeyNameValid : Fields → Except String Unit
  | .nil => .ok ()
  | .field name rest => do
      checkKeyName name
      dmsIsKeyNameValid rest
  | .nested name value rest => do
      checkKeyName name
      dmsIsKeyNameValid value
      dmsIsKeyNameValid rest

/-- The types that an `_id` may not have. -/
def dmsIsRecordIDValid (oidEle : IdElement) (allowEOO : Bool) : Except String Unit :=
  match oidEle with
  | .eoo => if allowEOO then .ok () else .error "is not exist"
  | .array => .error "can't be Array"
  | .regEx => .error "can't be RegEx"
  | .object fields => dmsIsKeyNameValid fields
  | .other => .ok ()

/-- `getField( "_id" )`, which may throw; a document without room for an element has no field. -/
structure BsonLib where
  getId : BSONObj → Except Rc IdElement
  getId_error : ∀ b rc, getId b = .error rc → rc ≠ .ok
  getId_short : ∀ b, b.bytes.length ≤ 5 → getId b = .ok .eoo

/-! ## The bytes to store -/

/-- The element `_id` that is added to a document without one: type, name and value. -/
def idToInsert (oid : Fin 12 → UInt8) : List UInt8 := [7, 95, 105, 100, 0] ++ List.ofFn oid

/-- `_prepareInsertData` with the generated ID.  It copies the length less four: for a shorter
document that wraps around, and the process does not survive. -/
def prepareInsertData (lib : BsonLib) (record : BSONObj) (mustOID : Bool) (oid : Fin 12 → UInt8)
    (alloc : Bool) : Option (Except Rc (List UInt8)) :=
  match lib.getId record with
  | .error rc => some (.error rc)
  | .ok ele =>
    match dmsIsRecordIDValid ele true with
    | .error _ => some (.error .invalidArg)
    | .ok _ =>
      if mustOID && ele.isEoo then
        if !alloc then some (.error .oom)
        else if record.bytes.length < 4 then none
        else
          let size := (idToInsert oid).length + record.bytes.length
          some (.ok (encode 4 size ++ idToInsert oid ++ record.bytes.drop 4))
      else some (.ok record.bytes)

/-- The multiplication by `DMS_RECORD_OVERFLOW_RATIO`. -/
structure OverflowRatio where
  mul : ℕ → ℕ
  le_mul : ∀ n, n ≤ mul n

/-- The size of a record with its header, a multiple of four. -/
def finalRecordSize (ratio : OverflowRatio) (size : ℕ) : ℕ :=
  let size := ratio.mul size + recordMetadataSz
  min recordMaxSz ((size + 3) / 4 * 4)

def recordUserMaxSz : ℕ := recordMaxSz - 4096

/-- The library, the multiplication, the generated ID and the outcomes of allocation and extensions.
-/
structure InsertEnv where
  lib : BsonLib
  ratio : OverflowRatio
  oid : Fin 12 → UInt8
  alloc : Bool
  os : ℕ → GrowOs

def InsertEnv.stored (env : InsertEnv) (record : BSONObj) (mustOID : Bool) :
    Option (Except Rc (List UInt8)) :=
  prepareInsertData env.lib record mustOID env.oid env.alloc

/-- The document is accepted, its size included, and no position is asked for. -/
def InsertEnv.Accepts (env : InsertEnv) (record : BSONObj) (mustOID : Bool) (position : ℤ) : Prop :=
  ∃ data, env.stored record mustOID = some (.ok data) ∧
    data.length + recordMetadataSz ≤ recordUserMaxSz ∧
    position < 0

namespace BlockData

/-- `insertRecord` from the allocated space on. -/
def insertAt (bd : BlockData) (ctx : MBContext) (rid : RecordID) (recordData : List UInt8)
    (recordSize : ℕ) : Rc × MBContext × BlockData :=
  match (bd.col ctx.mbID).extentAddr (some rid.extent) with
  | none => (.sys, ctx, bd)
  | some pExtent =>
    if !Extent.validate bd.data pExtent ctx.mbID then (.sys, ctx, bd)
    else
      match ctx.mbLock (bd.mme ctx.mbID) .exclusive with
      | (.ok, ctx) =>
        let (rc, c) := (bd.col ctx.mbID).extentInsertRecord rid recordData recordSize true
        (rc, ctx, (bd.setCol ctx.mbID c).markHeaderInvalid ctx.mbID)
      | (rc, ctx) => (rc, ctx, bd)

/-- The space is taken before the length of the data is checked. -/
def insertRecord (env : InsertEnv) (bd : BlockData) (ctx : MBContext) (record : BSONObj)
    (mustOID : Bool) (position : ℤ) : Option (Rc × MBContext × BlockData) :=
  match env.stored record mustOID with
  | none => none
  | some (.error rc) => some (rc, ctx, bd)
  | some (.ok recordData) =>
    if recordData.length > bsonObjMaxInternalSize then some (.sys, ctx, bd)
    else if recordData.length + recordMetadataSz > recordUserMaxSz then
      some (.dmsRecordTooBig, ctx, bd)
    else if position ≥ 0 then some (.operationIncompatible, ctx, bd)
    else
      let recordSize := finalRecordSize env.ratio recordData.length
      match bd.allocRecordSpace env.os ctx recordSize with
      | none => none
      | some (.error rc, ctx, bd) => some (rc, ctx, bd)
      | some (.ok rid, ctx, bd) => some (bd.insertAt ctx rid recordData recordSize)

end BlockData

@[simp] theorem length_idToInsert (oid : Fin 12 → UInt8) : (idToInsert oid).length = 17 := by
  simp [idToInsert]

variable {env : InsertEnv} {record : BSONObj} {mustOID : Bool} {data : List UInt8}

theorem InsertEnv.stored_eq (h : env.stored record mustOID = some (.ok data)) :
    (data = record.bytes ∨ mustOID = true ∧ env.lib.getId record = .ok .eoo ∧
      4 ≤ record.bytes.length ∧
        data = encode 4 (17 + record.bytes.length) ++ idToInsert env.oid ++ record.bytes.drop 4) ∧
    (mustOID = true → env.lib.getId record = .ok .eoo → data ≠ record.bytes) := by
  unfold stored prepareInsertData at h
  split at h
  · cases h
  next ele hele =>
    split at h
    · cases h
    next =>
      split at h
      next hoid =>
        obtain ⟨hm, heoo⟩ := Bool.and_eq_true_iff.mp hoid
        have hid : ele = .eoo := by cases ele <;> first | rfl | simp [IdElement.isEoo] at heoo
        split_ifs at h with halloc hshort
        · cases h
        rw [length_idToInsert] at h
        cases h
        refine ⟨.inr ⟨hm, by rw [hele, hid], not_lt.mp hshort, rfl⟩, fun _ _ heq => ?_⟩
        have := congrArg List.length heq
        simp only [List.length_append, length_encode, length_idToInsert, length_drop] at this
        omega
      next hoid =>
        cases h
        refine ⟨.inl rfl, fun hm heoo => ?_⟩
        rw [hele] at heoo
        cases heoo
        exact absurd (by rw [hm]; rfl) hoid

theorem InsertEnv.stored_length (h : env.stored record mustOID = some (.ok data)) :
    decode (data.take 4) = data.length := by
  have hlt := record.lt_int
  rcases (stored_eq h).1 with rfl | ⟨-, -, hsize, rfl⟩
  · exact record.objsize_eq
  have hlen : (encode 4 (17 + record.bytes.length)).length = 4 := length_encode 4 _
  rw [append_assoc, take_append_of_le_length hlen.ge, take_of_length_le hlen.le,
    decode_encode, Nat.mod_eq_of_lt (by omega)]
  simp only [List.length_append, hlen, length_idToInsert, length_drop]
  omega

theorem InsertEnv.stored_error {rc : Rc} (h : env.stored record mustOID = some (.error rc)) :
    rc ≠ .ok := by
  unfold stored prepareInsertData at h
  split at h
  next rc' hid =>
    cases h
    exact env.lib.getId_error _ _ hid
  next =>
    split at h
    · cases h
      decide
    · split_ifs at h <;> cases h
      decide

theorem InsertEnv.stored_short_iff (h : env.stored record mustOID = some (.ok data)) :
    data.length < minRecordDataSz ↔ record.bytes.length < minRecordDataSz ∧ mustOID = false := by
  have hmin : minRecordDataSz = 5 := rfl
  obtain ⟨heq, hne⟩ := stored_eq h
  rcases heq with rfl | ⟨rfl, -, -, rfl⟩
  · refine ⟨fun hlt => ⟨hlt, ?_⟩, fun hlt => hlt.1⟩
    by_contra hm
    exact hne (Bool.eq_true_of_not_eq_false hm) (env.lib.getId_short record (by omega)) rfl
  · simp only [List.length_append, length_encode, length_idToInsert, Bool.true_eq_false, and_false,
      iff_false]
    omega

theorem le_finalRecordSize (ratio : OverflowRatio) {size : ℕ}
    (h : size + recordMetadataSz ≤ recordUserMaxSz) :
    recordMetadataSz + size ≤ finalRecordSize ratio size ∧
      finalRecordSize ratio size ≤ recordMaxSz := by
  have hmul := ratio.le_mul size
  have hu : recordUserMaxSz ≤ recordMaxSz := Nat.sub_le _ _
  unfold finalRecordSize
  dsimp only
  omega

/-! ## What an insert does -/

/-- `o'` is `o` with the record `r` at the end of the extent `x`. -/
structure Owned.Gets (o o' : Owned) (x : ℕ) (r : Rec) : Prop where
  mem : x ∈ o.added
  mbEx_eq : o'.mbEx = o.mbEx
  added_eq : o'.added = o.added
  pages_eq : o'.contents.pages = o.contents.pages
  recs_eq : o'.contents.recs = update o.contents.recs x (o.contents.recs x ++ [r])
  taken_eq : o'.contents.taken = o.contents.taken

/-- `o'` is `o` with the block `f` of the extent `x` on no list. -/
structure Owned.Loses (o o' : Owned) (x : ℕ) (f : Run) : Prop where
  mem : x ∈ o.added
  mbEx_eq : o'.mbEx = o.mbEx
  added_eq : o'.added = o.added
  pages_eq : o'.contents.pages = o.contents.pages
  recs_eq : o'.contents.recs = o.contents.recs
  taken_eq : o'.contents.taken = update o.contents.taken x (f :: o.contents.taken x)

theorem Owned.has_congr {o o' : Owned} (hm : o'.mbEx = o.mbEx) (ha : o'.added = o.added)
    (hp : o'.contents.pages = o.contents.pages) (p : ℕ) : o'.Has p ↔ o.Has p := by
  rw [Owned.Has, hm, ha, hp, Owned.Has]

namespace BlockData
variable {bd bd' : BlockData} {n : ℕ} {owned : ℕ → Owned} {ctx : MBContext}

theorem StoreOk.insertAt (ctx : MBContext) {required : ℕ} {o : Owned} {rid : RecordID} {f : Run}
    (h : bd.Taken bd' n owned ctx.mbID required o rid f) (hctx : ctx.Valid bd.mme)
    (hfits : recordMetadataSz + data.length ≤ required)
    (hlen : decode (data.take 4) &&& 0x00FFFFFF = data.length) :
    (∃ o' r bd'', bd'.insertAt ctx rid data required =
        (.ok, { ctx with mbLockType := some .exclusive }, bd'') ∧
      minRecordDataSz ≤ data.length ∧ r.data = data ∧ o.Gets o' rid.extent r ∧
      bd.Changed bd'' n owned ctx.mbID o') ∨
    (∃ o' bd'', bd'.insertAt ctx rid data required =
        (.invalidArg, { ctx with mbLockType := some .exclusive }, bd'') ∧
      data.length < minRecordDataSz ∧ o.Loses o' rid.extent f ∧
      bd.Changed bd'' n owned ctx.mbID o') := by
  obtain ⟨j, l, hstore⟩ := h.store
  have hctx' := h.catalog.valid hctx
  have hi : bd'.InUse ctx.mbID := ⟨hctx'.mbID_lt, hctx'.inUse⟩
  have hslot := hstore.slot _ hi
  rw [update_self] at hslot
  have hcol := hslot.col
  have hmem := h.mem
  have hx := hcol.chain.mapped _ hmem
  have hvalid := (hcol.body _ hmem).valid
  have hid : (bd'.col ctx.mbID).mb.blockID = ctx.mbID := hslot.blockID_eq
  rw [hid] at hvalid
  have hrid : (⟨rid.extent, f.start⟩ : RecordID) = rid := by rw [h.offset_eq]
  have hfree : FreeOk (bd'.col ctx.mbID).data ((bd'.col ctx.mbID).addr rid.extent + f.start) f := by
    rw [h.offset_eq]
    exact h.free
  have hat : bd'.insertAt ctx rid data required =
      (((bd'.col ctx.mbID).extentInsertRecord ⟨rid.extent, f.start⟩ data required true).1,
        { ctx with mbLockType := some .exclusive },
        (bd'.setCol ctx.mbID ((bd'.col ctx.mbID).extentInsertRecord ⟨rid.extent, f.start⟩ data
          required true).2).markHeaderInvalid ctx.mbID) := by
    rw [BlockData.insertAt, (bd'.col ctx.mbID).extentAddr_of_lt hx]
    dsimp only
    rw [hctx'.mbLock, hrid, if_neg]
    rw [show Extent.validate bd'.data ((bd'.col ctx.mbID).addr rid.extent) ctx.mbID = true from hvalid]
    decide
  rw [hat]
  rcases lt_or_ge data.length minRecordDataSz with hshort | hmin
  · right
    rw [Col.extentInsertRecord_short _ hx hfree h.le_size hshort]
    obtain ⟨hst, hsy, hcat, -⟩ := hstore.commit h.synced hi (c := bd'.col ctx.mbID) .rfl
      hcol hslot.counts fun p hp => .inl (by rwa [update_self])
    rw [update_idem] at hst
    exact ⟨⟨o.mbEx, o.added, o.contents.take rid.extent f j l⟩, _, rfl, hshort,
      ⟨hmem, rfl, rfl, rfl, update_eq_self .., rfl⟩, hst, hsy, h.catalog.trans hcat,
      fun p hp => h.fills p (by simpa [setCol] using hp)⟩
  · left
    obtain ⟨c', size, free, dels, heq, hok, htouch, hcounts⟩ := hcol.extentInsertRecord hmem
      (Contents.taken_set ..) hfree h.le_size hfits hmin hlen
    rw [heq]
    dsimp only [Contents.take] at hok htouch
    rw [Contents.set_set, Contents.recs_set] at hok
    have hcounts' := hcounts hslot.counts
    simp only [Contents.take, Contents.set, update_self, update_idem] at hcounts'
    obtain ⟨hst, hsy, hcat, -⟩ := hstore.commit h.synced hi (o := ⟨o.mbEx, o.added,
      o.contents.set rid.extent (o.contents.recs rid.extent ++ [(⟨f.start, size, data⟩ : Rec)]) free
        (o.contents.taken rid.extent) dels⟩) htouch hok hcounts' fun p hp => .inl (by
          rwa [update_self])
    rw [update_idem] at hst
    refine ⟨_, ⟨f.start, size, data⟩, _, rfl, hmin, rfl, ?_, hst, hsy, h.catalog.trans hcat,
      fun p hp => h.fills p (by simpa [setCol] using hp)⟩
    exact ⟨hmem, rfl, rfl, rfl, rfl, update_eq_self ..⟩

/-- **What `insertRecord` does**: the record is added, or it fails and leaves the collections, or
short data is refused after space was taken, or the process panics or does not survive. -/
theorem StoreOk.insertRecord (h : bd.StoreOk n owned) (hs : bd.Synced) (hctx : ctx.Valid bd.mme)
    (env : InsertEnv) (record : BSONObj) (mustOID : Bool) (position : ℤ) :
    (∃ ctx' n' o o' l x r bd', bd.insertRecord env ctx record mustOID position =
        some (.ok, ctx', bd') ∧
      env.stored record mustOID = some (.ok r.data) ∧ bd.Changed bd' n' owned ctx.mbID o' ∧
      (owned ctx.mbID).Grows o l ∧ o.Gets o' x r ∧ n' ≤ n + 1) ∨
    (∃ rc ctx' n' bd', bd.insertRecord env ctx record mustOID position = some (rc, ctx', bd') ∧
      rc ≠ .ok ∧ bd.Kept bd' n' owned ∧
      (¬ env.Accepts record mustOID position ∨ bd.Stuck env.os)) ∨
    (∃ ctx' n' o o' l x f bd', bd.insertRecord env ctx record mustOID position =
        some (.invalidArg, ctx', bd') ∧
      (record.bytes.length < minRecordDataSz ∧ mustOID = false ∧ position < 0) ∧
      bd.Changed bd' n' owned ctx.mbID o' ∧ (owned ctx.mbID).Grows o l ∧ o.Loses o' x f) ∨
    (bd.insertRecord env ctx record mustOID position = none ∧
      (¬ env.Accepts record mustOID position ∨ bd.Stuck env.os)) := by
  have hkept : bd.Kept bd n owned := ⟨h, .rfl, fun _ => .rfl⟩
  unfold BlockData.insertRecord
  rcases hd : env.stored record mustOID with - | rc | data
  · refine .inr (.inr (.inr ⟨rfl, .inl ?_⟩))
    rintro ⟨data, hdata, -⟩
    rw [hd] at hdata
    cases hdata
  · refine .inr (.inl ⟨rc, ctx, n, bd, rfl, env.stored_error hd, hkept, .inl ?_⟩)
    rintro ⟨data, hdata, -⟩
    rw [hd] at hdata
    cases hdata
  · have hacc : env.Accepts record mustOID position →
        data.length + recordMetadataSz ≤ recordUserMaxSz ∧ position < 0 := by
      rintro ⟨data', hdata, hle, hneg⟩
      rw [hd] at hdata
      cases hdata
      exact ⟨hle, hneg⟩
    have hmax : recordUserMaxSz ≤ bsonObjMaxInternalSize := by decide
    dsimp only
    by_cases hbig : data.length > bsonObjMaxInternalSize
    · rw [if_pos hbig]
      exact .inr (.inl ⟨_, ctx, n, bd, rfl, by decide, hkept, .inl fun ha => by
        have := (hacc ha).1
        omega⟩)
    rw [if_neg hbig]
    by_cases huser : data.length + recordMetadataSz > recordUserMaxSz
    · rw [if_pos huser]
      exact .inr (.inl ⟨_, ctx, n, bd, rfl, by decide, hkept, .inl fun ha =>
        absurd (hacc ha).1 (Nat.not_le.mpr huser)⟩)
    rw [if_neg huser]
    by_cases hpos : position ≥ 0
    · rw [if_pos hpos]
      exact .inr (.inl ⟨_, ctx, n, bd, rfl, by decide, hkept, .inl fun ha =>
        absurd (hacc ha).2 (Int.not_lt.mpr hpos)⟩)
    rw [if_neg hpos]
    obtain ⟨hfits, hmax⟩ := le_finalRecordSize env.ratio (Nat.le_of_not_lt huser)
    have h16 : recordMetadataSz = 16 := rfl
    have hlen : decode (data.take 4) &&& 0x00FFFFFF = data.length := by
      have hmask : (0x00FFFFFF : ℕ) = 2 ^ 24 - 1 := rfl
      have hm : recordUserMaxSz < 2 ^ 24 := by decide
      rw [env.stored_length hd, hmask, Nat.and_two_pow_sub_one_eq_mod, Nat.mod_eq_of_lt (by omega)]
    rcases h.allocRecordSpace hs hctx (by omega) hmax env.os with
      ⟨rid, f, n', o, l, bd₁, heq, hgrows, htaken, hn'⟩ | ⟨rc, ctx', n', bd', heq, hne, hk, hst⟩ |
      ⟨heq, hst⟩
    · rw [heq]
      dsimp only
      rcases StoreOk.insertAt { ctx with mbLockType := some .exclusive } htaken
          (hctx.setLock _) hfits hlen with
        ⟨o', r, bd', heq', -, rfl, hgets, hch⟩ | ⟨o', bd', heq', hshort, hloses, hch⟩
      · exact .inl ⟨_, n', o, o', l, _, r, bd', by rw [heq'], rfl, hch, hgrows, hgets, hn'⟩
      · obtain ⟨hfour, hoid⟩ := (env.stored_short_iff hd).mp hshort
        exact .inr (.inr (.inl ⟨_, n', o, o', l, _, f, bd', by rw [heq'],
          ⟨hfour, hoid, Int.not_le.mp hpos⟩, hch, hgrows, hloses⟩))
    · rw [heq]
      exact .inr (.inl ⟨rc, ctx', n', bd', rfl, hne, hk, .inr hst⟩)
    · rw [heq]
      exact .inr (.inr (.inr ⟨rfl, .inr hst⟩))

end BlockData

end Novachains.Dms
