import Novachains.Util.SegmentPool
import Novachains.Lib.FreeStack
import Mathlib.Data.Nat.Bitwise

/-!
# The invariant of a segment pool

The list and the cursor are a free stack whose used numbers are the acquired indices, and the
flag of every object says whether it is one of them.  There is one specification for each
function of the pool.
-/

namespace Novachains.Util

open Lib List Option

/-- The index that is given out for the object `i` of a pool. -/
def packIndex (pool i : ℕ) : ℕ := (i &&& segmentObjIndexMask) ||| packedPoolID pool

theorem and_indexMask (idx : ℕ) : idx &&& segmentObjIndexMask = idx % 2 ^ 28 :=
  Nat.and_two_pow_sub_one_eq_mod idx 28

theorem and_poolMask (idx : ℕ) : idx &&& segmentObjPoolMask = idx / 2 ^ 28 % 16 * 2 ^ 28 := by
  have hmask : segmentObjPoolMask = (2 ^ 4 - 1) <<< 28 := by decide
  have hright : idx / 2 ^ 28 % 16 * 2 ^ 28 = (idx >>> 28 &&& (2 ^ 4 - 1)) <<< 28 := by
    rw [Nat.and_two_pow_sub_one_eq_mod, Nat.shiftRight_eq_div_pow, Nat.shiftLeft_eq]
  rw [hmask, hright]
  refine Nat.eq_of_testBit_eq fun j => ?_
  rw [Nat.testBit_and, Nat.testBit_shiftLeft, Nat.testBit_shiftLeft, Nat.testBit_and,
    Nat.testBit_shiftRight]
  by_cases hj : 28 ≤ j
  · rw [Nat.add_sub_cancel' hj]
    simp [hj]
  · simp [hj]

section Pack
variable {pool i j : ℕ}

section
variable (hp : pool < 16)
include hp

theorem packedPoolID_eq : packedPoolID pool = pool * 2 ^ 28 := by
  rw [packedPoolID, and_poolMask, segmentObjPoolidShift, Nat.shiftLeft_eq, u32_of_lt (by omega)]
  omega

theorem packIndex_eq (hi : i < 2 ^ 28) : packIndex pool i = pool * 2 ^ 28 + i := by
  rw [packIndex, and_indexMask, Nat.mod_eq_of_lt hi, packedPoolID_eq hp, Nat.lor_comm,
    ← Nat.shiftLeft_eq, ← Nat.shiftLeft_add_eq_or_of_lt hi]

theorem packIndex_and_indexMask (hi : i < 2 ^ 28) :
    packIndex pool i &&& segmentObjIndexMask = i := by
  rw [and_indexMask, packIndex_eq hp hi]
  omega

theorem packIndex_and_poolMask (hi : i < 2 ^ 28) :
    packIndex pool i &&& segmentObjPoolMask = packedPoolID pool := by
  rw [and_poolMask, packIndex_eq hp hi, packedPoolID_eq hp]
  omega

theorem packIndex_inj (hi : i < 2 ^ 28) (hj : j < 2 ^ 28) :
    packIndex pool i = packIndex pool j ↔ i = j := by
  rw [packIndex_eq hp hi, packIndex_eq hp hj]
  omega

theorem packIndex_eq_invalid_iff (hi : i < 2 ^ 28) :
    packIndex pool i = invalidObjIndex ↔ pool = 15 ∧ i = 2 ^ 28 - 1 := by
  rw [packIndex_eq hp hi, invalidObjIndex]
  omega

theorem eq_packIndex {idx : ℕ} (hidx : idx < 2 ^ 32)
    (h : idx &&& segmentObjPoolMask = packedPoolID pool) :
    idx = packIndex pool (idx &&& segmentObjIndexMask) := by
  rw [and_poolMask, packedPoolID_eq hp] at h
  rw [and_indexMask, packIndex_eq hp (Nat.mod_lt _ (by decide))]
  omega

end

end Pack

namespace SegmentPool

/-! ## The invariant -/

def entries (p : SegmentPool) : List ℕ := p.list.getD []

/-- What is in front of the object `i` when the objects `used` are acquired. -/
def objX (p : SegmentPool) (used : List ℕ) (i : ℕ) : ObjX where
  eyeCatcher := segmentObjEyeCatcher
  flag := if i ∈ used then .acquired else .released
  index := packIndex p.poolId i

def addrs (p : SegmentPool) : List ℕ := p.segList.map Segment.addr

def Apart (p : SegmentPool) (a b : ℕ) : Prop :=
  a + p.delta * p.objXSize ≤ b ∨ b + p.delta * p.objXSize ≤ a

/-- The pool is initialized and the objects `used` are acquired. -/
structure Ok (p : SegmentPool) (used : List ℕ) : Prop where
  initialized : p.isInitialized = true
  size_pos : 0 < p.objXSize
  delta_eq : p.delta = 2 ^ p.exponent
  exponent_le : p.exponent ≤ 28
  poolId_lt : p.poolId < 16
  max_le : p.maxNumOfObjs ≤ 2 ^ 28
  num_eq : p.numOfObjs = p.segList.length * p.delta
  num_le : p.numOfObjs ≤ 2 ^ 28
  list_eq_none_iff : p.list = none ↔ p.numOfObjs = 0
  length_entries : p.entries.length = p.numOfObjs
  stack : FreeStack p.entries p.begin used
  objs_length : ∀ s ∈ p.segList, s.objs.length = p.delta
  objs_eq : ∀ i < p.numOfObjs, p.getObjXByIndex i = some (p.objX used i)
  apart : p.addrs.Pairwise p.Apart
  last_eq : 2 ≤ p.delta → p.numOfObjs = 2 ^ 28 → p.entries.getLast? = some (2 ^ 28 - 1)

section Access
variable {p : SegmentPool} {used : List ℕ} {i j : ℕ}

theorem Ok.delta_pos (h : p.Ok used) : 0 < p.delta := h.delta_eq ▸ Nat.two_pow_pos _

theorem Ok.delta_le (h : p.Ok used) : p.delta ≤ 2 ^ 28 := by
  rw [h.delta_eq]
  exact Nat.pow_le_pow_right (by decide) h.exponent_le

theorem Ok.begin_le (h : p.Ok used) : p.begin ≤ p.numOfObjs := h.length_entries ▸ h.stack.le_length

theorem Ok.lt_num (h : p.Ok used) (hi : i ∈ used) : i < p.numOfObjs :=
  h.length_entries ▸ h.stack.lt_of_mem_used hi

theorem segmentOf_eq (hd : p.delta = 2 ^ p.exponent) (hi : i < 2 ^ 28) :
    p.segmentOf i = i / p.delta := by
  rw [segmentOf, and_indexMask, Nat.mod_eq_of_lt hi, Nat.shiftRight_eq_div_pow, hd]

theorem placeOf_eq (hd : p.delta = 2 ^ p.exponent) (hi : i < 2 ^ 28) :
    p.placeOf i = i % p.delta := by
  rw [placeOf, and_indexMask, Nat.mod_eq_of_lt hi, hd, Nat.and_two_pow_sub_one_eq_mod]

theorem Ok.segmentOf_lt (h : p.Ok used) (hi : i < p.numOfObjs) : p.segmentOf i < p.segList.length := by
  rw [segmentOf_eq h.delta_eq (hi.trans_le h.num_le), Nat.div_lt_iff_lt_mul h.delta_pos]
  exact h.num_eq ▸ hi

theorem Ok.segment (h : p.Ok used) (hi : i < p.numOfObjs) :
    ∃ s, p.segList[p.segmentOf i]? = some s ∧ s.objs[p.placeOf i]? = some (p.objX used i) := by
  have hobj := h.objs_eq i hi
  rwa [getObjXByIndex, bind_eq_some_iff] at hobj

theorem segmentOf_and (p : SegmentPool) (idx : ℕ) :
    p.segmentOf (idx &&& segmentObjIndexMask) = p.segmentOf idx := by
  rw [segmentOf, segmentOf, Nat.and_assoc, Nat.and_self]

theorem placeOf_and (p : SegmentPool) (idx : ℕ) :
    p.placeOf (idx &&& segmentObjIndexMask) = p.placeOf idx := by
  rw [placeOf, placeOf, Nat.and_assoc idx, Nat.and_self]

theorem getObjXByIndex_and (p : SegmentPool) (idx : ℕ) :
    p.getObjXByIndex (idx &&& segmentObjIndexMask) = p.getObjXByIndex idx := by
  rw [getObjXByIndex, getObjXByIndex, segmentOf_and, placeOf_and]

theorem getObjPtrByIndex_and (p : SegmentPool) (idx : ℕ) :
    p.getObjPtrByIndex (idx &&& segmentObjIndexMask) = p.getObjPtrByIndex idx := by
  rw [getObjPtrByIndex, getObjPtrByIndex, segmentOf_and, placeOf_and]

theorem Ok.index_ext (h : p.Ok used) (hi : i < p.numOfObjs) (hj : j < p.numOfObjs)
    (hs : p.segmentOf i = p.segmentOf j) (hp : p.placeOf i = p.placeOf j) : i = j := by
  have hi' := hi.trans_le h.num_le
  have hj' := hj.trans_le h.num_le
  rw [segmentOf_eq h.delta_eq hi', segmentOf_eq h.delta_eq hj'] at hs
  rw [placeOf_eq h.delta_eq hi', placeOf_eq h.delta_eq hj'] at hp
  rw [← Nat.div_add_mod i p.delta, ← Nat.div_add_mod j p.delta, hs, hp]

theorem Ok.getObjXByIndex_setObjX (h : p.Ok used) (hi : i < p.numOfObjs) (hj : j < p.numOfObjs)
    (o : ObjX) :
    (p.setObjX i o).getObjXByIndex j = if j = i then some o else p.getObjXByIndex j := by
  obtain ⟨s, hs, hobj⟩ := h.segment hj
  have hplace := (List.getElem?_eq_some_iff.mp hobj).1
  have hget : (p.setObjX i o).getObjXByIndex j = (if p.segmentOf i = p.segmentOf j then
      { s with objs := s.objs.set (p.placeOf i) o } else s).objs[p.placeOf j]? := by
    have hseg : (p.setObjX i o).segList[p.segmentOf j]? = some (if p.segmentOf i = p.segmentOf j then
        { s with objs := s.objs.set (p.placeOf i) o } else s) := by
      rw [setObjX, getElem?_modify, hs]
      rfl
    exact (congrArg (fun x => x.bind fun s => s.objs[p.placeOf j]?) hseg).trans (bind_some ..)
  have hold : p.getObjXByIndex j = s.objs[p.placeOf j]? := by
    rw [getObjXByIndex, hs, bind_some]
  rw [hget, hold]
  by_cases hji : j = i
  · subst hji
    rw [if_pos rfl, if_pos rfl, getElem?_set_self hplace]
  rw [if_neg hji]
  by_cases hseg : p.segmentOf i = p.segmentOf j
  · rw [if_pos hseg, getElem?_set_ne fun hp => hji (h.index_ext hi hj hseg hp).symm]
  · rw [if_neg hseg]

theorem getObjPtrByIndex_eq (p : SegmentPool) (idx : ℕ) : p.getObjPtrByIndex idx =
    p.addrs[p.segmentOf idx]?.map fun a => a + p.placeOf idx * p.objXSize + objXHeaderSz := by
  rw [getObjPtrByIndex, addrs, getElem?_map, Option.map_map]
  rfl

theorem addrs_setObjX (p : SegmentPool) (i : ℕ) (o : ObjX) : (p.setObjX i o).addrs = p.addrs := by
  refine ext_getElem? fun k => ?_
  rw [addrs, addrs, setObjX, getElem?_map, getElem?_map, getElem?_modify]
  cases p.segList[k]? with
  | none => rfl
  | some s => by_cases hk : p.segmentOf i = k <;> simp [hk]

/-- **A store that keeps the invariant**: the flag of one object, the list and the cursor change
together. -/
theorem Ok.mark (h : p.Ok used) (hi : i < p.numOfObjs) {l : List ℕ} {b : ℕ} {used' : List ℕ}
    (hlen : l.length = p.numOfObjs) (hstack : FreeStack l b used')
    (hmem : ∀ j, j ≠ i → (j ∈ used' ↔ j ∈ used)) (hlast : l.getLast? = p.entries.getLast?) :
    { p.setObjX i (p.objX used' i) with list := some l, begin := b }.Ok used' where
  initialized := h.initialized
  size_pos := h.size_pos
  delta_eq := h.delta_eq
  exponent_le := h.exponent_le
  poolId_lt := h.poolId_lt
  max_le := h.max_le
  num_eq := h.num_eq.trans (by rw [setObjX, length_modify])
  num_le := h.num_le
  list_eq_none_iff := iff_of_false (some_ne_none _) (ne_of_gt (Nat.zero_lt_of_lt hi))
  length_entries := hlen
  stack := hstack
  objs_length := by
    intro s hs
    obtain ⟨k, hk⟩ := mem_iff_getElem?.mp hs
    rw [setObjX, getElem?_modify] at hk
    obtain ⟨s', hs', rfl⟩ := map_eq_some_iff.mp hk
    have hlen' := h.objs_length s' (mem_of_getElem? hs')
    by_cases hseg : p.segmentOf i = k <;> simp [hseg, hlen', setObjX]
  objs_eq := by
    intro j hj
    refine (h.getObjXByIndex_setObjX hi hj _).trans ?_
    by_cases hji : j = i
    · rw [if_pos hji, hji]
      rfl
    · rw [if_neg hji, h.objs_eq j hj]
      simp [objX, hmem j hji, setObjX]
  apart := by
    have hap := h.apart
    rwa [← addrs_setObjX p i (p.objX used' i)] at hap
  last_eq := fun hd hn => hlast.trans (h.last_eq hd hn)

end Access

theorem nextPowerOf2From_le {num e square : ℕ} (h : num ≤ 2 ^ e) (hs : square ≤ e) (fuel : ℕ) :
    nextPowerOf2From num square fuel ≤ e := by
  induction fuel generalizing square with
  | zero => exact hs
  | succ fuel ih =>
    rw [nextPowerOf2From]
    split
    next hgt =>
      refine ih (lt_of_le_of_ne hs fun heq => ?_)
      subst heq
      exact absurd h (Nat.not_le.mpr hgt)
    next => exact hs

theorem poolId_init {p q : SegmentPool} {poolId num max : ℕ} {handler : Bool}
    (h : p.init poolId num max handler = (.ok, q)) : q.poolId = poolId := by
  unfold init at h
  by_cases hc : 0 < min num segmentObjMaxNum ∧ poolId < segmentMgrMaxPools
  · rw [if_pos hc] at h
    obtain rfl := (Prod.mk.inj h).2
    rfl
  · rw [if_neg hc] at h
    cases h

theorem init_ok {objXSize poolId numberOfObjs maxNumberOfObjs : ℕ} {hasHandler : Bool}
    {p : SegmentPool} (hsize : 0 < objXSize)
    (hinit : (new objXSize).init poolId numberOfObjs maxNumberOfObjs hasHandler = (.ok, p)) :
    p.Ok [] := by
  have hmax : segmentObjMaxNum = 2 ^ 28 := by decide
  unfold init at hinit
  by_cases hc : 0 < min numberOfObjs segmentObjMaxNum ∧ poolId < segmentMgrMaxPools
  · rw [if_pos hc] at hinit
    have hexp : (ossNextPowerOf2 (min numberOfObjs segmentObjMaxNum)).2 ≤ 28 :=
      nextPowerOf2From_le (hmax ▸ Nat.min_le_right ..) (Nat.zero_le _) 32
    have hpow : (ossNextPowerOf2 (min numberOfObjs segmentObjMaxNum)).1 ≤ 2 ^ 28 :=
      Nat.pow_le_pow_right (by decide) hexp
    have hdelta := u32_of_lt (hpow.trans_lt (by decide : 2 ^ 28 < 2 ^ 32))
    obtain rfl := (Prod.mk.inj hinit).2
    refine ⟨rfl, hsize, hdelta, hexp, hc.2, ?_, ?_, Nat.zero_le _, iff_of_true rfl rfl, rfl, .nil,
      fun _ hs => absurd hs not_mem_nil, fun _ hi => absurd hi (Nat.not_lt_zero _), .nil,
      fun _ hn => absurd hn (by decide : ¬ 0 = 2 ^ 28)⟩
    · dsimp only
      rw [hdelta]
      split_ifs
      · exact hpow
      · exact hmax ▸ min_le_right ..
    · exact (zero_mul _).symm
  · rw [if_neg hc] at hinit
    cases hinit

/-! ## Growth -/

section Acquire
variable {p p' : SegmentPool} {used : List ℕ} {i : ℕ} {env : AcquireEnv}

def AcquireEnv.Fresh (p : SegmentPool) (env : AcquireEnv) : Prop :=
  ∀ a, env.segment = some a → ∀ b ∈ p.addrs, p.Apart b a

structure SameShape (p p' : SegmentPool) : Prop where
  objXSize_eq : p'.objXSize = p.objXSize
  delta_eq : p'.delta = p.delta
  exponent_eq : p'.exponent = p.exponent
  poolId_eq : p'.poolId = p.poolId

theorem SameShape.rfl : p.SameShape p := ⟨Eq.refl _, Eq.refl _, Eq.refl _, Eq.refl _⟩

theorem SameShape.trans {p'' : SegmentPool} (h : p.SameShape p') (h' : p'.SameShape p'') :
    p.SameShape p'' :=
  ⟨h'.objXSize_eq.trans h.objXSize_eq, h'.delta_eq.trans h.delta_eq,
    h'.exponent_eq.trans h.exponent_eq, h'.poolId_eq.trans h.poolId_eq⟩

theorem SameShape.segmentOf_eq (h : p.SameShape p') (idx : ℕ) : p'.segmentOf idx = p.segmentOf idx := by
  rw [segmentOf, segmentOf, h.exponent_eq]

theorem SameShape.placeOf_eq (h : p.SameShape p') (idx : ℕ) : p'.placeOf idx = p.placeOf idx := by
  rw [placeOf, placeOf, h.delta_eq]

theorem SameShape.getObjPtrByIndex_eq (h : p.SameShape p') {idx : ℕ}
    (ha : p'.addrs[p.segmentOf idx]? = p.addrs[p.segmentOf idx]?) :
    p'.getObjPtrByIndex idx = p.getObjPtrByIndex idx := by
  rw [SegmentPool.getObjPtrByIndex_eq, SegmentPool.getObjPtrByIndex_eq, h.segmentOf_eq,
    h.placeOf_eq, h.objXSize_eq, ha]

structure Expanded (p p' : SegmentPool) (addr : ℕ) : Prop where
  shape : p.SameShape p'
  begin_eq : p'.begin = p.begin
  num_eq : p'.numOfObjs = p.numOfObjs + p.delta
  entries_eq : p'.entries = p.entries ++ List.range' p.numOfObjs p.delta
  addrs_eq : p'.addrs = p.addrs ++ [addr]

def newObjs (p : SegmentPool) : List ObjX :=
  (List.range' p.numOfObjs p.delta).map fun i => { index := packIndex p.poolId i }

def withSegment (p : SegmentPool) (addr : ℕ) : SegmentPool :=
  { p with
    list := some (p.entries ++ List.range' p.numOfObjs p.delta)
    numOfObjs := p.numOfObjs + p.delta
    segList := p.segList ++ [⟨addr, p.newObjs⟩] }

theorem addrs_withSegment (p : SegmentPool) (addr : ℕ) :
    (p.withSegment addr).addrs = p.addrs ++ [addr] := by
  simp [addrs, withSegment]

theorem Ok.getObjXByIndex_withSegment (h : p.Ok used) (addr : ℕ)
    (hle : p.numOfObjs + p.delta ≤ 2 ^ 28) (hi : i < p.numOfObjs + p.delta) :
    (p.withSegment addr).getObjXByIndex i = some (p.objX used i) := by
  rcases lt_or_ge i p.numOfObjs with hlt | hge
  · have hold := h.objs_eq i hlt
    rw [getObjXByIndex] at hold ⊢
    rw [← hold]
    exact congrArg (fun x => x.bind fun s => s.objs[p.placeOf i]?)
      (getElem?_append_left (h.segmentOf_lt hlt))
  · have hdpos := h.delta_pos
    have hsplit : i = p.segList.length * p.delta + (i - p.numOfObjs) := by
      have := h.num_eq
      omega
    have hsmall : i - p.numOfObjs < p.delta := by omega
    have hseg : p.segmentOf i = p.segList.length := by
      rw [segmentOf_eq h.delta_eq (by omega), hsplit, mul_comm, Nat.mul_add_div hdpos,
        Nat.div_eq_of_lt hsmall, add_zero]
    have hplace : p.placeOf i = i - p.numOfObjs := by
      rw [placeOf_eq h.delta_eq (by omega)]
      conv_lhs => rw [hsplit, mul_comm, Nat.mul_add_mod, Nat.mod_eq_of_lt hsmall]
    have hget : (p.withSegment addr).segList[p.segmentOf i]? = some ⟨addr, p.newObjs⟩ := by
      rw [hseg, withSegment, getElem?_append_right le_rfl, Nat.sub_self]
      rfl
    have hobj : p.newObjs[p.placeOf i]? = some { index := packIndex p.poolId i } := by
      rw [hplace, newObjs, getElem?_map, getElem?_range' (by omega), map_some,
        one_mul, Nat.add_sub_cancel' hge]
    have hnot : i ∉ used := fun hu => absurd (h.lt_num hu) (Nat.not_lt.mpr hge)
    refine (congrArg (fun x => x.bind fun s => s.objs[p.placeOf i]?) hget).trans ?_
    rw [bind_some, hobj, objX, if_neg hnot]

theorem Ok.withSegment (h : p.Ok used) {addr : ℕ} (hfresh : ∀ b ∈ p.addrs, p.Apart b addr)
    (hle : p.numOfObjs + p.delta ≤ 2 ^ 28) : (p.withSegment addr).Ok used where
  initialized := h.initialized
  size_pos := h.size_pos
  delta_eq := h.delta_eq
  exponent_le := h.exponent_le
  poolId_lt := h.poolId_lt
  max_le := h.max_le
  num_eq := by
    rw [SegmentPool.withSegment, h.num_eq, List.length_append, length_singleton, Nat.succ_mul]
  num_le := hle
  list_eq_none_iff := iff_of_false (some_ne_none _)
    (ne_of_gt (Nat.add_pos_right _ h.delta_pos))
  length_entries := by
    have hlen : (p.entries ++ List.range' p.numOfObjs p.delta).length = p.numOfObjs + p.delta := by
      rw [List.length_append, length_range', h.length_entries]
    exact hlen
  stack := by
    have hgrow := h.stack.grow p.delta
    rwa [h.length_entries] at hgrow
  objs_length := by
    intro s hs
    rcases mem_append.mp hs with hold | hnew
    · exact h.objs_length s hold
    · rw [mem_singleton.mp hnew]
      simp [newObjs, SegmentPool.withSegment]
  objs_eq := fun i hi => h.getObjXByIndex_withSegment addr hle hi
  apart := by
    rw [addrs_withSegment, pairwise_append]
    exact ⟨h.apart, pairwise_singleton .., fun b hb c hc => mem_singleton.mp hc ▸ hfresh b hb⟩
  last_eq := by
    intro _ hn
    have hlast : (p.entries ++ List.range' p.numOfObjs p.delta).getLast? =
        some (p.numOfObjs + p.delta - 1) := by
      rw [getLast?_append, getLast?_range', if_neg (ne_of_gt h.delta_pos), some_or]
    have hnum : p.numOfObjs + p.delta = 2 ^ 28 := hn
    rwa [hnum] at hlast

theorem Ok.expandList (h : p.Ok used) (hfresh : env.Fresh p) :
    (∃ rc, p.expandList env = (rc, p) ∧ rc ≠ .ok) ∨
      ∃ p' addr, p.expandList env = (.ok, p') ∧ p'.Ok used ∧ p.Expanded p' addr := by
  have hmax := h.max_le
  have hnum := h.num_le
  have hdle := h.delta_le
  have hdpos := h.delta_pos
  have hu : u32 (p.numOfObjs + p.delta) = p.numOfObjs + p.delta := u32_of_lt (by omega)
  unfold SegmentPool.expandList
  dsimp only
  split_ifs with hc
  · split
    next addr hseg hlist =>
      rw [hu] at hc ⊢
      exact .inr ⟨p.withSegment addr, addr, rfl, h.withSegment (hfresh addr hseg) (hc.2.1.trans hmax),
        ⟨⟨rfl, rfl, rfl, rfl⟩, rfl, rfl, rfl, p.addrs_withSegment addr⟩⟩
    next => exact .inl ⟨_, rfl, by decide⟩
  · exact .inl ⟨_, rfl, by decide⟩

/-- The pool that `acquire` takes from: `p` if it has two free objects, and one with a new segment
otherwise. -/
structure Ready (p p' : SegmentPool) : Prop where
  shape : p.SameShape p'
  begin_eq : p'.begin = p.begin
  addrs_prefix : p.addrs <+: p'.addrs
  kept : p.begin + 1 < p.numOfObjs → p' = p
  grown : p.numOfObjs ≤ p.begin + 1 → p'.numOfObjs = p.numOfObjs + p.delta ∧
    p'.entries = p.entries ++ List.range' p.numOfObjs p.delta

theorem Ok.needs_segment_iff (h : p.Ok used) :
    (p.list = none ∨ p.needExpand = true) ↔ p.numOfObjs ≤ p.begin + 1 := by
  have hle := h.num_le
  have hbegin := h.begin_le
  rw [h.list_eq_none_iff, needExpand, decide_eq_true_eq, u32]
  omega

theorem Ok.prepareAcquire (h : p.Ok used) (hfresh : env.Fresh p) :
    (∃ rc, p.prepareAcquire env = (rc, p) ∧ rc ≠ .ok) ∨
      ∃ p', p.prepareAcquire env = (.ok, p') ∧ p'.Ok used ∧ p.Ready p' := by
  unfold SegmentPool.prepareAcquire
  split_ifs with hneed hlim hhandler
  · exact .inl ⟨_, rfl, by decide⟩
  · exact .inl ⟨_, rfl, by decide⟩
  · rcases h.expandList hfresh with ⟨rc, heq, hne⟩ | ⟨p', addr, heq, hok, hexp⟩
    · exact .inl ⟨rc, heq, hne⟩
    · exact .inr ⟨p', heq, hok, hexp.shape, hexp.begin_eq, hexp.addrs_eq ▸ prefix_append ..,
        fun hlt => absurd (h.needs_segment_iff.mp hneed) (Nat.not_le.mpr hlt),
        fun _ => ⟨hexp.num_eq, hexp.entries_eq⟩⟩
  · exact .inr ⟨p, rfl, h, .rfl, rfl, prefix_rfl, fun _ => rfl,
      fun hle => absurd (h.needs_segment_iff.mpr hle) hneed⟩

theorem Ready.begin_lt (h : p.Ready p') (hok : p.Ok used) :
    p.begin < p'.numOfObjs ∧ (2 ≤ p.delta → p.begin + 1 < p'.numOfObjs) := by
  have hpos := hok.delta_pos
  have hle := hok.begin_le
  rcases lt_or_ge (p.begin + 1) p.numOfObjs with hlt | hge
  · rw [h.kept hlt]
    omega
  · have := (h.grown hge).1
    omega

theorem Ok.exists_ptr (h : p.Ok used) (hi : i < p.numOfObjs) :
    ∃ pT, p.getObjPtrByIndex i = some pT := by
  obtain ⟨s, hs, -⟩ := h.segment hi
  exact ⟨_, by rw [getObjPtrByIndex, hs]; rfl⟩

theorem Ok.acquireFree (h : p.Ok used) (hlt : p.begin < p.numOfObjs) :
    ∃ i pT p', p.entries[p.begin]? = some i ∧
      p.acquireFree = some (.ok (packIndex p.poolId i, pT), p') ∧ p'.Ok (i :: used) ∧
      p.SameShape p' ∧ p'.addrs = p.addrs ∧ p'.numOfObjs = p.numOfObjs ∧
      p.getObjPtrByIndex i = some pT := by
  obtain ⟨l, hl⟩ : ∃ l, p.list = some l :=
    ne_none_iff_exists'.mp fun hnone => by
      have := h.list_eq_none_iff.mp hnone
      omega
  have hentries : p.entries = l := by rw [entries, hl, getD_some]
  have hbl : p.begin < p.entries.length := h.length_entries ▸ hlt
  have hget : p.entries[p.begin]? = some p.entries[p.begin] := getElem?_eq_getElem hbl
  obtain ⟨i, hi⟩ : ∃ i, p.entries[p.begin]? = some i := ⟨_, hget⟩
  have hfree := FreeStack.mem_free_cursor hi
  have hin : i < p.numOfObjs := h.length_entries ▸ h.stack.lt_of_mem_free hfree
  have hnot := h.stack.not_mem_used hi
  obtain ⟨pT, hpT⟩ := h.exists_ptr hin
  have hli : l[p.begin]? = some i := hentries ▸ hi
  have hmark := h.mark hin (h.length_entries) (h.stack.pop hi)
    (fun j hj => by rw [mem_cons, or_iff_right hj]) rfl
  have hobj : ({ p.objX used i with flag := .acquired } : ObjX) = p.objX (i :: used) i := by
    simp [objX]
  have hsane : packedPoolID p.poolId = (p.objX used i).index &&& segmentObjPoolMask ∧
      segmentObjEyeCatcher = (p.objX used i).eyeCatcher ∧ (p.objX used i).flag = .released :=
    ⟨(packIndex_and_poolMask h.poolId_lt (hin.trans_le h.num_le)).symm, rfl, if_neg hnot⟩
  refine ⟨i, pT, _, hi, ?_, hmark, ⟨rfl, rfl, rfl, rfl⟩, addrs_setObjX p i _, rfl, hpT⟩
  rw [SegmentPool.acquireFree, hl, bind_some, hli, bind_some, h.objs_eq i hin,
    bind_some, if_pos hsane, hpT, map_some, hobj, hentries, ← hl]
  rfl

theorem Ok.delta_eq_one_of_last (h : p.Ok used) (hi : p.entries[p.begin]? = some (2 ^ 28 - 1))
    (hspare : 2 ≤ p.delta → p.begin + 1 < p.numOfObjs) : p.delta = 1 := by
  have hin : 2 ^ 28 - 1 < p.entries.length := h.stack.lt_of_mem_free (FreeStack.mem_free_cursor hi)
  have hlen := h.length_entries
  have hle := h.num_le
  have hpos := h.delta_pos
  by_contra hne
  have htwo : 2 ≤ p.delta := by omega
  have hlt := hspare htwo
  have hnum : p.numOfObjs = 2 ^ 28 := by omega
  -- It is the last entry, and there is another one at the cursor.
  have hlast := h.last_eq htwo hnum
  rw [getLast?_eq_getElem?] at hlast
  have hnd : (p.entries.drop p.begin).Nodup := (nodup_append.mp h.stack.nodup).1
  have h0 : (p.entries.drop p.begin)[0]? = some (2 ^ 28 - 1) := by
    rw [getElem?_drop, add_zero]
    exact hi
  have h1 : (p.entries.drop p.begin)[p.entries.length - 1 - p.begin]? = some (2 ^ 28 - 1) := by
    rw [getElem?_drop, Nat.add_sub_cancel' (by omega)]
    exact hlast
  have heq := (getElem?_inj (List.getElem?_eq_some_iff.mp h0).1 hnd).mp (h0.trans h1.symm)
  omega

structure Acquires (p p' : SegmentPool) (used : List ℕ) (i pT : ℕ) : Prop where
  ok : p'.Ok (i :: used)
  shape : p.SameShape p'
  not_mem : i ∉ used
  ptr_eq : p'.getObjPtrByIndex i = some pT
  addrs_prefix : p.addrs <+: p'.addrs
  full : p.delta = 1 → p.begin = p.numOfObjs → p'.begin = p'.numOfObjs ∧ i = p.numOfObjs
  last : i = 2 ^ 28 - 1 → p.delta = 1

/-- **`acquire`** leaves the pool or gives out an object that is not acquired. -/
theorem Ok.acquire (h : p.Ok used) (hfresh : env.Fresh p) :
    (∃ rc, p.acquire env = some (.error rc, p) ∧ rc ≠ .ok) ∨
      ∃ i pT p', p.acquire env = some (.ok (packIndex p.poolId i, pT), p') ∧
        p.Acquires p' used i pT := by
  unfold SegmentPool.acquire
  rw [if_pos h.initialized]
  rcases h.prepareAcquire hfresh with ⟨rc, heq, hne⟩ | ⟨q, heq, hq, hready⟩
  · refine .inl ⟨rc, ?_, hne⟩
    rw [heq]
    cases rc with
    | ok => exact absurd rfl hne
    | _ => rfl
  · obtain ⟨hlt, hspare⟩ := hready.begin_lt h
    rw [← hready.begin_eq] at hlt hspare
    obtain ⟨i, pT, p', hi, hfree, hok, hshape, haddrs, hnum, hpT⟩ := hq.acquireFree hlt
    have hbegin : p'.begin = p.begin + 1 := by
      rw [← hok.stack.length_used, length_cons, h.stack.length_used]
    rw [hready.shape.poolId_eq] at hfree
    refine .inr ⟨i, pT, p', by rw [heq]; exact hfree, {
      ok := hok
      shape := hready.shape.trans hshape
      not_mem := hq.stack.not_mem_used hi
      ptr_eq := by rw [hshape.getObjPtrByIndex_eq (by rw [haddrs])]; exact hpT
      addrs_prefix := haddrs ▸ hready.addrs_prefix
      full := fun hone hfull => ?_
      last := fun hlast => ?_ }⟩
    · obtain ⟨hgrow, hent⟩ := hready.grown (by omega)
      refine ⟨by omega, ?_⟩
      rw [hready.begin_eq, hent, hfull, ← h.length_entries, getElem?_append_right le_rfl,
        Nat.sub_self, getElem?_range' (by omega)] at hi
      rw [← h.length_entries]
      exact (by simpa using hi : p.entries.length = i).symm
    · have hone := hq.delta_eq_one_of_last (hlast ▸ hi) (hready.shape.delta_eq ▸ hspare)
      rwa [hready.shape.delta_eq] at hone

end Acquire

/-! ## Release -/

section Release
variable {p p' : SegmentPool} {used : List ℕ} {i idx : ℕ}

/-- The object is there, or `release` does not look for it. -/
def InRange (p : SegmentPool) (idx : ℕ) : Prop :=
  idx &&& segmentObjIndexMask < p.numOfObjs ∨ idx = invalidObjIndex ∨
    idx &&& segmentObjPoolMask ≠ packedPoolID p.poolId ∨ p.begin = 0 ∨ p.numOfObjs ≤ p.begin

structure Releases (p p' : SegmentPool) (used : List ℕ) (i : ℕ) : Prop where
  ok : p'.Ok (used.erase i)
  shape : p.SameShape p'
  addrs_eq : p'.addrs = p.addrs
  num_eq : p'.numOfObjs = p.numOfObjs
  begin_eq : p'.begin = p.begin - 1
  next : p'.entries[p'.begin]? = some i

section
variable (h : p.Ok used)
include h

theorem Ok.exists_list (hlt : 0 < p.numOfObjs) : ∃ l, p.list = some l :=
  ne_none_iff_exists'.mp fun hnone => ne_of_gt hlt (h.list_eq_none_iff.mp hnone)

theorem Ok.release_eq (hi : i < p.numOfObjs) {l : List ℕ} (hl : p.list = some l)
    (hvalid : packIndex p.poolId i ≠ invalidObjIndex) (hbegin : 0 < p.begin ∧ p.numOfObjs > p.begin) :
    p.release (packIndex p.poolId i) = some (if i ∈ used then
      (.ok, { p.setObjX i { p.objX used i with flag := .released } with
        list := some (l.set (p.begin - 1) i), begin := p.begin - 1 })
      else (.sys, p)) := by
  have hi28 := hi.trans_le h.num_le
  have hmask := packIndex_and_indexMask h.poolId_lt hi28
  have hpool := packIndex_and_poolMask h.poolId_lt hi28
  have hget : p.getObjXByIndex (packIndex p.poolId i) = some (p.objX used i) := by
    rw [← getObjXByIndex_and, hmask, h.objs_eq i hi]
  have hset : ∀ o, p.setObjX (packIndex p.poolId i) o = p.setObjX i o := by
    intro o
    rw [setObjX, ← segmentOf_and, ← placeOf_and, hmask, setObjX]
  rw [SegmentPool.release, if_neg (not_not.mpr ⟨hvalid.symm, hpool⟩), h.initialized, hl]
  dsimp only
  rw [if_pos hbegin, hget, map_some, hset, hmask]
  by_cases hu : i ∈ used
  · rw [if_pos hu, if_pos ⟨hpool, rfl, if_pos hu⟩]
  have hflag : (p.objX used i).flag ≠ .acquired := by
    rw [objX, if_neg hu]
    exact (by decide : ObjFlag.released ≠ .acquired)
  rw [if_neg hu, if_neg fun hc => hflag hc.2.2]

/-- **`release`** of an acquired object takes it back if some object of the pool is free. -/
theorem Ok.release (hi : i ∈ used)
    (hvalid : packIndex p.poolId i ≠ invalidObjIndex) (hlt : p.begin < p.numOfObjs) :
    ∃ p', p.release (packIndex p.poolId i) = some (.ok, p') ∧ p.Releases p' used i := by
  have hin := h.lt_num hi
  have hpos : 0 < p.begin := h.stack.length_used ▸ length_pos_of_mem hi
  obtain ⟨l, hl⟩ := h.exists_list (Nat.zero_lt_of_lt hin)
  have hentries : p.entries = l := by rw [entries, hl, getD_some]
  have hlen : l.length = p.numOfObjs := hentries ▸ h.length_entries
  have hstack := h.stack.push hi
  rw [hentries] at hstack
  have hobj : ({ p.objX used i with flag := .released } : ObjX) = p.objX (used.erase i) i := by
    simp [objX, h.stack.nodup_used.not_mem_erase]
  have hmark := h.mark hin (by rw [length_set, hlen]) hstack
    (fun j hj => mem_erase_of_ne hj) (by
      rw [hentries, getLast?_eq_getElem?, getLast?_eq_getElem?, length_set,
        getElem?_set_ne (by omega)])
  refine ⟨_, ?_, ⟨hmark, ⟨rfl, rfl, rfl, rfl⟩, addrs_setObjX p i _, rfl, rfl, ?_⟩⟩
  · rw [h.release_eq hin hl hvalid ⟨hpos, hlt⟩, if_pos hi, hobj]
  · exact getElem?_set_self (by omega)

theorem Ok.release_full (hfull : p.numOfObjs ≤ p.begin) (idx : ℕ) :
    ∃ rc, p.release idx = some (rc, p) ∧ rc ≠ .ok := by
  by_cases hpool : invalidObjIndex ≠ idx ∧ idx &&& segmentObjPoolMask = packedPoolID p.poolId
  · refine ⟨.sys, ?_, by decide⟩
    rw [SegmentPool.release, if_neg (not_not.mpr hpool), h.initialized]
    cases p.list with
    | none => rfl
    | some l => exact if_neg fun hc => absurd hc.2 (Nat.not_lt.mpr hfull)
  · exact ⟨.invalidArg, by rw [SegmentPool.release, if_pos hpool], by decide⟩

theorem Ok.release_refused (hidx : idx < 2 ^ 32)
    (hnot : ∀ i ∈ used, packIndex p.poolId i ≠ idx) (hrange : p.InRange idx) :
    ∃ rc, p.release idx = some (rc, p) ∧ rc ≠ .ok := by
  by_cases hpool : invalidObjIndex ≠ idx ∧ idx &&& segmentObjPoolMask = packedPoolID p.poolId
  · rcases lt_or_ge p.begin p.numOfObjs with hlt | hge
    · obtain ⟨l, hl⟩ := h.exists_list (Nat.zero_lt_of_lt hlt)
      rcases eq_zero_or_pos p.begin with h0 | hpos
      · refine ⟨.sys, ?_, by decide⟩
        rw [SegmentPool.release, if_neg (not_not.mpr hpool), h.initialized, hl]
        dsimp only
        rw [if_neg fun hc => absurd hc.1 (by omega)]
      · have heq := eq_packIndex h.poolId_lt hidx hpool.2
        have hin : idx &&& segmentObjIndexMask < p.numOfObjs := by
          rcases hrange with hr | hr | hr | hr | hr
          · exact hr
          · exact absurd hr.symm hpool.1
          · exact absurd hpool.2 hr
          · omega
          · omega
        have hu : idx &&& segmentObjIndexMask ∉ used := fun hu => hnot _ hu heq.symm
        refine ⟨.sys, ?_, by decide⟩
        rw [heq, h.release_eq hin hl (heq ▸ hpool.1.symm) ⟨hpos, hlt⟩, if_neg hu]
    · exact h.release_full hge idx
  · exact ⟨.invalidArg, by rw [SegmentPool.release, if_pos hpool], by decide⟩

theorem Ok.objXAt (hi : i < p.numOfObjs) {s : Segment}
    (hs : p.segList[p.segmentOf i]? = some s) :
    p.objXAt (s.addr + p.placeOf i * p.objXSize) = some (p.objX used i) := by
  have hsize := h.size_pos
  obtain ⟨s', hs', hobj⟩ := h.segment hi
  obtain rfl : s = s' := Option.some.inj (hs.symm.trans hs')
  have hplace : p.placeOf i < p.delta := by
    rw [placeOf_eq h.delta_eq (hi.trans_le h.num_le)]
    exact Nat.mod_lt _ h.delta_pos
  have hlt : p.placeOf i * p.objXSize < p.delta * p.objXSize :=
    Nat.mul_lt_mul_of_pos_right hplace hsize
  obtain ⟨hk, hget⟩ := List.getElem?_eq_some_iff.mp hs
  rw [SegmentPool.objXAt, findSome?_eq_some_iff]
  refine ⟨p.segList.take (p.segmentOf i), s, p.segList.drop (p.segmentOf i + 1), ?_, ?_, ?_⟩
  · rw [← hget, ← drop_eq_getElem_cons hk, take_append_drop]
  · rw [Nat.add_sub_cancel_left, Nat.mul_mod_left, Nat.mul_div_cancel _ hsize,
      if_pos ⟨Nat.le_add_right .., rfl⟩, hobj]
  -- An earlier segment has no byte in common with this one.
  intro t ht
  obtain ⟨k, hk', rfl⟩ := getElem_of_mem ht
  have hklt : k < p.segmentOf i := (length_take .. ▸ hk').trans_le (min_le_left ..)
  rw [getElem_take]
  have hap : p.Apart p.segList[k].addr s.addr := by
    have hpw := pairwise_iff_getElem.mp h.apart k (p.segmentOf i)
      (by rw [addrs, length_map]; omega) (by rw [addrs, length_map]; exact hk) hklt
    simpa [addrs, hget] using hpw
  have hlen := h.objs_length _ (getElem_mem (by omega : k < p.segList.length))
  split_ifs with hc
  · refine getElem?_eq_none ?_
    rw [hlen, Nat.le_div_iff_mul_le hsize]
    rcases hap with hap | hap <;> omega
  · rfl

/-- **The address of an object leads back to its index.** -/
theorem Ok.getIndexByAddr (hi : i < p.numOfObjs) {pT : ℕ}
    (hpT : p.getObjPtrByIndex i = some pT) : p.getIndexByAddr pT = some (packIndex p.poolId i) := by
  obtain ⟨s, hs, -⟩ := h.segment hi
  rw [getObjPtrByIndex, hs, map_some] at hpT
  cases hpT
  rw [SegmentPool.getIndexByAddr, if_neg (by rw [objXHeaderSz]; omega), Nat.add_sub_cancel,
    h.objXAt hi hs, map_some,
    if_pos ⟨rfl, packIndex_and_poolMask h.poolId_lt (hi.trans_le h.num_le)⟩]
  rfl

theorem Ok.exists_of_objXAt {a : ℕ} {o : ObjX} (ho : p.objXAt a = some o) :
    ∃ i < p.numOfObjs, o = p.objX used i := by
  obtain ⟨l₁, s, l₂, hsplit, hs, -⟩ := findSome?_eq_some_iff.mp ho
  split_ifs at hs
  obtain ⟨hk, -⟩ := List.getElem?_eq_some_iff.mp hs
  have hmem : s ∈ p.segList := hsplit ▸ mem_append_right _ mem_cons_self
  obtain ⟨j, hj, hget⟩ := getElem_of_mem hmem
  obtain ⟨k, hkeq⟩ : ∃ k, k = (a - s.addr) / p.objXSize := ⟨_, rfl⟩
  rw [← hkeq] at hs hk
  rw [h.objs_length s hmem] at hk
  have hlt : j * p.delta + k < p.numOfObjs := by
    have hle : (j + 1) * p.delta ≤ p.segList.length * p.delta := Nat.mul_le_mul_right _ hj
    rw [Nat.succ_mul] at hle
    rw [h.num_eq]
    omega
  have h28 := hlt.trans_le h.num_le
  have hseg : p.segmentOf (j * p.delta + k) = j := by
    rw [segmentOf_eq h.delta_eq h28, mul_comm, Nat.mul_add_div h.delta_pos,
      Nat.div_eq_of_lt hk, add_zero]
  have hplace : p.placeOf (j * p.delta + k) = k := by
    rw [placeOf_eq h.delta_eq h28, mul_comm, Nat.mul_add_mod, Nat.mod_eq_of_lt hk]
  refine ⟨_, hlt, Option.some.inj ?_⟩
  rw [← h.objs_eq _ hlt, getObjXByIndex, hseg, hplace, getElem?_eq_getElem hj, hget, bind_some, hs]

theorem Ok.exists_of_getIndexByAddr {pT : ℕ}
    (hidx : p.getIndexByAddr pT = some idx) :
    idx = invalidObjIndex ∨ ∃ i < p.numOfObjs, idx = packIndex p.poolId i := by
  rw [SegmentPool.getIndexByAddr] at hidx
  split_ifs at hidx with h0
  · exact .inl (Option.some.inj hidx).symm
  obtain ⟨o, ho, heq⟩ := map_eq_some_iff.mp hidx
  obtain ⟨i, hi, rfl⟩ := h.exists_of_objXAt ho
  rw [if_pos ⟨rfl, packIndex_and_poolMask h.poolId_lt (hi.trans_le h.num_le)⟩] at heq
  exact .inr ⟨i, hi, heq.symm⟩

end

end Release

theorem Ok.setMaxObjects {p : SegmentPool} {used : List ℕ} (h : p.Ok used) (n : ℕ) :
    (p.setMaxObjects n).Ok used := by
  have hmax : segmentObjMaxNum = 2 ^ 28 := by decide
  have hle : (p.setMaxObjects n).maxNumOfObjs ≤ 2 ^ 28 := by
    have hdelta := h.delta_le
    unfold SegmentPool.setMaxObjects
    dsimp only
    split_ifs <;> omega
  exact ⟨h.initialized, h.size_pos, h.delta_eq, h.exponent_le, h.poolId_lt, hle, h.num_eq, h.num_le,
    h.list_eq_none_iff, h.length_entries, h.stack, h.objs_length, h.objs_eq, h.apart, h.last_eq⟩

end SegmentPool

end Novachains.Util
