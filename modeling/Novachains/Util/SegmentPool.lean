import Novachains.Basic

/-!
# `_utilSegmentPool`

Objects of one size are kept in segments of `_delta` objects each.  `_list` holds their indices;
those from `_begin` on are free.  When no object can be given out a segment is added; `shrink` frees
the segments behind the last object in use.

Memory and the handler are parameters of the call.  A call has no result when it reads outside an
array.  This is the build without `_DEBUG`; the calls hold the latch of the pool and come one after
another.
-/

namespace Novachains.Util

def invalidObjIndex : ℕ := 0xFFFFFFFF

def segmentMgrMaxPools : ℕ := 16

def segmentObjIndexMask : ℕ := 0x0FFFFFFF

def segmentObjPoolMask : ℕ := 0xF0000000

def segmentObjPoolidShift : ℕ := 28

def segmentObjMaxNum : ℕ := segmentObjIndexMask + 1

def segmentObjEyeCatcher : ℕ := 0xBEEF

/-- `_SEGMENT_OBJ_FLAG_ACQUIRED` and `_SEGMENT_OBJ_FLAG_RELEASED`. -/
inductive ObjFlag
  | acquired
  | released
  deriving DecidableEq, Repr

def packedPoolID (pool : ℕ) : ℕ := u32 (pool <<< segmentObjPoolidShift) &&& segmentObjPoolMask

def unpackedPoolID (idx : ℕ) : ℕ := (idx &&& segmentObjPoolMask) >>> segmentObjPoolidShift

structure ObjX where
  eyeCatcher : ℕ := segmentObjEyeCatcher
  flag : ObjFlag := .released
  index : ℕ := invalidObjIndex
  deriving DecidableEq, Repr

/-- The bytes of `_objX` in front of the object, which `_GET_OBJX_ADDRESS` goes back. -/
def objXHeaderSz : ℕ := 8

structure Segment where
  addr : ℕ
  objs : List ObjX
  deriving DecidableEq, Repr

/-- A segment pool.  `objXSize` is the size of `_objX`, which depends on the type of the
objects. -/
structure SegmentPool where
  objXSize : ℕ
  list : Option (List ℕ) := none
  begin : ℕ := 0
  delta : ℕ := 0
  numOfObjs : ℕ := 0
  maxNumOfObjs : ℕ := 0
  exponent : ℕ := 0
  poolId : ℕ := 0
  highWatermark : ℕ := 0
  isInitialized : Bool := false
  segList : List Segment := []
  hasHandler : Bool := false
  deriving DecidableEq, Repr

/-- The loop of `ossNextPowerOf2`, from the power `square` on. -/
def nextPowerOf2From (num : ℕ) : ℕ → ℕ → ℕ
  | square, 0 => square
  | square, fuel + 1 => if num > 2 ^ square then nextPowerOf2From num (square + 1) fuel else square

/-- `ossNextPowerOf2`: the power of two and its exponent.  For a `UINT32` the loop ends after at
most 32 rounds. -/
def ossNextPowerOf2 (num : ℕ) : ℕ × ℕ :=
  (2 ^ nextPowerOf2From num 0 32, nextPowerOf2From num 0 32)

variable (p : SegmentPool)

namespace SegmentPool

def new (objXSize : ℕ) : SegmentPool := { objXSize := objXSize }

def init (poolId numberOfObjs maxNumberOfObjs : ℕ) (hasHandler : Bool) :
    Rc × SegmentPool :=
  let numberOfObjs := min numberOfObjs segmentObjMaxNum
  let maxNumberOfObjs := min maxNumberOfObjs segmentObjMaxNum
  if 0 < numberOfObjs ∧ poolId < segmentMgrMaxPools then
    let power := ossNextPowerOf2 numberOfObjs
    (.ok, { p with
      delta := u32 power.1
      exponent := power.2
      maxNumOfObjs := if 0 < maxNumberOfObjs ∧ maxNumberOfObjs < u32 power.1 then u32 power.1
        else maxNumberOfObjs
      poolId := poolId
      highWatermark := u32 (u32 power.1 <<< 1)
      hasHandler := hasHandler
      isInitialized := true })
  else (.invalidArg, p)

def setMaxObjects (maxNumberOfObjs : ℕ) : SegmentPool :=
  { p with maxNumOfObjs :=
      if maxNumberOfObjs > segmentObjMaxNum then segmentObjMaxNum
      else if 0 < maxNumberOfObjs ∧ maxNumberOfObjs < p.delta then p.delta
      else maxNumberOfObjs }

def needExpand : Bool := u32 (p.numOfObjs + 2 ^ 32 - 1) ≤ p.begin

def isUpToLimit : Bool := p.numOfObjs ≥ p.maxNumOfObjs

def segmentOf (idx : ℕ) : ℕ := (idx &&& segmentObjIndexMask) >>> p.exponent

def placeOf (idx : ℕ) : ℕ := (idx &&& segmentObjIndexMask) &&& (p.delta - 1)

/-- `_getObjXByIndex`, the object; there is none behind the last segment. -/
def getObjXByIndex (idx : ℕ) : Option ObjX :=
  p.segList[p.segmentOf idx]?.bind fun s => s.objs[p.placeOf idx]?

/-- A store through the pointer that `_getObjXByIndex` returns. -/
def setObjX (idx : ℕ) (o : ObjX) : SegmentPool :=
  { p with segList := p.segList.modify (p.segmentOf idx) fun s =>
      { s with objs := s.objs.set (p.placeOf idx) o } }

def getObjPtrByIndex (idx : ℕ) : Option ℕ :=
  p.segList[p.segmentOf idx]?.map fun s => s.addr + p.placeOf idx * p.objXSize + objXHeaderSz

def objXAt (a : ℕ) : Option ObjX :=
  p.segList.findSome? fun s =>
    if s.addr ≤ a ∧ (a - s.addr) % p.objXSize = 0 then s.objs[(a - s.addr) / p.objXSize]? else none

/-- `getIndexByAddr`, of the address of an object of this pool. -/
def getIndexByAddr (pT : ℕ) : Option ℕ :=
  if pT = 0 then some invalidObjIndex
  else (p.objXAt (pT - objXHeaderSz)).map fun o =>
    if o.eyeCatcher = segmentObjEyeCatcher ∧
        o.index &&& segmentObjPoolMask = packedPoolID p.poolId then o.index
    else invalidObjIndex

/-- What `acquire` meets: the handler, where new objects are, and whether there is memory. -/
structure AcquireEnv where
  canAllocSegment : Bool
  segment : Option ℕ
  list : Bool

def expandList (env : AcquireEnv) : Rc × SegmentPool :=
  let newSize := u32 (p.numOfObjs + p.delta)
  if newSize ≠ invalidObjIndex ∧ newSize ≤ p.maxNumOfObjs ∧ p.delta ≠ 0 then
    match env.segment, env.list with
    | some addr, true =>
      (.ok, { p with
        -- There is no list only as long as there are no objects.
        list := some (p.list.getD [] ++ List.range' p.numOfObjs p.delta)
        numOfObjs := newSize
        segList := p.segList ++ [⟨addr, (List.range' p.numOfObjs p.delta).map fun i =>
          { index := (i &&& segmentObjIndexMask) ||| packedPoolID p.poolId }⟩] })
    | _, _ => (.oom, p)
  else (.ossUpToLimit, p)

/-- `acquire` up to the point where there should be an object to give out. -/
def prepareAcquire (env : AcquireEnv) : Rc × SegmentPool :=
  if p.list = none ∨ p.needExpand then
    if p.isUpToLimit then (.ossUpToLimit, p)
    else if p.hasHandler ∧ ¬ env.canAllocSegment then (.ossUpToLimit, p)
    else p.expandList env
  else (.ok, p)

/-- `acquire` from there on: the index and the address of the object. -/
def acquireFree : Option (Except Rc (ℕ × ℕ) × SegmentPool) :=
  (p.list.bind fun l => l[p.begin]?).bind fun i =>
  (p.getObjXByIndex i).bind fun o =>
    if packedPoolID p.poolId = o.index &&& segmentObjPoolMask ∧
        segmentObjEyeCatcher = o.eyeCatcher ∧ o.flag = .released then
      (p.getObjPtrByIndex i).map fun pT =>
        (.ok ((i &&& segmentObjIndexMask) ||| packedPoolID p.poolId, pT),
          { p.setObjX i { o with flag := .acquired } with begin := p.begin + 1 })
    else some (.error .sys, p)

/-- `acquire`: the index and the address. -/
def acquire (env : AcquireEnv) : Option (Except Rc (ℕ × ℕ) × SegmentPool) :=
  if p.isInitialized then
    match p.prepareAcquire env with
    | (.ok, p) => p.acquireFree
    | (rc, p) => some (.error rc, p)
  else some (.error .sys, p)

/-- `release`, by the index. -/
def release (idx : ℕ) : Option (Rc × SegmentPool) :=
  if ¬ (invalidObjIndex ≠ idx ∧ idx &&& segmentObjPoolMask = packedPoolID p.poolId) then
    some (.invalidArg, p)
  else
    match p.isInitialized, p.list with
    | true, some l =>
      if 0 < p.begin ∧ p.numOfObjs > p.begin then
        (p.getObjXByIndex idx).map fun o =>
          if o.index &&& segmentObjPoolMask = packedPoolID p.poolId ∧
              segmentObjEyeCatcher = o.eyeCatcher ∧ o.flag = .acquired then
            (.ok, { p.setObjX idx { o with flag := .released } with
              list := some (l.set (p.begin - 1) (idx &&& segmentObjIndexMask))
              begin := p.begin - 1 })
          else (.sys, p)
      else some (.sys, p)
    | _, _ => some (.sys, p)

/-- `release`, by the address. -/
def releaseAddr (pT : ℕ) : Option (Rc × SegmentPool) :=
  (p.getIndexByAddr pT).bind fun idx =>
    if idx ≠ invalidObjIndex then p.release idx else some (.invalidArg, p)

end SegmentPool

/-- `utilBitmap`.  Without a buffer its size is 0. -/
structure UtilBitmap where
  size : ℕ
  bits : ℕ → Bool := fun _ => false

def UtilBitmap.setBit (b : UtilBitmap) (index : ℕ) : UtilBitmap :=
  if index < b.size then { b with bits := Function.update b.bits index true } else b

def UtilBitmap.testBit (b : UtilBitmap) (index : ℕ) : Bool :=
  if index < b.size then b.bits index else false

namespace SegmentPool

/-- How far the allocation of the bitmap gets: there is no object, no buffer in it, or both. -/
inductive BitmapAlloc
  | noObject
  | noBuffer
  | ok
  deriving DecidableEq, Repr

/-- What `shrink` meets: the handler, memory for bitmap and list, and what stands in new memory. -/
structure ShrinkEnv where
  canShrink : Bool
  bitmap : BitmapAlloc
  list : Bool
  junk : ℕ → ℕ

/-- At least `UTIL_SEGMENT_OBJ_IN_USE_RATIO_THRESHOLD` are in use; here the `FLOAT64` quotient is
exact enough. -/
def isBusy : Bool := 20 * p.begin ≥ 17 * p.numOfObjs

/-- `pUsedList`: the bits of the free objects are set. -/
def freeBitmap (l : List ℕ) (alloc : BitmapAlloc) : UtilBitmap :=
  (l.drop p.begin).foldl UtilBitmap.setBit ⟨if alloc = .ok then p.numOfObjs else 0, fun _ => false⟩

/-- The highest index below `i` whose bit is not set; the search goes on behind 0 at the highest
number. -/
def maxObjFrom (b : UtilBitmap) : ℕ → ℕ
  | 0 => 2 ^ 32 - 1
  | i + 1 => if !b.testBit i then i else maxObjFrom b i

/-- `maxObj`: the highest index in use. -/
def maxObj (b : UtilBitmap) : ℕ := maxObjFrom b p.numOfObjs

/-- The new list: the free indices below `newSize` from `_begin` on.  There is no result when
they do not fit. -/
def compactList (b : UtilBitmap) (newSize : ℕ) (junk : ℕ → ℕ) :
    Option (List ℕ) :=
  let free := (List.range newSize).filter b.testBit
  if p.begin + free.length ≤ newSize then
    some ((List.range p.begin).map junk ++ free ++
      (List.range' (p.begin + free.length) (newSize - (p.begin + free.length))).map junk)
  else none

/-- `shrink` once the number of segments to keep is known.  `used` is the bitmap, if objects are
in use. -/
def shrinkTo (used : Option UtilBitmap) (segInUse : ℕ) (env : ShrinkEnv) :
    Option (Rc × ℕ × SegmentPool) :=
  if p.segList.length > segInUse then
    let newSize := u32 (segInUse <<< p.exponent)
    let rest (l : Option (List ℕ)) : Rc × ℕ × SegmentPool :=
      (.ok, p.segList.length - segInUse,
        { p with list := l, numOfObjs := newSize, segList := p.segList.take segInUse })
    if 0 < newSize then
      if env.list then
        match used with
        | some b => (p.compactList b newSize env.junk).map fun l => rest (some l)
        | none => some (rest (some (List.range newSize)))
      else some (.oom, 0, p)
    else some (rest none)
  else some (.ok, 0, p)

def setHighWatermark (maxObj : ℕ) : SegmentPool :=
  if maxObj ≥ u32 (p.delta <<< 1) then { p with highWatermark := maxObj } else p

/-- `shrink` with objects in use, from the bitmap on. -/
def shrinkUsed (l : List ℕ) (freeSegToKeep : ℕ) (env : ShrinkEnv) :
    Option (Rc × ℕ × SegmentPool) :=
  if env.bitmap = .noObject then some (.oom, 0, p)
  else
    let used := p.freeBitmap l env.bitmap
    (p.setHighWatermark (p.maxObj used)).shrinkTo (some used)
      (u32 ((p.maxObj used >>> p.exponent) + 1 + freeSegToKeep)) env

/-- `shrink`: the code, the number of segments that are freed, and the pool. -/
def shrink (freeSegToKeep : ℕ) (env : ShrinkEnv) :
    Option (Rc × ℕ × SegmentPool) :=
  match p.isInitialized, p.list with
  | true, some l =>
    if 0 < p.numOfObjs then
      if 0 < p.begin ∧ p.segList.length = 1 then some (.ok, 0, p)
      else if (if p.hasHandler then !env.canShrink else p.isBusy) then some (.ok, 0, p)
      else if 0 < p.begin then p.shrinkUsed l freeSegToKeep env
      else (p.setHighWatermark 0).shrinkTo none freeSegToKeep env
    else some (.ok, 0, p)
  | _, _ => some (.ok, 0, p)

end SegmentPool

end Novachains.Util
