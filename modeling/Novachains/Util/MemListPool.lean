import Novachains.Util.MemBlockPool
import Novachains.Util.SegmentPool
import Novachains.Lib.Transition

/-!
# The list pool of a thread

A thread keeps blocks that were released in lists, one for each power of two from 32 on, and hands
them out again.  What its lists do not have it takes from the block pool, to which it gives back
what they do not take.
-/

namespace Novachains.Util

open Lib

def poolListNum : ℕ := 8

def listBaseExponent : ℕ := 5

def listBlockSize (i : ℕ) : ℕ := 2 ^ (listBaseExponent + i)

/-- `sizeof( utilMemListNode )`. -/
def listNodeLen : ℕ := 8

/-- The loop of `ossIsPowerOf2`. -/
def squareOf : ℕ → ℕ → ℕ
  | _, 0 => 0
  | num, fuel + 1 => if num = 1 then 0 else squareOf (num / 2) fuel + 1

/-- `ossIsPowerOf2`: the exponent of a power of two.  For a `UINT32` the loop ends after at most 31
rounds. -/
def ossIsPowerOf2 (num : ℕ) : Option ℕ :=
  if num ≠ 0 ∧ num &&& (num - 1) = 0 then some (squareOf num 32) else none

/-- `_utilMemListItem`: the blocks of a list, from `_header` on. -/
structure MemListItem where
  blocks : List ℕ
  cachedSize : ℕ
  allocCount : ℕ
  deallocCount : ℕ

structure MemPools where
  heap : Heap
  items : ℕ → MemListItem
  cachedSize : ℕ
  /-- `g_maxTCCacheSize`. -/
  maxTCCacheSize : ℕ
  /-- `_maxSize` of the block pool. -/
  maxSize : ℕ

variable (s : MemPools)

namespace MemPools

def setItem (i : ℕ) (item : MemListItem) : MemPools :=
  { s with items := Function.update s.items i item }

/-- A freed block is worth keeping. -/
def canCacheBlock (i : ℕ) : Bool :=
  let item := s.items i
  let divide := if listBlockSize i ≤ 256 then poolListNum / 2 else poolListNum
  if s.maxTCCacheSize = 0 ∨ item.allocCount * 4 < item.deallocCount ∨
      item.cachedSize + listBlockSize i > s.maxTCCacheSize / divide then false
  else s.cachedSize + listBlockSize i ≤ s.maxTCCacheSize

def canAllocBlockSize (i : ℕ) : Bool :=
  listBlockSize i ≤ 256 ∨ s.cachedSize + listBlockSize i < s.maxTCCacheSize

/-- `_utilMemListItem::alloc`. -/
def itemAlloc (ans : Answers s.heap) (i size : ℕ) : Option (MemPools × Ret) :=
  let item := { s.items i with allocCount := (s.items i).allocCount + 1 }
  match item.blocks with
  | a :: rest =>
    (s.heap a).map fun b =>
      let userSize := listBlockSize i - totalFillLen
      ({ s.setItem i
            { item with blocks := rest, cachedSize := item.cachedSize - listBlockSize i } with
          heap := Function.update s.heap a (some { b with place := .user userSize })
          cachedSize := s.cachedSize - listBlockSize i },
        ⟨some a, some userSize⟩)
  | [] =>
    (BlockPool.alloc s.maxSize s.heap ans
      (if s.canAllocBlockSize i then listBlockSize i - totalFillLen else size)).map fun res =>
        ({ s.setItem i item with heap := res.1 }, res.2)

/-- `_utilMemListItem::dealloc`. -/
def itemDealloc (released : Bool) (i a : ℕ) : Option MemPools :=
  let item := { s.items i with deallocCount := (s.items i).deallocCount + 1 }
  let s := s.setItem i item
  if s.canCacheBlock i then
    match s.heap a with
    | none => none
    | some b =>
      if headFillLen + listNodeLen ≤ b.len then
        -- the node is put over the user's bytes
        let mem := b.mem.store headFillLen (encode listNodeLen (item.blocks.head?.getD 0))
        some { s.setItem i
            { item with
              blocks := a :: item.blocks
              cachedSize := item.cachedSize + listBlockSize i } with
          heap := Function.update s.heap a (some { b with mem := mem, place := .cached i })
          cachedSize := s.cachedSize + listBlockSize i }
      else none
  else (BlockPool.release s.heap released a).map fun res => { s with heap := res.1 }

/-- `_utilMemListPool::alloc`. -/
def listAlloc (ans : Answers s.heap) (size : ℕ) : Option (MemPools × Ret) :=
  if size = 0 then some (s, ⟨none, some 0⟩)
  else
    let square := (ossNextPowerOf2 (u32 (size + totalFillLen))).2
    -- an index of -1 becomes 0, and a smaller one is out of range
    if listBaseExponent ≤ square + 1 ∧ square < listBaseExponent + poolListNum then
      let i := square - listBaseExponent
      if (s.items i).cachedSize ≥ size then s.itemAlloc ans i size
      else if i + 1 < poolListNum ∧ (s.items (i + 1)).cachedSize ≥ size then
        s.itemAlloc ans (i + 1) size
      else s.itemAlloc ans i size
    else
      (BlockPool.alloc s.maxSize s.heap ans size).map fun res => ({ s with heap := res.1 }, res.2)

/-- `_utilMemListPool::release`: the pools, and whether the pointer was set to `NULL`. -/
def listRelease (released : Bool) (a : ℕ) : Option (MemPools × Bool) :=
  match (s.heap a).bind fun b => checkAndExtract b.mem with
  | none => none
  | some (oldSize, _) =>
    match (ossIsPowerOf2 (u32 (oldSize + totalFillLen))).filter fun square =>
        listBaseExponent ≤ square ∧ square < listBaseExponent + poolListNum with
    | some square => (s.itemDealloc released (square - listBaseExponent) a).map fun s => (s, true)
    | none =>
      (BlockPool.release s.heap released a).map fun res => ({ s with heap := res.1 }, res.2)

/-- `_utilMemListPool::realloc`. -/
def listRealloc (ans : Answers s.heap) (ptr : Option ℕ) (size : ℕ) :
    Option (MemPools × Ret) :=
  if size = 0 then some (s, ⟨ptr, none⟩)
  else
    match ptr with
    | none =>
      (BlockPool.realloc s.maxSize s.heap ans none size).map fun res =>
        ({ s with heap := res.1 }, res.2)
    | some old =>
      match (s.heap old).bind fun b => checkAndExtract b.mem with
      | none => none
      | some (oldSize, _) =>
        if oldSize ≥ size then some (s, ⟨some old, some oldSize⟩)
        else do
          let (s, ret) ← s.listAlloc ans size
          match ret.ptr with
          | none => some (s, ret)
          | some new =>
            let heap ← BlockPool.copy s.heap new old oldSize
            let (s, _) ← { s with heap := heap }.listRelease ans.released old
            some (s, ret)

end MemPools

/-- The calls on the list pool and on the block pool, and a store of the user. -/
inductive MemOp
  | alloc (size : ℕ)
  | realloc (ptr : Option ℕ) (size : ℕ)
  | release (ptr : Option ℕ)
  | poolAlloc (size : ℕ)
  | poolRealloc (ptr : Option ℕ) (size : ℕ)
  | poolRelease (ptr : Option ℕ)
  | store (a off : ℕ) (bs : List UInt8)
  | setMaxTCSize (n : ℕ)

namespace MemPools

def exec (ans : Answers s.heap) : MemOp → Option (MemPools × Ret)
  | .alloc size => s.listAlloc ans size
  | .realloc ptr size => s.listRealloc ans ptr size
  | .release none => some (s, ⟨none, none⟩)
  | .release (some a) =>
    (s.listRelease ans.released a).map fun res => (res.1, ⟨if res.2 then none else some a, none⟩)
  | .poolAlloc size =>
    (BlockPool.alloc s.maxSize s.heap ans size).map fun res => ({ s with heap := res.1 }, res.2)
  | .poolRealloc ptr size =>
    (BlockPool.realloc s.maxSize s.heap ans ptr size).map fun res =>
      ({ s with heap := res.1 }, res.2)
  | .poolRelease none => some (s, ⟨none, none⟩)
  | .poolRelease (some a) =>
    (BlockPool.release s.heap ans.released a).map fun res =>
      ({ s with heap := res.1 }, ⟨if res.2 then none else some a, none⟩)
  | .store a off bs =>
    (s.heap a).map fun b =>
      ({ s with
          heap := Function.update s.heap a
            (some { b with mem := b.mem.store (headFillLen + off) bs }) },
        ⟨some a, none⟩)
  | .setMaxTCSize n => some ({ s with maxTCCacheSize := n }, ⟨none, none⟩)

def new (maxTCCacheSize maxSize : ℕ) : MemPools :=
  ⟨fun _ => none, fun _ => ⟨[], 0, 0, 0⟩, 0, maxTCCacheSize, maxSize⟩

end MemPools

end Novachains.Util
