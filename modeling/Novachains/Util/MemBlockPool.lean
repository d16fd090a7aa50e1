import Novachains.Util.MemBlock

/-!
# The block pool

`_utilMemBlockPool` takes a block from the elements of the smallest class that holds it, or of the
next class, or from the system.  The heap has the blocks that were handed out.  A segment manager
hands out an element of its class, the system as many bytes as it was asked for, and neither hands
out what is still in use.
-/

namespace Novachains.Util

open Lib Function

inductive Place
  | user (size : ℕ)
  | cached (index : ℕ)
  deriving DecidableEq

/-- A block that was handed out: its bytes, how many there are, what its header was last filled
with, and who has it. -/
structure Block where
  mem : Mem
  len : ℕ
  type : MemType
  size : ℕ
  place : Place

/-- The blocks by their addresses.  The user's pointer is `headFillLen` behind the address. -/
abbrev Heap := ℕ → Option Block

/-- **What managers and system answer**: an address that is not in use, and what is there. -/
structure Answers (heap : Heap) where
  acquire : MemType → Option (ℕ × Mem)
  malloc : Option (ℕ × Mem)
  realloc : ℕ → Option (ℕ × Mem)
  /-- Whether an element can be given back. -/
  released : Bool
  acquire_free : ∀ {t : MemType} {p : ℕ × Mem}, acquire t = some p → heap p.1 = none
  malloc_free : ∀ {p : ℕ × Mem}, malloc = some p → heap p.1 = none
  realloc_free : ∀ {a : ℕ} {p : ℕ × Mem}, realloc a = some p → p.1 = a ∨ heap p.1 = none

/-- What a call returns, and what it stores through `pRealSize`, if it does. -/
structure Ret where
  ptr : Option ℕ
  realSize : Option ℕ
  deriving DecidableEq

def allocMaxTryLevel : ℕ := 2

namespace BlockPool

def classesFrom (type : MemType) : List MemType := MemType.classes.dropWhile (· ≠ type)

/-- The cases of the switch in `alloc`, which fall through to the next class. -/
def tryAcquire (acquire : MemType → Option (ℕ × Mem)) :
    List MemType → ℕ → Option (MemType × ℕ × Mem)
  | [], _ => none
  | type :: types, tryLevel =>
    match acquire type with
    | some p => some (type, p)
    | none =>
      if tryLevel + 1 ≥ allocMaxTryLevel then none else tryAcquire acquire types (tryLevel + 1)

def handOut (heap : Heap) (a : ℕ) (mem : Mem) (len : ℕ) (type : MemType) (size : ℕ) :
    Option (Heap × Ret) :=
  (fillPtr mem len type size).map fun mem =>
    (update heap a (some ⟨mem, len, type, size, .user (realSize2Size size)⟩),
      ⟨some a, some (realSize2Size size)⟩)

/-- `_utilMemBlockPool::alloc`. -/
def alloc (maxSize : ℕ) (heap : Heap) (ans : Answers heap) (size : ℕ) : Option (Heap × Ret) :=
  if size = 0 then some (heap, ⟨none, some 0⟩)
  else
    let realSize := size2RealSize size
    let type := size2MemType realSize
    match if 0 < maxSize then tryAcquire ans.acquire (classesFrom type) 0 else none with
    | some (type, a, mem) => handOut heap a mem type.size type type.size
    | none =>
      -- the system gives nothing when it is asked for nothing
      match if realSize = 0 then none else ans.malloc with
      | some (a, mem) => handOut heap a mem realSize .dyn realSize
      | none => some (heap, ⟨none, none⟩)

/-- `ossMemcpy` of the first of the user's bytes of one block to another. -/
def copy (heap : Heap) (dst src n : ℕ) : Option Heap :=
  match heap src, heap dst with
  | some b, some b' =>
    if headFillLen + n ≤ b.len ∧ headFillLen + n ≤ b'.len then
      some (update heap dst
        (some { b' with mem := b'.mem.store headFillLen (b.mem.load headFillLen n) }))
    else none
  | _, _ => none

/-- `release`: the heap, and whether the pointer was set; only a block of the pools has a result. -/
def release (heap : Heap) (released : Bool) (a : ℕ) : Option (Heap × Bool) :=
  match (heap a).bind fun b => checkAndExtract b.mem with
  | none => none
  | some (_, type) =>
    if type = .dyn ∨ released = true then some (update heap a none, true)
    else some (heap, false)

/-- What `SDB_OSS_REALLOC` leaves in a block of `n` bytes. -/
def moved (b : Block) (n : ℕ) (mem : Mem) : Mem :=
  fun x => if x < min b.len n then b.mem x else mem x

/-- `_utilMemBlockPool::realloc`. -/
def realloc (maxSize : ℕ) (heap : Heap) (ans : Answers heap) (ptr : Option ℕ) (size : ℕ) :
    Option (Heap × Ret) :=
  if size = 0 then some (heap, ⟨ptr, none⟩)
  else
    match ptr with
    | none => alloc maxSize heap ans size
    | some old =>
      match heap old with
      | none => none
      | some b =>
        match checkAndExtract b.mem with
        | none => none
        | some (oldUserSize, oldType) =>
          if oldUserSize ≥ size then some (heap, ⟨some old, some oldUserSize⟩)
          else if oldType = .dyn then
            let newRealSize := size2RealSize size
            match if newRealSize = 0 then none else ans.realloc old with
            | some (a, mem) =>
              handOut (update heap old none) a (moved b newRealSize mem) newRealSize .dyn
                newRealSize
            | none => some (heap, ⟨none, none⟩)
          else do
            let (heap, ret) ← alloc maxSize heap ans size
            match ret.ptr with
            | none => some (heap, ret)
            | some new =>
              let heap ← copy heap new old oldUserSize
              let (heap, _) ← release heap ans.released old
              some (heap, ret)

end BlockPool

/-- The header is in place, the block has as many bytes as it says, and the user was told the
size. -/
structure Block.Ok (b : Block) : Prop where
  isSealed : Sealed b.mem b.type b.size
  fits : b.size ≤ b.len
  user : ∀ {u : ℕ}, b.place = .user u → u + totalFillLen = b.size

theorem Block.Ok.check {b : Block} {u : ℕ} (h : b.Ok) (hu : b.place = .user u) :
    checkAndExtract b.mem = some (u, b.type) := by
  rw [h.isSealed.check, ← h.user hu, Nat.add_sub_cancel]

def HeapOk (heap : Heap) : Prop := ∀ ⦃a : ℕ⦄ ⦃b : Block⦄, heap a = some b → b.Ok

/-- The blocks stay in good order, and those in the lists stay as they are. -/
structure HeapStep (heap heap' : Heap) : Prop where
  ok : HeapOk heap → HeapOk heap'
  kept : ∀ ⦃a : ℕ⦄ ⦃b : Block⦄ ⦃i : ℕ⦄, heap a = some b → b.place = .cached i → heap' a = some b

section Heap
variable {heap heap' heap'' : Heap} {a u : ℕ} {b c : Block} {i : ℕ}

theorem HeapStep.refl (heap : Heap) : HeapStep heap heap := ⟨id, fun _ _ _ h _ => h⟩

theorem HeapStep.trans (h : HeapStep heap heap') (h' : HeapStep heap' heap'') :
    HeapStep heap heap'' :=
  ⟨h'.ok ∘ h.ok, fun _ _ _ hb hi => h'.kept (h.kept hb hi) hi⟩

theorem HeapOk.update {ob : Option Block} (h : HeapOk heap) (hob : ∀ b, ob = some b → b.Ok) :
    HeapOk (update heap a ob) := by
  intro x c hc
  rw [update_apply] at hc
  split at hc
  · exact hob c hc
  · exact h hc

theorem HeapStep.update {ob : Option Block} (hob : ∀ b, ob = some b → b.Ok)
    (h : ∀ {b i}, heap a = some b → b.place ≠ .cached i) : HeapStep heap (update heap a ob) where
  ok := fun hok => hok.update hob
  kept := by
    intro x c i hc hi
    have hne : x ≠ a := by
      rintro rfl
      exact h hc hi
    rwa [update_of_ne hne]

theorem HeapStep.erase (h : ∀ {b i}, heap a = some b → b.place ≠ .cached i) :
    HeapStep heap (Function.update heap a none) := .update nofun h

theorem HeapStep.set (hb : b.Ok) (h : ∀ {b i}, heap a = some b → b.place ≠ .cached i) :
    HeapStep heap (Function.update heap a (some b)) := by
  refine .update ?_ h
  rintro c ⟨⟩
  exact hb

theorem not_cached_of_user (hb : heap a = some b) (hu : b.place = .user u)
    (hc : heap a = some c) : c.place ≠ .cached i := by
  rw [hb] at hc
  cases hc
  rw [hu]
  nofun

theorem not_cached_of_free (h : heap a = none) (hc : heap a = some c) : c.place ≠ .cached i := by
  rw [h] at hc
  cases hc

end Heap

/-- What `alloc` does: it returns nothing, or a new block that is large enough. -/
inductive Allocated (heap : Heap) (size : ℕ) : Heap → Ret → Prop
  | null {o : Option ℕ} : Allocated heap size heap ⟨none, o⟩
  | block {a u : ℕ} {b : Block} : heap a = none → b.Ok → b.place = .user u → size ≤ u →
      Allocated heap size (update heap a (some b)) ⟨some a, some u⟩

theorem Allocated.step {heap heap' : Heap} {size : ℕ} {ret : Ret}
    (h : Allocated heap size heap' ret) : HeapStep heap heap' := by
  cases h with
  | null => exact .refl heap
  | block hfree hb _ _ => exact .set hb (not_cached_of_free hfree)

/-- **A block that is returned** is large enough and begins with the user's bytes of the old one. -/
def Grants (b : Block) (u size : ℕ) (heap' : Heap) (ret : Ret) : Prop :=
  ∀ ⦃a : ℕ⦄, ret.ptr = some a → ∃ (c : Block) (v : ℕ), heap' a = some c ∧ c.place = .user v ∧
    ret.realSize = some v ∧ size ≤ v ∧
    c.mem.load headFillLen (min u size) = b.mem.load headFillLen (min u size)

structure Reallocated (heap : Heap) (b : Block) (u size : ℕ) (heap' : Heap) (ret : Ret) : Prop where
  step : HeapStep heap heap'
  grants : Grants b u size heap' ret

namespace BlockPool

variable {maxSize : ℕ} {heap heap' : Heap} {a size : ℕ} {b : Block} {ret : Ret}

theorem handOut_spec (heap : Heap) (a : ℕ) (mem : Mem) {len n : ℕ} {type : MemType}
    (hlarge : totalFillLen ≤ n) (hlen : n ≤ len) (hlt : n < 2 ^ 32)
    (hclass : type ≠ .dyn → n = type.size) :
    ∃ b : Block, handOut heap a mem len type n =
        some (update heap a (some b), ⟨some a, some (n - totalFillLen)⟩) ∧
      b.Ok ∧ b.place = .user (n - totalFillLen) ∧ b.len = len ∧
      mem.SameOn b.mem headFillLen (n - totalFillLen) := by
  obtain ⟨mem', hfill, hsealed, hsame⟩ := fillPtr_spec mem hlarge hlen hlt hclass
  refine ⟨⟨mem', len, type, n, .user (n - totalFillLen)⟩, ?_, ⟨hsealed, hlen, ?_⟩, rfl, rfl, hsame⟩
  · simp only [handOut, hfill, Option.map_some, realSize2Size_of_le hlarge hlt]
  · intro u hu
    cases hu
    exact Nat.sub_add_cancel hlarge

theorem mem_classesFrom {type t : MemType} (h : t ∈ classesFrom type) :
    t ≠ .dyn ∧ type ≠ .dyn ∧ type.size ≤ t.size := by
  revert h
  cases type <;> cases t <;> decide

theorem tryAcquire_eq_some {acquire : MemType → Option (ℕ × Mem)} {types : List MemType}
    {level a : ℕ} {t : MemType} {mem : Mem}
    (h : tryAcquire acquire types level = some (t, a, mem)) :
    t ∈ types ∧ acquire t = some (a, mem) := by
  induction types generalizing level with
  | nil => cases h
  | cons type types ih =>
    rw [tryAcquire] at h
    split at h
    · rename_i p hp
      cases h
      exact ⟨List.mem_cons_self, hp⟩
    split at h
    · cases h
    · obtain ⟨hmem, hacq⟩ := ih h
      exact ⟨List.mem_cons_of_mem _ hmem, hacq⟩

theorem totalFillLen_le_size {t : MemType} (h : t ≠ .dyn) :
    totalFillLen ≤ t.size ∧ t.size < 2 ^ 32 := by
  cases t <;> first | exact absurd rfl h | decide

/-- **`alloc` returns a block that is large enough**, if the size and the header fit 32 bits. -/
theorem alloc_spec (maxSize : ℕ) (ans : Answers heap) (hlt : size + totalFillLen < 2 ^ 32) :
    ∃ heap' ret, alloc maxSize heap ans size = some (heap', ret) ∧
      Allocated heap size heap' ret := by
  by_cases hzero : size = 0
  · exact ⟨heap, _, if_pos hzero, .null⟩
  simp only [alloc, if_neg hzero, size2RealSize_of_lt hlt]
  split
  · rename_i t a mem htry
    simp only [Option.ite_none_right_eq_some] at htry
    obtain ⟨hmem, hacq⟩ := tryAcquire_eq_some htry.2
    obtain ⟨ht, htype, hle⟩ := mem_classesFrom hmem
    obtain ⟨hlarge, hsmall⟩ := totalFillLen_le_size ht
    have hsize := le_size2MemType _ htype
    obtain ⟨b, hout, hok, hplace, -⟩ :=
      handOut_spec heap a mem hlarge (le_refl _) hsmall fun _ => rfl
    exact ⟨_, _, hout, .block (ans.acquire_free hacq) hok hplace (by omega)⟩
  · split
    · rename_i a mem hmalloc
      simp only [Option.ite_none_left_eq_some] at hmalloc
      obtain ⟨b, hout, hok, hplace, -⟩ :=
        handOut_spec heap a mem (Nat.le_add_left _ _) (le_refl _) hlt fun h => absurd rfl h
      exact ⟨_, _, hout, .block (ans.malloc_free hmalloc.2) hok hplace (by omega)⟩
    · exact ⟨_, _, rfl, .null⟩

section
variable {u : ℕ} (hb : heap a = some b) (hu : b.place = .user u) (hok : b.Ok)
include hb hu hok

theorem release_spec (released : Bool) :
    ∃ heap' f, release heap released a = some (heap', f) ∧ HeapStep heap heap' ∧
      ∀ x, x ≠ a → heap' x = heap x := by
  simp only [release, hb, Option.bind_some, hok.isSealed.check]
  split
  · exact ⟨_, _, rfl, .erase (not_cached_of_user hb hu),
      fun x hx => update_of_ne hx ..⟩
  · exact ⟨_, _, rfl, .refl heap, fun _ _ => rfl⟩

/-- What is copied to a larger block is what has to be there. -/
theorem copy_spec {dst u' : ℕ} {b' : Block} (hb' : heap dst = some b') (hok' : b'.Ok)
    (hu' : b'.place = .user u') (hlt : u < size) (hle : size ≤ u') :
    ∃ c : Block, copy heap dst a u = some (update heap dst (some c)) ∧
      HeapStep heap (update heap dst (some c)) ∧
      ∀ heap' : Heap, heap' dst = some c → Grants b u size heap' ⟨some dst, some u'⟩ := by
  have hsize := hok.user hu
  have hsize' := hok'.user hu'
  have hfits := hok.fits
  have hfits' := hok'.fits
  have htotal : totalFillLen = headFillLen + eEyeLen := rfl
  refine ⟨{ b' with mem := b'.mem.store headFillLen (b.mem.load headFillLen u) }, ?_,
    .set ⟨?_, hfits', hok'.user⟩ (not_cached_of_user hb' hu'), ?_⟩
  · simp only [copy, hb, hb']
    rw [if_pos ⟨by omega, by omega⟩]
  · refine hok'.isSealed.store (le_refl _) ?_
    rw [Mem.length_load]
    omega
  · intro heap' hc x hx
    cases hx
    refine ⟨_, u', hc, hu', rfl, hle, ?_⟩
    have hload := Mem.load_store_same b'.mem headFillLen (b.mem.load headFillLen u)
    rw [min_eq_left (le_of_lt hlt)]
    rwa [Mem.length_load] at hload

end

theorem moved_spec {old u : ℕ} (hok : HeapOk heap) (hb : heap old = some b) (hu : b.place = .user u)
    (hlt : size + totalFillLen < 2 ^ 32) (hgrow : u < size) (ha : a = old ∨ heap a = none)
    (mem : Mem) :
    ∃ heap' ret, handOut (update heap old none) a (moved b (size + totalFillLen) mem)
        (size + totalFillLen) .dyn (size + totalFillLen) = some (heap', ret) ∧
      Reallocated heap b u size heap' ret := by
  obtain ⟨c, hout, hcok, hplace, -, hsame⟩ :=
    handOut_spec (update heap old none) a (moved b (size + totalFillLen) mem)
      (Nat.le_add_left _ _) (le_refl _) hlt (fun h => absurd rfl h)
  rw [Nat.add_sub_cancel] at hout hplace hsame
  have hfree : update heap old none a = none := by
    obtain rfl | ha := ha
    · exact update_self ..
    · rw [update_apply, ha, ite_self]
  refine ⟨_, _, hout, ?_, ?_⟩
  · exact .trans (.erase (not_cached_of_user hb hu)) (.set hcok (not_cached_of_free hfree))
  · intro x hx
    cases hx
    refine ⟨c, size, update_self .., hplace, rfl, le_refl _, ?_⟩
    have hsize := (hok hb).user hu
    have hfits := (hok hb).fits
    have htotal : totalFillLen = headFillLen + eEyeLen := rfl
    rw [min_eq_left (by omega), Mem.load_congr (hsame.mono (le_refl _) (by omega))]
    refine Mem.load_congr fun x _ hx => if_pos ?_
    omega

/-- **`realloc` returns a block that is large enough**, with the user's bytes. -/
theorem realloc_spec {old u : ℕ} (maxSize : ℕ) (ans : Answers heap) (hok : HeapOk heap)
    (hb : heap old = some b) (hu : b.place = .user u) (hpos : 0 < size)
    (hlt : size + totalFillLen < 2 ^ 32) :
    ∃ heap' ret, realloc maxSize heap ans (some old) size = some (heap', ret) ∧
      Reallocated heap b u size heap' ret := by
  simp only [realloc, if_neg (ne_of_gt hpos), hb, (hok hb).check hu, size2RealSize_of_lt hlt]
  split_ifs with hge hdyn
  · refine ⟨_, _, rfl, .refl heap, ?_⟩
    intro a ha
    cases ha
    exact ⟨b, u, hb, hu, rfl, hge, rfl⟩
  · omega
  · cases hans : ans.realloc old with
    | none => exact ⟨_, _, rfl, .refl heap, nofun⟩
    | some p =>
      obtain ⟨a, mem⟩ := p
      exact moved_spec hok hb hu hlt (by omega) (ans.realloc_free hans) mem
  · obtain ⟨heap₁, ret, halloc, hres⟩ := alloc_spec maxSize ans hlt
    have hstep := hres.step
    simp only [halloc, Option.bind_eq_bind, Option.bind_some]
    cases hres with
    | null => exact ⟨_, _, rfl, .refl heap, nofun⟩
    | @block new v b₁ hfree hok₁ hv hle =>
      have hne : old ≠ new := by
        rintro rfl
        rw [hb] at hfree
        cases hfree
      have hb₁ : update heap new (some b₁) old = some b := by
        rw [update_of_ne hne, hb]
      obtain ⟨c, hcopy, hcopied, hgrants⟩ :=
        copy_spec hb₁ hu (hok hb) (update_self ..) hok₁ hv (Nat.lt_of_not_le hge) hle
      have hb₂ : update (update heap new (some b₁)) new (some c) old = some b := by
        rw [update_of_ne hne, hb₁]
      obtain ⟨heap₃, f, hrel, hreleased, hframe⟩ := release_spec hb₂ hu (hok hb) ans.released
      simp only [hcopy, hrel, Option.bind_some]
      refine ⟨_, _, rfl, (hstep.trans hcopied).trans hreleased, hgrants _ ?_⟩
      rw [hframe new hne.symm, update_self]

end BlockPool

end Novachains.Util
