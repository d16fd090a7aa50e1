import Novachains.Util.MemListPool

/-!
# The pools never return too small a block

In the 32 bits of a size there is no room for the header of the last few sizes.  For all others a
block that `alloc` or `realloc` returns is at least as large as asked for, its header says how
large it is, and nothing that happens to it later changes what the header says.
-/

namespace Novachains.Util

open Lib Function Option

namespace MemPools

def Held (s : MemPools) (a u : ℕ) : Prop := ∃ b, s.heap a = some b ∧ b.place = .user u

/-- **The header of a block says what it was filled with**, and the block has that much. -/
def Recorded (s : MemPools) (a u : ℕ) : Prop :=
  ∃ b, s.heap a = some b ∧ b.place = .user u ∧ checkAndExtract b.mem = some (u, b.type) ∧
    b.size = u + totalFillLen ∧ b.size ≤ b.len

def userBytes (s : MemPools) (a n : ℕ) : Option (List UInt8) :=
  (s.heap a).map fun b => b.mem.load headFillLen n

end MemPools

namespace MemOp

/-- The user keeps to the blocks it has, and in them to the size it was told. -/
def Allowed (s : MemPools) : MemOp → Prop
  | .realloc (some a) _ | .poolRealloc (some a) _ | .release (some a) | .poolRelease (some a) =>
    ∃ u, s.Held a u
  | .store a off bs => ∃ u, s.Held a u ∧ off + bs.length ≤ u
  | _ => True

def Safe : MemOp → Prop
  | .alloc size | .realloc _ size | .poolAlloc size | .poolRealloc _ size =>
    size + totalFillLen < 2 ^ 32
  | _ => True

/-- **What a call has to do.**  A block that is returned is large enough, and begins with the bytes
of the old one. -/
def Post (s s' : MemPools) (ret : Ret) : MemOp → Prop
  | .alloc size | .poolAlloc size =>
    0 < size → ∀ a, ret.ptr = some a → ∃ u, ret.realSize = some u ∧ size ≤ u ∧ s'.Recorded a u
  | .realloc ptr size | .poolRealloc ptr size =>
    0 < size → ∀ a, ret.ptr = some a →
      (∃ u, ret.realSize = some u ∧ size ≤ u ∧ s'.Recorded a u) ∧
      ∀ old u, ptr = some old → s.Held old u →
        s'.userBytes a (min u size) = s.userBytes old (min u size)
  | _ => True

end MemOp

def safeMemSystem : System MemPools where
  init s := ∃ maxTCCacheSize maxSize, s = .new maxTCCacheSize maxSize
  step s s' := ∃ (op : MemOp) (ans : Answers s.heap) (ret : Ret),
    op.Allowed s ∧ op.Safe ∧ s.exec ans op = some (s', ret)

theorem squareOf_spec {num fuel : ℕ} (hpos : num ≠ 0) (hand : num &&& (num - 1) = 0)
    (hlt : num < 2 ^ fuel) : num = 2 ^ squareOf num fuel := by
  induction fuel generalizing num with
  | zero => omega
  | succ fuel ih =>
    rw [squareOf]
    split
    · rename_i h
      rw [h, pow_zero]
    have hhalf : num / 2 &&& (num - 1) / 2 = 0 := by
      rw [← Nat.and_div_two, hand, Nat.zero_div]
    obtain heven | hodd := Nat.mod_two_eq_zero_or_one num
    · have hpred : (num - 1) / 2 = num / 2 - 1 := by omega
      rw [hpred] at hhalf
      have hrec := ih (by omega) hhalf (by omega)
      rw [pow_succ, ← hrec]
      omega
    · -- an odd number shares its higher bits with its predecessor
      have hpred : (num - 1) / 2 = num / 2 := by omega
      rw [hpred, Nat.and_self] at hhalf
      omega

theorem ossIsPowerOf2_eq_some {num square : ℕ} (hlt : num < 2 ^ 32)
    (h : ossIsPowerOf2 num = some square) : num = 2 ^ square := by
  simp only [ossIsPowerOf2, ite_none_right_eq_some, some_inj] at h
  obtain ⟨⟨hpos, hand⟩, rfl⟩ := h
  exact squareOf_spec hpos hand hlt

theorem le_nextPowerOf2From {num square fuel : ℕ} (h : num ≤ 2 ^ (square + fuel)) :
    num ≤ 2 ^ nextPowerOf2From num square fuel := by
  induction fuel generalizing square with
  | zero => exact h
  | succ fuel ih =>
    rw [nextPowerOf2From]
    split
    · refine ih ?_
      rwa [add_right_comm]
    · rename_i hle
      exact Nat.le_of_not_lt hle

theorem le_ossNextPowerOf2 {num : ℕ} (h : num < 2 ^ 32) : num ≤ 2 ^ (ossNextPowerOf2 num).2 :=
  le_nextPowerOf2From (by omega)

/-! ## The lists -/

/-- **The invariant of the pools**: every block is in good order, and the lists have blocks of
their size, each once. -/
structure MemInv (s : MemPools) : Prop where
  ok : HeapOk s.heap
  cached : ∀ {i a : ℕ}, a ∈ (s.items i).blocks →
    ∃ b, s.heap a = some b ∧ b.place = .cached i ∧ b.size = listBlockSize i
  nodup : ∀ i, (s.items i).blocks.Nodup

/-- What `alloc` does: it returns nothing, or a block the user did not have that is large
enough. -/
inductive ListAllocated (s : MemPools) (size : ℕ) (s' : MemPools) : Ret → Prop
  | null {o : Option ℕ} : s'.heap = s.heap → ListAllocated s size s' ⟨none, o⟩
  | block {a u : ℕ} {b : Block} : (∀ v, ¬s.Held a v) → s'.heap = update s.heap a (some b) →
      b.place = .user u → size ≤ u → ListAllocated s size s' ⟨some a, some u⟩

section Lists
variable {s s' : MemPools} {a i u size : ℕ} {b : Block}

theorem MemInv.frame (h : MemInv s) (hitems : ∀ i, (s'.items i).blocks = (s.items i).blocks)
    (hstep : HeapStep s.heap s'.heap) : MemInv s' where
  ok := hstep.ok h.ok
  cached := by
    intro i a ha
    rw [hitems] at ha
    obtain ⟨b, hb, hplace, hsize⟩ := h.cached ha
    exact ⟨b, hstep.kept hb hplace, hplace, hsize⟩
  nodup := by
    intro i
    rw [hitems]
    exact h.nodup i

theorem blocks_setItem (s : MemPools) (item : MemListItem)
    (h : item.blocks = (s.items i).blocks) (j : ℕ) :
    ((s.setItem i item).items j).blocks = (s.items j).blocks := by
  by_cases hj : j = i
  · subst hj
    simp [MemPools.setItem, h]
  · simp [MemPools.setItem, hj]

theorem MemInv.not_mem (h : MemInv s) (hb : s.heap a = some b) (hu : b.place = .user u) :
    a ∉ (s.items i).blocks := by
  intro ha
  obtain ⟨c, hc, hplace, -⟩ := h.cached ha
  exact not_cached_of_user hb hu hc hplace

theorem MemInv.pop (h : MemInv s) {rest : List ℕ} (hlist : (s.items i).blocks = a :: rest)
    (hb : s.heap a = some b) (hu : u + totalFillLen = b.size) {item : MemListItem}
    (hitem : item.blocks = rest)
    (hheap : s'.heap = update s.heap a (some { b with place := .user u }))
    (hitems : s'.items = update s.items i item) : MemInv s' := by
  have hplace : b.place = .cached i := by
    obtain ⟨c, hc, hplace, -⟩ := h.cached (i := i) (a := a) (by simp [hlist])
    rw [hb] at hc
    cases hc
    exact hplace
  have hnodup := h.nodup i
  rw [hlist, List.nodup_cons] at hnodup
  -- what is still in a list was in it before, and is another block
  have hmem : ∀ {j x}, x ∈ (s'.items j).blocks → x ∈ (s.items j).blocks ∧ x ≠ a := by
    intro j x hx
    rw [hitems, update_apply] at hx
    split at hx
    · rename_i hj
      subst hj
      rw [hitem] at hx
      refine ⟨by simp [hlist, hx], ?_⟩
      rintro rfl
      exact hnodup.1 hx
    · rename_i hj
      refine ⟨hx, ?_⟩
      rintro rfl
      obtain ⟨c, hc, hcached, -⟩ := h.cached hx
      rw [hb] at hc
      cases hc
      rw [hplace] at hcached
      cases hcached
      exact hj rfl
  refine ⟨?_, ?_, ?_⟩
  · rw [hheap]
    refine h.ok.update ?_
    rintro _ ⟨⟩
    refine ⟨(h.ok hb).isSealed, (h.ok hb).fits, ?_⟩
    intro v hv
    cases hv
    exact hu
  · intro j x hx
    obtain ⟨hx, hne⟩ := hmem hx
    rw [hheap, update_of_ne hne]
    exact h.cached hx
  · intro j
    rw [hitems, update_apply]
    split
    · rw [hitem]
      exact hnodup.2
    · exact h.nodup j

theorem MemInv.push (h : MemInv s) (hb : s.heap a = some b) (hu : b.place = .user u)
    (hsize : b.size = listBlockSize i) {mem : Mem} (hmem : Sealed mem b.type b.size)
    {item : MemListItem} (hitem : item.blocks = a :: (s.items i).blocks)
    (hheap : s'.heap = update s.heap a (some { b with mem := mem, place := .cached i }))
    (hitems : s'.items = update s.items i item) : MemInv s' := by
  refine ⟨?_, ?_, ?_⟩
  · rw [hheap]
    refine h.ok.update ?_
    rintro _ ⟨⟩
    exact ⟨hmem, (h.ok hb).fits, nofun⟩
  · intro j x hx
    rw [hheap, update_apply]
    rw [hitems, update_apply] at hx
    split at hx
    · rename_i hj
      subst hj
      rw [hitem, List.mem_cons] at hx
      obtain rfl | hx := hx
      · exact ⟨_, if_pos rfl, rfl, hsize⟩
      have hne : x ≠ a := by
        rintro rfl
        exact h.not_mem hb hu hx
      rw [if_neg hne]
      exact h.cached hx
    · have hne : x ≠ a := by
        rintro rfl
        exact h.not_mem hb hu hx
      rw [if_neg hne]
      exact h.cached hx
  · intro j
    rw [hitems, update_apply]
    split
    · rename_i hj
      rw [hitem, List.nodup_cons]
      exact ⟨h.not_mem hb hu, h.nodup i⟩
    · exact h.nodup j

theorem Allocated.list {heap' : Heap} {ret : Ret} {n : ℕ} (h : Allocated s.heap n heap' ret)
    (hn : size ≤ n) (hheap : s'.heap = heap') : ListAllocated s size s' ret := by
  cases h with
  | null => exact .null hheap
  | block hfree hok hu hle =>
    refine .block ?_ hheap hu (le_trans hn hle)
    rintro v ⟨c, hc, -⟩
    rw [hfree] at hc
    cases hc

theorem totalFillLen_le_listBlockSize (i : ℕ) : totalFillLen + listNodeLen ≤ listBlockSize i := by
  have hpow : 2 ^ listBaseExponent ≤ 2 ^ (listBaseExponent + i) :=
    Nat.pow_le_pow_right (by decide) (Nat.le_add_right _ _)
  exact le_trans (by decide) hpow

section
variable (h : MemInv s)
include h

/-- **A list gives a block that is large enough**, of its own or from the block pool. -/
theorem itemAlloc_spec (ans : Answers s.heap) (hi : i < poolListNum)
    (hsize : size + totalFillLen ≤ listBlockSize i) :
    ∃ s' ret, s.itemAlloc ans i size = some (s', ret) ∧ MemInv s' ∧
      ListAllocated s size s' ret := by
  have hlarge := totalFillLen_le_listBlockSize i
  have hlt : listBlockSize i < 2 ^ 32 := by
    refine Nat.pow_lt_pow_right (by decide) ?_
    unfold listBaseExponent
    unfold poolListNum at hi
    omega
  cases hlist : (s.items i).blocks with
  | cons a rest =>
    obtain ⟨b, hb, hplace, hbsize⟩ := h.cached (i := i) (a := a) (by simp [hlist])
    simp only [MemPools.itemAlloc, hlist, hb, map_some]
    refine ⟨_, _, rfl, h.pop hlist hb (by omega) rfl rfl rfl, .block ?_ rfl rfl (by omega)⟩
    rintro v ⟨c, hc, hv⟩
    rw [hb] at hc
    cases hc
    rw [hplace] at hv
    cases hv
  | nil =>
    simp only [MemPools.itemAlloc, hlist]
    have hask : size ≤ (if s.canAllocBlockSize i then listBlockSize i - totalFillLen else size) ∧
        (if s.canAllocBlockSize i then listBlockSize i - totalFillLen else size) + totalFillLen <
          2 ^ 32 := by
      split <;> omega
    obtain ⟨heap', ret, halloc, hres⟩ := BlockPool.alloc_spec s.maxSize ans hask.2
    rw [halloc, map_some]
    exact ⟨_, _, rfl, h.frame (blocks_setItem s _ hlist.symm) hres.step, hres.list hask.1 rfl⟩

theorem poolAlloc_spec (ans : Answers s.heap) (hlt : size + totalFillLen < 2 ^ 32) :
    ∃ heap' ret, BlockPool.alloc s.maxSize s.heap ans size = some (heap', ret) ∧
      MemInv { s with heap := heap' } ∧ ListAllocated s size { s with heap := heap' } ret := by
  obtain ⟨heap', ret, halloc, hres⟩ := BlockPool.alloc_spec s.maxSize ans hlt
  exact ⟨heap', ret, halloc, h.frame (fun _ => rfl) hres.step, hres.list (le_refl _) rfl⟩

/-- **`alloc` gives a block that is large enough.** -/
theorem listAlloc_spec (ans : Answers s.heap) (hlt : size + totalFillLen < 2 ^ 32) :
    ∃ s' ret, s.listAlloc ans size = some (s', ret) ∧ MemInv s' ∧ ListAllocated s size s' ret := by
  by_cases hzero : size = 0
  · exact ⟨s, _, if_pos hzero, h, .null rfl⟩
  simp only [MemPools.listAlloc, if_neg hzero, u32_of_lt hlt]
  split
  · rename_i hrange
    have hsquare := le_ossNextPowerOf2 hlt
    generalize (ossNextPowerOf2 (size + totalFillLen)).2 = square at hrange hsquare ⊢
    have hfit {i : ℕ} (hi : square ≤ listBaseExponent + i) :
        size + totalFillLen ≤ listBlockSize i :=
      le_trans hsquare (Nat.pow_le_pow_right (by decide) hi)
    have hbase : listBaseExponent = 5 := rfl
    have hnum : poolListNum = 8 := rfl
    split_ifs with hfirst hnext
    · exact itemAlloc_spec h ans (by omega) (hfit (by omega))
    · exact itemAlloc_spec h ans hnext.1 (hfit (by omega))
    · exact itemAlloc_spec h ans (by omega) (hfit (by omega))
  · obtain ⟨heap', ret, halloc, hinv, hres⟩ := poolAlloc_spec h ans hlt
    rw [halloc, map_some]
    exact ⟨_, _, rfl, hinv, hres⟩

theorem itemDealloc_spec (hb : s.heap a = some b) (hu : b.place = .user u)
    (hsize : b.size = listBlockSize i) (released : Bool) :
    ∃ s', s.itemDealloc released i a = some s' ∧ MemInv s' ∧
      ∀ x, x ≠ a → s'.heap x = s.heap x := by
  have hlarge := totalFillLen_le_listBlockSize i
  have hfits := (h.ok hb).fits
  have htotal : totalFillLen = headFillLen + eEyeLen := rfl
  unfold MemPools.itemDealloc
  dsimp only
  split
  · have hb' : (s.setItem i
        { s.items i with deallocCount := (s.items i).deallocCount + 1 }).heap a = some b := hb
    rw [hb']
    dsimp only
    rw [if_pos (by omega)]
    refine ⟨_, rfl, ?_, fun x hx => update_of_ne hx ..⟩
    refine h.push hb hu hsize ?_ ?_ rfl (update_idem ..)
    · refine (h.ok hb).isSealed.store (le_refl _) ?_
      rw [length_encode]
      omega
    · rfl
  · obtain ⟨heap', f, hrel, hstep, hframe⟩ := BlockPool.release_spec hb hu (h.ok hb) released
    have hrel' : BlockPool.release
        (s.setItem i { s.items i with deallocCount := (s.items i).deallocCount + 1 }).heap released
        a = some (heap', f) := hrel
    rw [hrel', map_some]
    exact ⟨_, rfl, h.frame (blocks_setItem s _ rfl) hstep, hframe⟩

/-- **`release` takes a block of the user.** -/
theorem listRelease_spec (hb : s.heap a = some b) (hu : b.place = .user u)
    (released : Bool) :
    ∃ s' f, s.listRelease released a = some (s', f) ∧ MemInv s' ∧
      ∀ x, x ≠ a → s'.heap x = s.heap x := by
  have hok := h.ok hb
  have hlt := hok.isSealed.size_lt
  have hsize : u32 (b.size - totalFillLen + totalFillLen) = b.size := by
    rw [Nat.sub_add_cancel hok.isSealed.large, u32_of_lt hlt]
  simp only [MemPools.listRelease, hb, bind_some, hok.isSealed.check, hsize]
  split
  · rename_i square hsquare
    rw [filter_eq_some_iff] at hsquare
    obtain ⟨hpow, hrange⟩ := hsquare
    have hrange : listBaseExponent ≤ square ∧ square < listBaseExponent + poolListNum := by
      simpa using hrange
    have hblock : b.size = listBlockSize (square - listBaseExponent) := by
      rw [ossIsPowerOf2_eq_some hlt hpow, listBlockSize, Nat.add_sub_cancel' hrange.1]
    obtain ⟨s', hdealloc, hinv, hframe⟩ := itemDealloc_spec h hb hu hblock released
    rw [hdealloc, map_some]
    exact ⟨_, _, rfl, hinv, hframe⟩
  · obtain ⟨heap', f, hrel, hstep, hframe⟩ := BlockPool.release_spec hb hu (h.ok hb) released
    rw [hrel, map_some]
    exact ⟨_, _, rfl, h.frame (fun _ => rfl) hstep, hframe⟩

/-- **`realloc` gives a block that is large enough**, with the user's bytes. -/
theorem listRealloc_spec {old : ℕ} (ans : Answers s.heap) (hb : s.heap old = some b)
    (hu : b.place = .user u) (hpos : 0 < size) (hlt : size + totalFillLen < 2 ^ 32) :
    ∃ s' ret, s.listRealloc ans (some old) size = some (s', ret) ∧ MemInv s' ∧
      Grants b u size s'.heap ret := by
  simp only [MemPools.listRealloc, if_neg (ne_of_gt hpos), hb, bind_some,
    (h.ok hb).check hu]
  split
  · rename_i hge
    refine ⟨_, _, rfl, h, ?_⟩
    intro a ha
    cases ha
    exact ⟨b, u, hb, hu, rfl, hge, rfl⟩
  · rename_i hlt'
    obtain ⟨s₁, ret, halloc, h₁, hres⟩ := listAlloc_spec h ans hlt
    simp only [halloc, bind_eq_bind, bind_some]
    cases hres with
    | null _ => exact ⟨_, _, rfl, h₁, nofun⟩
    | @block new v b₁ hnot hheap hv hle =>
      have hne : old ≠ new := by
        rintro rfl
        exact hnot u ⟨b, hb, hu⟩
      have hold : s₁.heap old = some b := by
        rw [hheap, update_of_ne hne, hb]
      have hnew : s₁.heap new = some b₁ := by
        rw [hheap, update_self]
      obtain ⟨c, hcopy, hcopied, hgrants⟩ := BlockPool.copy_spec hold hu (h.ok hb) hnew (h₁.ok hnew)
        hv (Nat.lt_of_not_le hlt') hle
      simp only [hcopy, bind_some]
      -- the copy is made, and then the old block is released
      have h₂ : MemInv { s₁ with heap := update s₁.heap new (some c) } :=
        h₁.frame (fun _ => rfl) hcopied
      have hold₂ : update s₁.heap new (some c) old = some b := by
        rw [update_of_ne hne, hold]
      obtain ⟨s₃, f, hrel, h₃, hframe⟩ := listRelease_spec h₂ hold₂ hu ans.released
      simp only [hrel, bind_some]
      refine ⟨_, _, rfl, h₃, hgrants _ ?_⟩
      rw [hframe new hne.symm]
      exact update_self ..

end

end Lists

section Runs
variable {s s' : MemPools} {a u size : ℕ} {b : Block} {ret : Ret}

theorem MemInv.recorded (h : MemInv s) (hb : s.heap a = some b) (hu : b.place = .user u) :
    s.Recorded a u := by
  have hok := h.ok hb
  exact ⟨b, hb, hu, hok.check hu, (hok.user hu).symm, hok.fits⟩

theorem ListAllocated.post (h : ListAllocated s size s' ret) (hinv : MemInv s') :
    ∀ a, ret.ptr = some a → ∃ u, ret.realSize = some u ∧ size ≤ u ∧ s'.Recorded a u := by
  intro a ha
  cases h with
  | null _ => cases ha
  | block _ hheap hu hle =>
    cases ha
    exact ⟨_, rfl, hle, hinv.recorded (by rw [hheap, update_self]) hu⟩

theorem Grants.post {old : ℕ} (h : Grants b u size s'.heap ret) (hinv : MemInv s')
    (hb : s.heap old = some b) (hu : b.place = .user u) :
    ∀ a, ret.ptr = some a → (∃ v, ret.realSize = some v ∧ size ≤ v ∧ s'.Recorded a v) ∧
      ∀ x v, some old = some x → s.Held x v →
        s'.userBytes a (min v size) = s.userBytes x (min v size) := by
  intro a ha
  obtain ⟨c, v, hc, hv, hret, hle, hload⟩ := h ha
  refine ⟨⟨v, hret, hle, hinv.recorded hc hv⟩, ?_⟩
  rintro x w ⟨⟩ ⟨d, hd, hw⟩
  rw [hb] at hd
  cases hd
  rw [hu] at hw
  cases hw
  simp only [MemPools.userBytes, hc, hb, map_some, hload]

/-- **A call does what it has to do**, and keeps the invariant. -/
theorem MemInv.exec (h : MemInv s) (ans : Answers s.heap) {op : MemOp} (hallowed : op.Allowed s)
    (hsafe : op.Safe) :
    ∃ s' ret, s.exec ans op = some (s', ret) ∧ MemInv s' ∧ op.Post s s' ret := by
  cases op with
  | alloc size =>
    obtain ⟨s', ret, hexec, hinv, hres⟩ := listAlloc_spec h ans hsafe
    exact ⟨s', ret, hexec, hinv, fun _ => hres.post hinv⟩
  | realloc ptr size =>
    obtain rfl | hpos := eq_zero_or_pos size
    · exact ⟨s, _, rfl, h, fun hpos => absurd hpos (lt_irrefl 0)⟩
    cases ptr with
    | none =>
      obtain ⟨heap', ret, halloc, hinv, hres⟩ := poolAlloc_spec h ans hsafe
      refine ⟨_, ret, ?_, hinv, ?_⟩
      · simp only [MemPools.exec, MemPools.listRealloc, BlockPool.realloc,
          if_neg (ne_of_gt hpos), halloc, map_some]
      intro _ a ha
      refine ⟨hres.post hinv a ha, ?_⟩
      intro old u hold
      cases hold
    | some old =>
      obtain ⟨u, b, hb, hu⟩ := hallowed
      obtain ⟨s', ret, hexec, hinv, hres⟩ := listRealloc_spec h ans hb hu hpos hsafe
      exact ⟨s', ret, hexec, hinv, fun _ => hres.post hinv hb hu⟩
  | release ptr =>
    cases ptr with
    | none => exact ⟨s, _, rfl, h, trivial⟩
    | some a =>
      obtain ⟨u, b, hb, hu⟩ := hallowed
      obtain ⟨s', f, hrel, hinv, -⟩ := listRelease_spec h hb hu ans.released
      refine ⟨s', ⟨if f then none else some a, none⟩, ?_, hinv, trivial⟩
      simp only [MemPools.exec, hrel, map_some]
  | poolAlloc size =>
    obtain ⟨heap', ret, halloc, hinv, hres⟩ := poolAlloc_spec h ans hsafe
    refine ⟨_, ret, ?_, hinv, fun _ => hres.post hinv⟩
    simp only [MemPools.exec, halloc, map_some]
  | poolRealloc ptr size =>
    obtain rfl | hpos := eq_zero_or_pos size
    · exact ⟨s, _, rfl, h, fun hpos => absurd hpos (lt_irrefl 0)⟩
    cases ptr with
    | none =>
      obtain ⟨heap', ret, halloc, hinv, hres⟩ := poolAlloc_spec h ans hsafe
      refine ⟨_, ret, ?_, hinv, ?_⟩
      · simp only [MemPools.exec, BlockPool.realloc, if_neg (ne_of_gt hpos), halloc, map_some]
      intro _ a ha
      refine ⟨hres.post hinv a ha, ?_⟩
      intro old u hold
      cases hold
    | some old =>
      obtain ⟨u, b, hb, hu⟩ := hallowed
      obtain ⟨heap', ret, hexec, hres⟩ :=
        BlockPool.realloc_spec s.maxSize ans h.ok hb hu hpos hsafe
      have hinv : MemInv { s with heap := heap' } := h.frame (fun _ => rfl) hres.step
      refine ⟨_, ret, ?_, hinv, fun _ => hres.grants.post hinv hb hu⟩
      simp only [MemPools.exec, hexec, map_some]
  | poolRelease ptr =>
    cases ptr with
    | none => exact ⟨s, _, rfl, h, trivial⟩
    | some a =>
      obtain ⟨u, b, hb, hu⟩ := hallowed
      obtain ⟨heap', f, hrel, hstep, -⟩ := BlockPool.release_spec hb hu (h.ok hb) ans.released
      refine ⟨{ s with heap := heap' }, ⟨if f then none else some a, none⟩, ?_,
        h.frame (fun _ => rfl) hstep, trivial⟩
      simp only [MemPools.exec, hrel, map_some]
  | store a off bs =>
    obtain ⟨u, ⟨b, hb, hu⟩, hle⟩ := hallowed
    have hsize := (h.ok hb).user hu
    have htotal : totalFillLen = headFillLen + eEyeLen := rfl
    have hok : Block.Ok { b with mem := b.mem.store (headFillLen + off) bs } :=
      ⟨(h.ok hb).isSealed.store (Nat.le_add_right _ _) (by omega), (h.ok hb).fits, (h.ok hb).user⟩
    refine ⟨{ s with heap := update s.heap a (some _) }, ⟨some a, none⟩, ?_,
      h.frame (fun _ => rfl) (.set hok (not_cached_of_user hb hu)), trivial⟩
    simp only [MemPools.exec, hb, map_some]
  | setMaxTCSize n =>
    exact ⟨_, _, rfl, h.frame (fun _ => rfl) (.refl _), trivial⟩

theorem memInv_invariant : safeMemSystem.Invariant MemInv where
  init := by
    rintro s ⟨maxTC, maxSize, rfl⟩
    exact ⟨nofun, nofun, fun _ => List.nodup_nil⟩
  step := by
    rintro s s' h ⟨op, ans, ret, hallowed, hsafe, hexec⟩
    obtain ⟨s₁, ret₁, hexec₁, hinv, -⟩ := h.exec ans hallowed hsafe
    rw [hexec₁] at hexec
    cases hexec
    exact hinv

/-- **The pools never return too small a block**, as long as sizes leave room for the header in 32
bits: every call returns a block that is large enough and has the old bytes. -/
theorem blocks_large_enough (hs : safeMemSystem.Reachable s) :
    (∀ a u, s.Held a u → s.Recorded a u) ∧
      ∀ (op : MemOp) (ans : Answers s.heap), op.Allowed s → op.Safe →
        ∃ s' ret, s.exec ans op = some (s', ret) ∧ op.Post s s' ret := by
  have h := memInv_invariant.reachable hs
  constructor
  · rintro a u ⟨b, hb, hu⟩
    exact h.recorded hb hu
  · intro op ans hallowed hsafe
    obtain ⟨s', ret, hexec, -, hpost⟩ := h.exec ans hallowed hsafe
    exact ⟨s', ret, hexec, hpost⟩

end Runs

/-- Answers when nothing is in use yet: every segment manager has an element. -/
def firstAnswers : Answers fun _ => none where
  acquire _ := some (0, fun _ => 0)
  malloc := some (0, fun _ => 0)
  realloc _ := none
  released := true
  acquire_free _ := rfl
  malloc_free _ := rfl
  realloc_free := nofun

/-- A block for 100 bytes is one of 128, of which the user has 118. -/
theorem blocks_large_enough_hundred :
    ∃ s : MemPools, s.Held 0 118 ∧ s.Recorded 0 118 ∧
      ∀ ans : Answers s.heap, ∃ s' ret, s.exec ans (.realloc (some 0) 1000) = some (s', ret) ∧
        (MemOp.realloc (some 0) 1000).Post s s' ret := by
  have h : safeMemSystem.Reachable (.new 2097152 8589934592) := .init ⟨_, _, rfl⟩
  have h := h.step ⟨.alloc 100, firstAnswers, _, trivial,
    (by decide : 100 + totalFillLen < 2 ^ 32), rfl⟩
  obtain ⟨hrec, hcalls⟩ := blocks_large_enough h
  exact ⟨_, ⟨_, rfl, rfl⟩, hrec 0 118 ⟨_, rfl, rfl⟩,
    fun ans => hcalls (.realloc (some 0) 1000) ans ⟨118, _, rfl, rfl⟩
      (by decide : 1000 + totalFillLen < 2 ^ 32)⟩

/-- **A block of 22 bytes is returned for 4294967295**: with the header the size wraps to 9. -/
theorem block_too_small :
    ∃ s', (MemPools.new 2097152 8589934592).exec firstAnswers (.alloc 4294967295) =
        some (s', ⟨some 0, some 22⟩) ∧
      ¬(MemOp.alloc 4294967295).Post (.new 2097152 8589934592) s' ⟨some 0, some 22⟩ := by
  refine ⟨_, rfl, ?_⟩
  intro hpost
  obtain ⟨u, hu, hle, -⟩ := hpost (by decide) 0 rfl
  cases hu
  exact absurd hle (by decide)

end Novachains.Util
