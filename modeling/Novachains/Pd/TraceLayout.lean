import Novachains.Pd.TraceDump
import Mathlib.Data.Nat.ModEq

/-!
# How records lie in the trace buffer

The records of one thread fill chunk after chunk.  In the buffer are the chunks of a window that
moves with the writer; what the older chunks have left is overwritten.
-/

namespace Novachains.Pd

open Lib TraceBuffer List

structure Quiescent (a : Alloc) : Prop where
  free : a.alloc = false
  ptr2 : a.ptr2 = a.ptr.other

theorem reserveMemory_fits {a : Alloc} (mem : Mem) (bufSize : ℕ) {size : ℕ}
    (hsize : size ≤ traceChunkSize) (hfits : (a.pair a.ptr).b + size ≤ (a.pair a.ptr).e) :
    reserveMemory bufSize 20 a mem (.enter size)
      = some (a.setB a.ptr ((a.pair a.ptr).b + size), mem, (a.pair a.ptr).b) := by
  have hover : ¬(a.pair a.ptr).b + size > (a.pair a.ptr).e := not_lt.mpr hfits
  simp [reserveMemory, ReservePc.enter, ReservePc.next, pad, not_lt.mpr hsize, hover]

theorem reserveMemory_overruns {a : Alloc} (ha : Quiescent a) (mem : Mem) (bufSize : ℕ) {size : ℕ}
    (hsize : size ≤ traceChunkSize) (hover : (a.pair a.ptr).b + size > (a.pair a.ptr).e) :
    ∃ a', Quiescent a' ∧ a'.pair a'.ptr
        = ⟨(a.pair a.ptr).e + size, (a.pair a.ptr).e + traceChunkSize⟩
      ∧ reserveMemory bufSize 20 a mem (.enter size) = some (a',
        if (a.pair a.ptr).b < (a.pair a.ptr).e then mem.store ((a.pair a.ptr).b % bufSize) [0]
        else mem, (a.pair a.ptr).e) := by
  obtain ⟨hfree, hptr2⟩ := ha
  have hfits : ¬(a.pair a.ptr).e + size > (a.pair a.ptr).e + traceChunkSize := by omega
  simp only [reserveMemory, ReservePc.next, ReservePc.enter, gt_iff_lt, not_lt.mpr hsize,
    ↓reduceIte, hover, Alloc.setB_alloc, hfree, Bool.false_eq_true, Alloc.setB_ptr, Alloc.setB_ptr2,
    hptr2, Alloc.setE_ptr2, Alloc.setE_alloc, Alloc.setE_ptr, Alloc.setE_e_same, Alloc.setE_b,
    Alloc.setB_b_same, hfits, pad, Option.some.injEq, Prod.mk.injEq, and_true,
    exists_eq_right_right']
  exact ⟨⟨rfl, a.ptr.other_other.symm⟩, by simp [Alloc.setB, Alloc.setE]⟩

theorem slot_mod (k N : ℕ) {t : ℕ} (ht : t < traceChunkSize) :
    (k * traceChunkSize + t) % (N * traceChunkSize) = k % N * traceChunkSize + t := by
  have hmod : (k * traceChunkSize + t) % traceChunkSize = t := by
    simp only [traceChunkSize] at ht ⊢
    omega
  have hdiv : (k * traceChunkSize + t) / traceChunkSize = k := by
    simp only [traceChunkSize] at ht ⊢
    omega
  rw [mul_comm N, Nat.mod_mul, hmod, hdiv, mul_comm, add_comm]

theorem slot_ne {k k' N : ℕ} (hlt : k < k') (hle : k' < k + N) : k % N ≠ k' % N := by
  intro h
  have hdvd : N ∣ k' - k := (Nat.modEq_iff_dvd' hlt.le).mp h
  have hbound := Nat.le_of_dvd (by omega) hdvd
  omega

theorem sameOn_slot (mem : Mem) {i j : ℕ} (hne : i ≠ j) {t : ℕ} {bs : List UInt8}
    (hlen : t + bs.length ≤ traceChunkSize) :
    mem.SameOn (mem.store (i * traceChunkSize + t) bs) (j * traceChunkSize) traceChunkSize := by
  refine mem.sameOn_store ?_
  simp only [traceChunkSize] at hlen ⊢
  omega

/-! ## The layout -/

def IsRecord (bs : List UInt8) : Prop := ∃ r : RecordBytes, r.bytes = bs

def chunkBytes (c : List (ℕ × List UInt8)) : List UInt8 := (c.map Prod.snd).flatten

/-- The memory has the records of a chunk from `a` on. -/
def Holds (mem : Mem) (a : ℕ) (c : List (ℕ × List UInt8)) : Prop :=
  mem.load a (chunkBytes c).length = chunkBytes c

/-- The records of the chunk with the number `k`. -/
structure ChunkOk (k : ℕ) (c : List (ℕ × List UInt8)) : Prop where
  records : ∀ w ∈ c, IsRecord w.2 ∧ w.1 / traceChunkSize = k
  le : (chunkBytes c).length ≤ traceChunkSize

def Ended (mem : Mem) (a : ℕ) (c : List (ℕ × List UInt8)) : Prop :=
  (chunkBytes c).length < traceChunkSize → mem (a + (chunkBytes c).length) = 0

/-- **The layout** of a buffer of `N` chunks: the chunks before the current one, and the current
one. -/
structure Layout (N : ℕ) (tb : TraceBuffer) (full : List (List (ℕ × List UInt8)))
    (last : List (ℕ × List UInt8)) : Prop where
  info : Quiescent tb.info
  b : tb.current = full.length * traceChunkSize + (chunkBytes last).length
  e : (tb.info.pair tb.info.ptr).e = (full.length + 1) * traceChunkSize
  written : tb.written = full.flatten ++ last
  fullOk : ∀ k c, full[k]? = some c → ChunkOk k c ∧ c ≠ []
  lastOk : ChunkOk full.length last
  last_ne : full ≠ [] → last ≠ []
  memFull : ∀ k c, full[k]? = some c → full.length < k + N →
    Holds tb.mem (k % N * traceChunkSize) c ∧ Ended tb.mem (k % N * traceChunkSize) c
  memLast : Holds tb.mem (full.length % N * traceChunkSize) last

theorem chunkBytes_append (c : List (ℕ × List UInt8)) (b : ℕ) (r : List UInt8) :
    chunkBytes (c ++ [(b, r)]) = chunkBytes c ++ r := by
  simp [chunkBytes]

theorem layout_start (N : ℕ) (mem : Mem) : Layout N (start mem) [] [] where
  info := ⟨rfl, rfl⟩
  b := rfl
  e := rfl
  written := rfl
  fullOk := fun _ _ h => absurd h (by simp)
  lastOk := ⟨fun _ h => absurd h not_mem_nil, Nat.zero_le _⟩
  last_ne := fun h => absurd rfl h
  memFull := fun _ _ h => absurd h (by simp)
  memLast := rfl

variable {mem : Mem} {a : ℕ} {c : List (ℕ × List UInt8)}

theorem Holds.congr {mem' : Mem} (h : Holds mem a c)
    (hsame : mem.SameOn mem' a (chunkBytes c).length) : Holds mem' a c := by
  rw [Holds, Mem.load_congr hsame, h]

theorem Ended.congr {mem' : Mem} (h : Ended mem a c) (hsame : mem.SameOn mem' a traceChunkSize) :
    Ended mem' a c := by
  intro hlt
  rw [hsame _ (Nat.le_add_right _ _) (Nat.add_lt_add_left hlt a), h hlt]

theorem Holds.append (h : Holds mem a c) (b : ℕ) (r : List UInt8) :
    Holds (mem.store (a + (chunkBytes c).length) r) a (c ++ [(b, r)]) := by
  have hold : Holds (mem.store (a + (chunkBytes c).length) r) a c :=
    h.congr (mem.sameOn_store (.inl le_rfl))
  rw [Holds, chunkBytes_append, List.length_append, Mem.load_add, hold, Mem.load_store_same]

theorem IsRecord.length_bounds {bs : List UInt8} (h : IsRecord bs) :
    recordHeaderSz ≤ bs.length ∧ bs.length < traceChunkSize := by
  obtain ⟨r, rfl⟩ := h
  refine ⟨r.ge, ?_⟩
  have hlt := decode_lt ((r.bytes.drop 14).take 2)
  have htwo : ((r.bytes.drop 14).take 2).length ≤ 2 := length_take_le _ _
  have hle : 256 ^ ((r.bytes.drop 14).take 2).length ≤ 256 ^ 2 := Nat.pow_le_pow_right (by decide) htwo
  rw [← r.size]
  exact hlt.trans_le hle

theorem getElem?_append_singleton {α : Type} {l : List α} {x y : α} {k : ℕ}
    (h : (l ++ [x])[k]? = some y) : l[k]? = some y ∨ k = l.length ∧ y = x := by
  by_cases hk : k < l.length
  · rw [getElem?_append_left hk] at h
    exact .inl h
  rw [getElem?_append_right (by omega)] at h
  obtain ⟨hlt, hget⟩ := List.getElem?_eq_some_iff.mp h
  simp only [length_singleton] at hlt
  refine .inr ⟨by omega, ?_⟩
  rw [← hget]
  simp

/-! ## Writing -/

variable {N : ℕ} {tb : TraceBuffer} {full : List (List (ℕ × List UInt8))}
  {last : List (ℕ × List UInt8)} {r : List UInt8}

section
variable (h : Layout N tb full last)
include h

theorem Layout.position_mod
    (hlt : (chunkBytes last).length < traceChunkSize) :
    tb.current % (N * traceChunkSize)
      = full.length % N * traceChunkSize + (chunkBytes last).length := by
  rw [h.b, slot_mod _ _ hlt]

theorem Layout.write_fits (hr : IsRecord r)
    (hfits : (chunkBytes last).length + r.length ≤ traceChunkSize) :
    ∃ tb', tb.writeRecord (N * traceChunkSize) r = some tb'
      ∧ Layout N tb' full (last ++ [(tb.current, r)]) := by
  obtain ⟨hge, hlt⟩ := hr.length_bounds
  have hb := h.b
  have he := h.e
  have hroom : (chunkBytes last).length < traceChunkSize := by
    simp only [recordHeaderSz] at hge
    omega
  have hcur : tb.current = (tb.info.pair tb.info.ptr).b := rfl
  have hres := reserveMemory_fits tb.mem (N * traceChunkSize) hlt.le
    (by rw [he, ← hcur, hb, Nat.succ_mul]; omega)
  rw [writeRecord, hres]
  refine ⟨_, rfl, ?_⟩
  rw [← hcur, h.position_mod hroom]
  exact
    { info := ⟨h.info.free, h.info.ptr2⟩
      b := by
        rw [current, Alloc.setB_ptr, Alloc.setB_b_same, hb, chunkBytes_append, List.length_append,
          add_assoc]
      e := by rw [Alloc.setB_ptr, Alloc.setB_e, he]
      written := by rw [h.written, append_assoc]
      fullOk := h.fullOk
      lastOk := by
        refine ⟨?_, by rwa [chunkBytes_append, List.length_append]⟩
        intro w hw
        obtain hw | hw := mem_append.mp hw
        · exact h.lastOk.records w hw
        obtain rfl := mem_singleton.mp hw
        refine ⟨hr, ?_⟩
        simp only [traceChunkSize] at hb hroom ⊢
        omega
      last_ne := fun _ => by simp
      memFull := by
        intro k c hk hwindow
        have hklt := (List.getElem?_eq_some_iff.mp hk).1
        obtain ⟨hholds, hended⟩ := h.memFull k c hk hwindow
        have hsame := sameOn_slot tb.mem (slot_ne hklt hwindow).symm hfits
        exact ⟨hholds.congr (hsame.mono le_rfl
          (Nat.add_le_add_left (h.fullOk k c hk).1.le _)), hended.congr hsame⟩
      memLast := h.memLast.append tb.current r }

theorem Layout.pad_last :
    let mem := if tb.current < (full.length + 1) * traceChunkSize
      then tb.mem.store (tb.current % (N * traceChunkSize)) [0] else tb.mem
    Holds mem (full.length % N * traceChunkSize) last
      ∧ Ended mem (full.length % N * traceChunkSize) last
      ∧ ∀ j, j ≠ full.length % N →
        tb.mem.SameOn mem (j * traceChunkSize) traceChunkSize := by
  intro mem
  have hb := h.b
  by_cases hroom : (chunkBytes last).length < traceChunkSize
  · have hmem : mem = tb.mem.store
        (full.length % N * traceChunkSize + (chunkBytes last).length) [0] := by
      rw [← h.position_mod hroom]
      exact if_pos (by rw [hb, Nat.succ_mul]; omega)
    rw [hmem]
    refine ⟨h.memLast.congr (tb.mem.sameOn_store (.inl le_rfl)), ?_, ?_⟩
    · intro _
      simp [Mem.store]
    · intro j hj
      exact sameOn_slot tb.mem hj.symm hroom
  · have hmem : mem = tb.mem := if_neg (by rw [hb, Nat.succ_mul]; omega)
    rw [hmem]
    exact ⟨h.memLast, fun hlt => absurd hlt hroom, fun _ _ => .rfl⟩

theorem Layout.write_overruns (hr : IsRecord r)
    (hover : traceChunkSize < (chunkBytes last).length + r.length) :
    ∃ tb', tb.writeRecord (N * traceChunkSize) r = some tb'
      ∧ Layout N tb' (full ++ [last]) [((full.length + 1) * traceChunkSize, r)] := by
  obtain ⟨hge, hlt⟩ := hr.length_bounds
  have hb := h.b
  have he := h.e
  have hcur : tb.current = (tb.info.pair tb.info.ptr).b := rfl
  obtain ⟨a', ha', hpair, hres⟩ := reserveMemory_overruns h.info tb.mem (N * traceChunkSize) hlt.le
    (by rw [he, ← hcur, hb, Nat.succ_mul]; omega)
  have hne : last ≠ [] := by
    rintro rfl
    simp only [chunkBytes, map_nil, flatten_nil, length_nil] at hover
    omega
  have hpos : (full.length + 1) * traceChunkSize % (N * traceChunkSize)
      = (full.length + 1) % N * traceChunkSize := Nat.mul_mod_mul_right _ _ _
  rw [he, ← hcur] at hres
  rw [he] at hpair
  obtain ⟨hpadHolds, hpadEnded, hpadSame⟩ := h.pad_last
  rw [writeRecord, hres]
  refine ⟨_, rfl, ?_⟩
  rw [hpos]
  generalize (if tb.current < (full.length + 1) * traceChunkSize
    then tb.mem.store (tb.current % (N * traceChunkSize)) [0] else tb.mem) = mem
    at hpadHolds hpadEnded hpadSame
  have hlen : (full ++ [last]).length = full.length + 1 := by simp
  have hrlen : 0 + r.length ≤ traceChunkSize := by omega
  have hnew : ∀ j, j ≠ (full.length + 1) % N → mem.SameOn
      (mem.store ((full.length + 1) % N * traceChunkSize) r) (j * traceChunkSize)
      traceChunkSize := by
    intro j hj
    have hsame := sameOn_slot mem hj.symm hrlen
    rwa [add_zero] at hsame
  exact
    { info := ha'
      b := by
        simp only [current, hpair, hlen, chunkBytes, map_cons, map_nil, flatten_singleton]
      e := by rw [hpair, hlen, Nat.succ_mul (full.length + 1)]
      written := by simp [h.written]
      fullOk := by
        intro k c hk
        obtain hk | ⟨rfl, rfl⟩ := getElem?_append_singleton hk
        · exact h.fullOk k c hk
        · exact ⟨h.lastOk, hne⟩
      lastOk := by
        refine ⟨?_, by simpa [chunkBytes] using hlt.le⟩
        intro w hw
        obtain rfl := mem_singleton.mp hw
        refine ⟨hr, ?_⟩
        rw [hlen]
        exact Nat.mul_div_cancel (full.length + 1) (by decide : 0 < traceChunkSize)
      last_ne := fun _ => by simp
      memFull := by
        intro k c hk hwindow
        rw [hlen] at hwindow
        obtain hk | ⟨rfl, rfl⟩ := getElem?_append_singleton hk
        · have hklt := (List.getElem?_eq_some_iff.mp hk).1
          obtain ⟨hholds, hended⟩ := h.memFull k c hk (by omega)
          have hsame := (hpadSame _ (slot_ne hklt (by omega))).trans
            (hnew _ (slot_ne (by omega) hwindow))
          exact ⟨hholds.congr (hsame.mono le_rfl
            (Nat.add_le_add_left (h.fullOk k c hk).1.le _)), hended.congr hsame⟩
        · have hsame := hnew _ (slot_ne (Nat.lt_succ_self _) hwindow)
          exact ⟨hpadHolds.congr (hsame.mono le_rfl
            (Nat.add_le_add_left h.lastOk.le _)), hpadEnded.congr hsame⟩
      memLast := by
        rw [hlen, Holds]
        simp [chunkBytes] }

end

/-- Where a record of `n` bytes leads from a chunk and a length in it. -/
def advance (p : ℕ × ℕ) (n : ℕ) : ℕ × ℕ :=
  if p.2 + n ≤ traceChunkSize then (p.1, p.2 + n) else (p.1 + 1, n)

/-- **Every sequence of records** is written and gives a layout. -/
theorem layout_writeRecords (h : Layout N tb full last) (rs : List RecordBytes) :
    ∃ tb' full' last', tb.writeRecords (N * traceChunkSize) (rs.map RecordBytes.bytes) = some tb'
      ∧ Layout N tb' full' last' ∧ (full'.length, (chunkBytes last').length)
        = (rs.map fun r => r.bytes.length).foldl advance
          (full.length, (chunkBytes last).length) := by
  induction rs generalizing tb full last with
  | nil => exact ⟨tb, full, last, rfl, h, rfl⟩
  | cons r rs ih =>
    rw [map_cons, map_cons, foldl_cons, writeRecords, advance]
    by_cases hfits : (chunkBytes last).length + r.bytes.length ≤ traceChunkSize
    · obtain ⟨tb', hwrite, h'⟩ := h.write_fits ⟨r, rfl⟩ hfits
      have hlen := congrArg List.length (chunkBytes_append last tb.current r.bytes)
      rw [List.length_append] at hlen
      rw [hwrite, if_pos hfits, ← hlen]
      exact ih h'
    · obtain ⟨tb', hwrite, h'⟩ := h.write_overruns ⟨r, rfl⟩ (not_le.mp hfits)
      have hlen : (full ++ [last]).length = full.length + 1 := by simp
      have hbytes : (chunkBytes [((full.length + 1) * traceChunkSize, r.bytes)]).length
          = r.bytes.length := by simp [chunkBytes]
      rw [hwrite, if_neg hfits, ← hlen, ← hbytes]
      exact ih h'

end Novachains.Pd
