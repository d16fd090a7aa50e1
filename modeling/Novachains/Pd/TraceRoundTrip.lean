import Novachains.Pd.TraceLayout

/-!
# The round trip of a trace dump

The reader begins at the oldest chunk of the window and stops in each chunk at the byte 0, at the
end of the chunk, or at the position where the last record ends.  That position tells the end of
the last chunk from the beginning of the oldest one only where the last chunk is not full.
-/

namespace Novachains.Pd

open Lib TraceBuffer List

variable {off : ℕ}

theorem field_append {bs : List UInt8} (x : List UInt8) {w : ℕ} (h : off + w ≤ bs.length) :
    field (bs ++ x) off w = field bs off w := by
  rw [field, field, drop_append_of_le_length (by omega),
    take_append_of_le_length (by rw [length_drop]; omega)]

variable {cursor n : ℕ} {rs : List (List UInt8)}

/-- **The records of a chunk are visited** when nothing stops the reader before their end, and
something stops it there. -/
theorem parseChunk_records {chunk rest : List UInt8} {endPos : ℕ} (hrs : ∀ r ∈ rs, IsRecord r)
    (hn : rs.length < n) (hdrop : chunk.drop off = rs.flatten ++ rest)
    (hlen : off + rs.flatten.length ≤ traceChunkSize)
    (hbefore : ∀ t, t < rs.flatten.length → cursor + (off + t) ≠ endPos)
    (hstop : cursor + (off + rs.flatten.length) = endPos
      ∨ off + rs.flatten.length = traceChunkSize ∨ rest.head? = some 0) :
    parseChunk chunk cursor endPos n off = some rs := by
  induction rs generalizing n off with
  | nil =>
    obtain ⟨n, rfl⟩ : ∃ m, n = m + 1 := ⟨n - 1, by simp only [length_nil] at hn; omega⟩
    simp only [flatten_nil, length_nil, add_zero, nil_append] at hdrop hstop
    rw [parseChunk]
    split
    · rename_i hgo
      have hzero : rest.head? = some 0 := by
        obtain h | h | h := hstop
        · exact absurd h hgo.1
        · exact absurd h hgo.2.ne
        · exact h
      have heye : (chunk.drop off).take 2 ≠ [84, 82] := by
        rw [hdrop]
        intro h
        have hhead := congrArg List.head? h
        rw [head?_take, if_neg (by decide), hzero] at hhead
        cases hhead
      exact if_pos (.inl heye)
    · rfl
  | cons r rs ih =>
    obtain ⟨n, rfl⟩ : ∃ m, n = m + 1 := ⟨n - 1, by simp only [length_cons] at hn; omega⟩
    obtain ⟨hr, htail⟩ := forall_mem_cons.mp hrs
    obtain ⟨hge, hlt⟩ := hr.length_bounds
    simp only [flatten_cons, List.length_append, append_assoc] at hdrop hlen hbefore hstop
    simp only [recordHeaderSz] at hge
    have hgo : cursor + off ≠ endPos ∧ off < traceChunkSize := by
      refine ⟨?_, by omega⟩
      have h0 := hbefore 0 (by omega)
      rwa [add_zero] at h0
    obtain ⟨x, rfl⟩ := hr
    have hfield : field (chunk.drop off) 14 2 = x.bytes.length := by
      rw [hdrop, field_append _ (by omega), x.size]
    have heye : (chunk.drop off).take 2 = [84, 82] := by
      rw [hdrop, take_append_of_le_length (by omega), x.eye]
    have htake : (chunk.drop off).take x.bytes.length = x.bytes := by
      rw [hdrop, take_left]
    have hgood : ¬((chunk.drop off).take 2 ≠ [84, 82]
        ∨ field (chunk.drop off) 14 2 < recordHeaderSz
        ∨ field (chunk.drop off) 14 2 > traceRecordMaxSize) := by
      rw [hfield]
      simp only [traceChunkSize] at hlt
      simp only [recordHeaderSz, traceRecordMaxSize, not_or, not_not]
      exact ⟨heye, by omega, by omega⟩
    have hnext : parseChunk chunk cursor endPos n (off + x.bytes.length) = some rs := by
      refine ih htail (by simp only [length_cons] at hn; omega) ?_ (by omega) ?_ ?_
      · rw [← drop_drop, hdrop, drop_left]
      · intro t ht
        have h := hbefore (x.bytes.length + t) (by omega)
        rwa [← add_assoc off] at h
      · rwa [← add_assoc off] at hstop
    simp only [parseChunk, if_pos hgo, if_neg hgood]
    rw [hfield, hnext, htake, Option.map_some]

theorem parseChunk_stop {chunk : List UInt8} {endPos : ℕ} (h : cursor = endPos) :
    parseChunk chunk cursor endPos (n + 1) 0 = some [] := by
  rw [parseChunk, if_neg]
  intro hgo
  exact hgo.1 h

/-! ## The chunks of a file -/

variable {v : ℕ → List (List UInt8)}

section Header
variable {h : TraceHeader}

theorem parseChunks_round {file : List UInt8} {readLen : ℕ} (n : ℕ) (hgo : readLen < h.bufSize)
    (hlen : ((file.drop cursor).take traceChunkSize).length = traceChunkSize)
    (hchunk : parseChunk ((file.drop cursor).take traceChunkSize) cursor
      (h.bufTail + traceHeaderSz) traceChunkSize 0 = some rs) :
    parseChunks file h (n + 1) cursor readLen
      = (parseChunks file h n
          (if cursor + traceChunkSize ≥ h.bufSize + traceHeaderSz then traceHeaderSz
            else cursor + traceChunkSize) (readLen + traceChunkSize)).map
        fun x => (x.1, rs ++ x.2) := by
  have hne : ¬traceChunkSize = 0 := by decide
  simp only [parseChunks, if_pos hgo, hlen, hchunk, hne, if_false, ne_eq, not_true_eq_false]

theorem next_slot {slot : ℕ} (hslot : slot < n) :
    (if slot * traceChunkSize + traceHeaderSz + traceChunkSize
        ≥ n * traceChunkSize + traceHeaderSz then traceHeaderSz
      else slot * traceChunkSize + traceHeaderSz + traceChunkSize)
      = (slot + 1) % n * traceChunkSize + traceHeaderSz := by
  by_cases hwrap : slot + 1 = n
  · have hge : slot * traceChunkSize + traceHeaderSz + traceChunkSize
        ≥ n * traceChunkSize + traceHeaderSz := by
      rw [← hwrap, Nat.succ_mul]
      omega
    rw [if_pos hge, hwrap, Nat.mod_self, zero_mul, zero_add]
  · have hlt : (slot + 1) * traceChunkSize < n * traceChunkSize :=
      Nat.mul_lt_mul_of_pos_right (by omega) (by decide : 0 < traceChunkSize)
    rw [Nat.succ_mul] at hlt
    rw [if_neg (by omega), Nat.mod_eq_of_lt (by omega), Nat.succ_mul]
    omega

/-- **The chunks are visited one after another**, from the slot `h₀` of `n` slots on. -/
theorem parseChunks_slots {file : List UInt8} {h₀ : ℕ} (hsize : h.bufSize = n * traceChunkSize)
    (hfile : file.length = traceHeaderSz + h.bufSize)
    (hv : ∀ i < n, parseChunk
      ((file.drop ((h₀ + i) % n * traceChunkSize + traceHeaderSz)).take traceChunkSize)
      ((h₀ + i) % n * traceChunkSize + traceHeaderSz) (h.bufTail + traceHeaderSz)
      traceChunkSize 0 = some (v i))
    (m j : ℕ) (hj : j + m = n) :
    parseChunks file h (m + 1) ((h₀ + j) % n * traceChunkSize + traceHeaderSz)
        (j * traceChunkSize)
      = some (.ok, (List.range m).flatMap fun i => v (j + i)) := by
  induction m generalizing j with
  | zero =>
    have hend : ¬j * traceChunkSize < h.bufSize := by
      rw [hsize, ← hj, add_zero]
      exact lt_irrefl _
    rw [parseChunks, if_neg hend]
    rfl
  | succ m ih =>
    have hjn : j < n := by omega
    have hgo : j * traceChunkSize < h.bufSize := by
      rw [hsize]
      exact Nat.mul_lt_mul_of_pos_right hjn (by decide : 0 < traceChunkSize)
    have hslot : (h₀ + j) % n < n := Nat.mod_lt _ (by omega)
    have hroom : (h₀ + j) % n * traceChunkSize + traceChunkSize ≤ h.bufSize := by
      rw [hsize, ← Nat.succ_mul]
      exact Nat.mul_le_mul_right _ hslot
    have hchunk : ((file.drop ((h₀ + j) % n * traceChunkSize + traceHeaderSz)).take
        traceChunkSize).length = traceChunkSize := by
      rw [length_take, length_drop, hfile]
      omega
    have hmod : ((h₀ + j) % n + 1) % n = (h₀ + (j + 1)) % n := by
      rw [← add_assoc, Nat.mod_add_mod]
    have hrest := ih (j + 1) (by omega)
    rw [parseChunks_round (m + 1) hgo hchunk (hv j hjn), hsize, next_slot hslot, hmod,
      ← Nat.succ_mul, hrest, Option.map_some, range_succ_eq_map, flatMap_cons,
      flatMap_map]
    simp only [add_zero, Nat.succ_eq_add_one, add_assoc, add_comm 1]

theorem header_length (h : TraceHeader) : h.bytes.length = traceHeaderSz := by
  simp [TraceHeader.bytes]

theorem field_part {bs r : List UInt8} {w v : ℕ} (hbs : bs.drop off = encode w v ++ r)
    (hv : v < 256 ^ w) : field bs off w = v := by
  rw [field, hbs, take_left' (length_encode w v), decode_encode, Nat.mod_eq_of_lt hv]

theorem loadDumpFile_bytes {content : List UInt8} (hsize : h.bufSize = content.length)
    (hlt : h.bufSize < 256 ^ 8) (hheader : h.bufHeader ≤ h.bufSize) (htail : h.bufTail ≤ h.bufSize) :
    loadDumpFile (h.bytes ++ content) = .ok h := by
  have hlen : (h.bytes ++ content).length = traceHeaderSz + h.bufSize := by
    rw [List.length_append, header_length, hsize]
  have heye : (h.bytes ++ content).take 2 = [84, 66] := by
    simp [TraceHeader.bytes]
  have hheadSz : field (h.bytes ++ content) 2 2 = traceHeaderSz :=
    field_part (by simp [TraceHeader.bytes]; rfl) (by decide)
  have hversion : field (h.bytes ++ content) 4 1 = 1 :=
    field_part (by simp [TraceHeader.bytes]; rfl) (by decide)
  have hbufSize : field (h.bytes ++ content) 8 8 = h.bufSize :=
    field_part (by simp [TraceHeader.bytes, drop_append]; rfl) hlt
  have hbufHeader : field (h.bytes ++ content) 16 8 = h.bufHeader :=
    field_part (by simp [TraceHeader.bytes, drop_append]; rfl) (hheader.trans_lt hlt)
  have hbufTail : field (h.bytes ++ content) 24 8 = h.bufTail :=
    field_part (by simp [TraceHeader.bytes, drop_append]; rfl) (htail.trans_lt hlt)
  have htotal : h.bufSize + traceHeaderSz = traceHeaderSz + h.bufSize := add_comm _ _
  have hin : ¬(h.bufHeader > h.bufSize ∨ h.bufTail > h.bufSize) := by omega
  rw [loadDumpFile, hlen, heye, hversion, hheadSz, hbufSize, hbufHeader, hbufTail, htotal]
  simp [hin]

end Header

theorem chunk_of_file {hd : List UInt8} (hhd : hd.length = traceHeaderSz) (mem : Mem) {slot size : ℕ}
    (hroom : slot * traceChunkSize + traceChunkSize ≤ size) :
    ((hd ++ mem.load 0 size).drop (slot * traceChunkSize + traceHeaderSz)).take traceChunkSize
      = mem.load (slot * traceChunkSize) traceChunkSize := by
  obtain ⟨rest, rfl⟩ := Nat.exists_eq_add_of_le hroom
  rw [add_comm _ traceHeaderSz, ← drop_drop, ← hhd, drop_left, add_assoc,
    Mem.load_add, Mem.load_add, drop_left' (Mem.length_load ..), take_left' (Mem.length_load ..),
    zero_add]

/-! ## The window -/

/-- The memory has the most recent `N` chunks, each in its slot and with its end. -/
def Windowed (N : ℕ) (mem : Mem) (chunks : List (List (ℕ × List UInt8))) : Prop :=
  ∀ k c, chunks[k]? = some c → chunks.length ≤ k + N →
    ChunkOk k c ∧ Holds mem (k % N * traceChunkSize) c ∧ Ended mem (k % N * traceChunkSize) c

theorem records_length (h : ∀ r ∈ rs, IsRecord r) :
    recordHeaderSz * rs.length ≤ rs.flatten.length := by
  induction rs with
  | nil => exact Nat.zero_le _
  | cons r rs ih =>
    obtain ⟨hr, hrs⟩ := forall_mem_cons.mp h
    have hge := hr.length_bounds.1
    have hih := ih hrs
    rw [length_cons, flatten_cons, List.length_append, Nat.mul_succ]
    omega

variable {k : ℕ} {c : List (ℕ × List UInt8)}

theorem ChunkOk.isRecord (h : ChunkOk k c) : ∀ r ∈ c.map Prod.snd, IsRecord r := by
  intro r hr
  obtain ⟨w, hw, rfl⟩ := List.mem_map.mp hr
  exact (h.records w hw).1

theorem ChunkOk.bytes_pos (h : ChunkOk k c) (hne : c ≠ []) : 0 < (chunkBytes c).length := by
  have hlen := records_length h.isRecord
  have hpos := length_pos_iff.mpr hne
  rw [length_map] at hlen
  simp only [recordHeaderSz] at hlen
  rw [chunkBytes]
  omega

variable {chunks : List (List (ℕ × List UInt8))}

theorem Windowed.parse {N : ℕ} (endPos : ℕ) {mem : Mem} (h : Windowed N mem chunks)
    (hk : chunks[k]? = some c) (hwindow : chunks.length ≤ k + N)
    (hbefore : ∀ t, t < (chunkBytes c).length → k % N * traceChunkSize + traceHeaderSz + t ≠ endPos) :
    parseChunk (mem.load (k % N * traceChunkSize) traceChunkSize)
      (k % N * traceChunkSize + traceHeaderSz) endPos traceChunkSize 0
      = some (c.map Prod.snd) := by
  obtain ⟨hok, hholds, hended⟩ := h k c hk hwindow
  have hle := hok.le
  have hlen := records_length hok.isRecord
  rw [← chunkBytes] at hlen
  obtain ⟨room, hroom⟩ := Nat.exists_eq_add_of_le hle
  have hsplit (a : ℕ) : mem.load a traceChunkSize
      = mem.load a (chunkBytes c).length ++ mem.load (a + (chunkBytes c).length) room := by
    rw [hroom, Mem.load_add]
  have hload := hsplit (k % N * traceChunkSize)
  rw [hholds] at hload
  refine parseChunk_records hok.isRecord ?_ (by rw [drop_zero, hload, chunkBytes]) ?_ ?_ ?_
  · simp only [recordHeaderSz, traceChunkSize] at hlen hle ⊢
    omega
  · rwa [zero_add]
  · intro t ht
    rw [zero_add]
    exact hbefore t ht
  rw [zero_add]
  by_cases hfull : (chunkBytes c).length = traceChunkSize
  · exact .inr (.inl hfull)
  have hzero := hended (by omega)
  obtain ⟨room, rfl⟩ : ∃ m, room = m + 1 := ⟨room - 1, by omega⟩
  refine .inr (.inr ?_)
  rw [Mem.load, range_succ_eq_map, map_cons, head?_cons, add_zero]
  exact congrArg some hzero

theorem filter_flatten_eq_drop {α : Type} {p : α → Bool} {l : List (List α)} {m : ℕ}
    (h : ∀ k c, l[k]? = some c → ∀ x ∈ c, p x = decide (m ≤ k)) :
    l.flatten.filter p = (l.drop m).flatten := by
  induction l generalizing m with
  | nil => simp
  | cons c l ih =>
    have hc := h 0 c rfl
    have htail : l.flatten.filter p = (l.drop (m - 1)).flatten := ih fun k d hk x hx => by
      rw [h (k + 1) d hk x hx]
      exact decide_eq_decide.mpr (by omega)
    rw [flatten_cons, filter_append, htail]
    cases m with
    | zero =>
      rw [filter_eq_self.mpr fun x hx => by rw [hc x hx]; rfl]
      rfl
    | succ m =>
      rw [filter_eq_nil_iff.mpr fun x hx => by rw [hc x hx]; simp]
      rfl

theorem flatMap_range_getD {α : Type} (l : List (List α)) :
    (List.range l.length).flatMap (fun i => l[i]?.getD []) = l.flatten := by
  induction l with
  | nil => rfl
  | cons c l ih =>
    rw [length_cons, range_succ_eq_map, flatMap_cons, flatMap_map, flatten_cons, ← ih]
    rfl

/-! ## The dump of a layout -/

section Dump
variable {N : ℕ} {tb : TraceBuffer} {full : List (List (ℕ × List UInt8))}
  {last : List (ℕ × List UInt8)}

def dumpedMem (bufSize : ℕ) (tb : TraceBuffer) : Mem :=
  if tb.current % bufSize % traceChunkSize ≠ 0 then tb.mem.store (tb.current % bufSize) [0]
  else tb.mem

theorem savePosition_tail (current bufSize : ℕ) :
    (TraceHeader.savePosition current bufSize).bufTail = current % bufSize := by
  unfold TraceHeader.savePosition
  split <;> rfl

theorem dump_eq (bufSize : ℕ) (tb : TraceBuffer) :
    tb.dump bufSize = (TraceHeader.savePosition tb.current bufSize).bytes
      ++ (dumpedMem bufSize tb).load 0 (TraceHeader.savePosition tb.current bufSize).bufSize := by
  rw [dump, savePosition_tail, dumpedMem]

theorem Layout.chunk_ok (h : Layout N tb full last) (hk : (full ++ [last])[k]? = some c) :
    ChunkOk k c := by
  obtain hk | ⟨rfl, rfl⟩ := getElem?_append_singleton hk
  · exact (h.fullOk k c hk).1
  · exact h.lastOk

theorem Layout.chunk_ne_nil (h : Layout N tb full last) (hne : last ≠ [])
    (hk : (full ++ [last])[k]? = some c) : c ≠ [] := by
  obtain hk | ⟨rfl, rfl⟩ := getElem?_append_singleton hk
  · exact (h.fullOk k c hk).2
  · exact hne

variable {hd : TraceHeader}

theorem parse_window {mem : Mem} (h₀ : ℕ) (hsize : hd.bufSize = n * traceChunkSize)
    (hheader : hd.bufHeader = h₀ * traceChunkSize) (hh₀ : h₀ < n)
    (hv : ∀ i < n, parseChunk (mem.load ((h₀ + i) % n * traceChunkSize) traceChunkSize)
      ((h₀ + i) % n * traceChunkSize + traceHeaderSz) (hd.bufTail + traceHeaderSz)
      traceChunkSize 0 = some (v i)) :
    parseTraceDumpFile (hd.bytes ++ mem.load 0 hd.bufSize) hd
      = some (.ok, (List.range n).flatMap v) := by
  have hlen : (hd.bytes ++ mem.load 0 hd.bufSize).length = traceHeaderSz + hd.bufSize := by
    rw [List.length_append, header_length, Mem.length_load]
  have hslot (i : ℕ) : (h₀ + i) % n * traceChunkSize + traceChunkSize ≤ hd.bufSize := by
    rw [hsize, ← Nat.succ_mul]
    exact Nat.mul_le_mul_right _ (Nat.mod_lt _ (by omega))
  have hv' : ∀ i < n, parseChunk (((hd.bytes ++ mem.load 0 hd.bufSize).drop
      ((h₀ + i) % n * traceChunkSize + traceHeaderSz)).take traceChunkSize)
      ((h₀ + i) % n * traceChunkSize + traceHeaderSz) (hd.bufTail + traceHeaderSz)
      traceChunkSize 0 = some (v i) := by
    intro i hi
    rw [chunk_of_file (header_length hd) mem (hslot i)]
    exact hv i hi
  have hall := parseChunks_slots hsize hlen hv' n 0 (zero_add n)
  have hfirst : ¬h₀ * traceChunkSize + traceHeaderSz ≥ hd.bufSize + traceHeaderSz := by
    have hlt : h₀ * traceChunkSize < n * traceChunkSize :=
      Nat.mul_lt_mul_of_pos_right hh₀ (by decide : 0 < traceChunkSize)
    rw [hsize]
    omega
  have hfuel : hd.bufSize / traceChunkSize = n := by
    rw [hsize]
    exact Nat.mul_div_cancel n (by decide : 0 < traceChunkSize)
  simp only [add_zero, Nat.mod_eq_of_lt hh₀, zero_mul, zero_add] at hall
  simp only [parseTraceDumpFile, hheader, if_neg hfirst, hfuel]
  exact hall

def windowAt (chunks : List (List (ℕ × List UInt8))) (first i : ℕ) : List (List UInt8) :=
  ((chunks.drop first).map (List.map Prod.snd))[i]?.getD []

theorem windowAt_eq {first i : ℕ} (hk : chunks[first + i]? = some c) :
    windowAt chunks first i = c.map Prod.snd := by
  simp [windowAt, getElem?_drop, hk]

theorem exists_chunk (hk : k < chunks.length) : ∃ c, chunks[k]? = some c :=
  ⟨chunks[k], getElem?_eq_getElem hk⟩

theorem flatMap_windowAt (chunks : List (List (ℕ × List UInt8))) (first : ℕ) :
    (List.range (chunks.length - first)).flatMap (windowAt chunks first)
      = ((chunks.drop first).map (List.map Prod.snd)).flatten := by
  have h := flatMap_range_getD ((chunks.drop first).map (List.map Prod.snd))
  rwa [length_map, length_drop] at h

theorem savePosition_short {current t : ℕ} (hcur : current = k * traceChunkSize + t) (hpos : 0 < t)
    (hle : t ≤ traceChunkSize) (hlt : current < N * traceChunkSize) :
    TraceHeader.savePosition current (N * traceChunkSize)
      = ⟨(k + 1) * traceChunkSize, 0, current⟩ := by
  have hround : roundUp current traceChunkSize = (k + 1) * traceChunkSize := by
    rw [roundUp, hcur]
    refine congrArg (· * traceChunkSize) ?_
    simp only [traceChunkSize] at hle ⊢
    omega
  simp only [TraceHeader.savePosition, if_neg (not_lt.mpr hlt.le), Nat.mod_eq_of_lt hlt, hround]

theorem savePosition_long {current t : ℕ} (hcur : current = k * traceChunkSize + t) (hpos : 0 < t)
    (hle : t ≤ traceChunkSize) (hgt : current > N * traceChunkSize) :
    TraceHeader.savePosition current (N * traceChunkSize)
      = ⟨N * traceChunkSize, (k + 1) % N * traceChunkSize, current % (N * traceChunkSize)⟩ := by
  have hround : (current + traceChunkSize - 1) / traceChunkSize = k + 1 := by
    rw [hcur]
    simp only [traceChunkSize] at hle ⊢
    omega
  simp only [TraceHeader.savePosition, if_pos hgt, hround, Nat.mul_mod_mul_right]

theorem load_dump (hhd : TraceHeader.savePosition tb.current (N * traceChunkSize) = hd)
    (hN : N * traceChunkSize < 256 ^ 8) (hsize : hd.bufSize ≤ N * traceChunkSize)
    (hheader : hd.bufHeader ≤ hd.bufSize) (htail : hd.bufTail ≤ hd.bufSize) :
    loadDumpFile (tb.dump (N * traceChunkSize)) = .ok hd := by
  rw [dump_eq, hhd]
  exact loadDumpFile_bytes (Mem.length_load _ _ _).symm (hsize.trans_lt hN) hheader htail

theorem window_slot {K i : ℕ} (hK : N ≤ K) : (K % N + i) % N = (K - N + i) % N := by
  rw [Nat.mod_add_mod, ← Nat.add_mod_right (K - N + i) N]
  refine congrArg (· % N) ?_
  omega

theorem parse_empty (file : List UInt8) (tail : ℕ) :
    parseTraceDumpFile file ⟨0, 0, tail⟩ = some (.ok, []) := by
  simp [parseTraceDumpFile, parseChunks]

theorem roundTrips_iff_parse (hload : loadDumpFile (tb.dump (N * traceChunkSize)) = .ok hd) :
    RoundTrips (N * traceChunkSize) tb ↔ parseTraceDumpFile (tb.dump (N * traceChunkSize)) hd
      = some (.ok, tb.recent (N * traceChunkSize)) := by
  refine ⟨?_, fun h => ⟨hd, hload, h⟩⟩
  rintro ⟨hd', hload', h⟩
  cases hload.symm.trans hload'
  exact h

theorem roundTrips_iff_of_tail (hN : N * traceChunkSize < 256 ^ 8)
    (htail : tb.current % (N * traceChunkSize) = 0) (hle : tb.current ≤ N * traceChunkSize) :
    RoundTrips (N * traceChunkSize) tb ↔ tb.recent (N * traceChunkSize) = [] := by
  have hround : roundUp 0 traceChunkSize = 0 := rfl
  have hhd : TraceHeader.savePosition tb.current (N * traceChunkSize) = ⟨0, 0, 0⟩ := by
    simp only [TraceHeader.savePosition, if_neg (not_lt.mpr hle), htail, hround]
  rw [roundTrips_iff_parse (load_dump hhd hN (Nat.zero_le _) le_rfl le_rfl), parse_empty]
  refine ⟨fun h => ?_, fun h => by rw [h]⟩
  exact (congrArg Prod.snd (Option.some.inj h)).symm

variable (h : Layout N tb full last) (hne : last ≠ [])
include h hne

/-- **The dumped memory has the window.** -/
theorem Layout.windowed :
    Windowed N (dumpedMem (N * traceChunkSize) tb) (full ++ [last]) := by
  have hpos := h.lastOk.bytes_pos hne
  have hle := h.lastOk.le
  have hb := h.b
  have hmem : dumpedMem (N * traceChunkSize) tb
      = if tb.current < (full.length + 1) * traceChunkSize
        then tb.mem.store (tb.current % (N * traceChunkSize)) [0] else tb.mem := by
    have hiff : tb.current % (N * traceChunkSize) % traceChunkSize ≠ 0
        ↔ tb.current < (full.length + 1) * traceChunkSize := by
      rw [Nat.mod_mod_of_dvd _ (dvd_mul_left _ _), hb]
      simp only [traceChunkSize] at hle ⊢
      omega
    simp only [dumpedMem, hiff]
  obtain ⟨hholds, hended, hsame⟩ := h.pad_last
  rw [← hmem] at hholds hended hsame
  intro k c hk hwindow
  rw [List.length_append, length_singleton] at hwindow
  refine ⟨h.chunk_ok hk, ?_⟩
  obtain hk | ⟨rfl, rfl⟩ := getElem?_append_singleton hk
  · have hklt := (List.getElem?_eq_some_iff.mp hk).1
    obtain ⟨hold, hend⟩ := h.memFull k c hk (by omega)
    have hk' := hsame _ (slot_ne hklt (by omega))
    exact ⟨hold.congr (hk'.mono le_rfl (Nat.add_le_add_left (h.fullOk k c hk).1.le _)),
      hend.congr hk'⟩
  · exact ⟨hholds, hended⟩

theorem Layout.usedChunks_eq : tb.usedChunks = full.length + 1 := by
  have hpos := h.lastOk.bytes_pos hne
  have hle := h.lastOk.le
  rw [usedChunks, h.b]
  simp only [traceChunkSize] at hle ⊢
  omega

/-- **The recent records** are those of the window. -/
theorem Layout.recent_eq :
    tb.recent (N * traceChunkSize)
      = (((full ++ [last]).drop (full.length + 1 - N)).map (List.map Prod.snd)).flatten := by
  have hN : N * traceChunkSize / traceChunkSize = N :=
    Nat.mul_div_cancel N (by decide : 0 < traceChunkSize)
  have hwritten : tb.written = (full ++ [last]).flatten := by simp [h.written]
  rw [recent, hwritten, ← map_flatten]
  refine congrArg _ (filter_flatten_eq_drop ?_)
  intro k c hk w hw
  rw [h.usedChunks_eq hne, hN, ((h.chunk_ok hk).records w hw).2]
  refine decide_eq_decide.mpr ?_
  omega

theorem Layout.roundTrips_short (hN : N * traceChunkSize < 256 ^ 8)
    (hlt : tb.current < N * traceChunkSize) :
    RoundTrips (N * traceChunkSize) tb := by
  have hpos := h.lastOk.bytes_pos hne
  have hle := h.lastOk.le
  have hb := h.b
  have hK : full.length + 1 ≤ N := by
    simp only [traceChunkSize] at hb hlt
    omega
  have hhd := savePosition_short hb hpos hle hlt
  refine ⟨_, load_dump hhd hN (Nat.mul_le_mul_right _ hK) (Nat.zero_le _) ?_, ?_⟩
  · simp only [hb, Nat.succ_mul]
    omega
  rw [dump_eq, hhd, h.recent_eq hne, ← flatMap_windowAt, Nat.sub_eq_zero_of_le hK, Nat.sub_zero,
    List.length_append, length_singleton]
  refine parse_window 0 rfl (zero_mul _).symm (Nat.succ_pos _) ?_
  intro i hi
  obtain ⟨c, hc⟩ : ∃ c, (full ++ [last])[i]? = some c := exists_chunk (by simpa using hi)
  rw [windowAt_eq (by rwa [zero_add]), zero_add, Nat.mod_eq_of_lt hi]
  have hmod : i % N = i := Nat.mod_eq_of_lt (by omega)
  have hparse := (h.windowed hne).parse (tb.current + traceHeaderSz) hc
    (by simp only [List.length_append, length_singleton]; omega) ?_
  · rwa [hmod] at hparse
  rw [hmod]
  intro t ht
  have hck := (h.chunk_ok hc).le
  obtain hk | ⟨rfl, rfl⟩ := getElem?_append_singleton hc
  · have hklt := (List.getElem?_eq_some_iff.mp hk).1
    simp only [traceChunkSize] at hb hck ⊢
    omega
  · simp only [hb]
    omega

theorem Layout.windowAt_ne_nil {first : ℕ} (hfirst : first < full.length + 1) :
    windowAt (full ++ [last]) first 0 ≠ [] := by
  obtain ⟨c, hc⟩ : ∃ c, (full ++ [last])[first + 0]? = some c :=
    exists_chunk (by simpa using hfirst)
  rw [windowAt_eq hc]
  exact fun hnil => h.chunk_ne_nil hne hc (map_eq_nil_iff.mp hnil)

theorem Layout.recent_cons (hn : full.length + 1 - (full.length + 1 - N) = n + 1) :
    tb.recent (N * traceChunkSize) = windowAt (full ++ [last]) (full.length + 1 - N) 0
      ++ (List.range n).flatMap fun i => windowAt (full ++ [last]) (full.length + 1 - N) (i + 1) := by
  rw [h.recent_eq hne, ← flatMap_windowAt, List.length_append, length_singleton, hn,
    range_succ_eq_map, flatMap_cons, flatMap_map]

/-- **The oldest chunk is lost** when the buffer was filled and the last chunk is full. -/
theorem Layout.parse_long (hN : N * traceChunkSize < 256 ^ 8) (hpos : 0 < N)
    (hgt : tb.current > N * traceChunkSize) :
    ∃ hd, loadDumpFile (tb.dump (N * traceChunkSize)) = .ok hd ∧
      parseTraceDumpFile (tb.dump (N * traceChunkSize)) hd
        = some (.ok, (List.range N).flatMap fun i =>
          if i = 0 ∧ (chunkBytes last).length = traceChunkSize then []
          else windowAt (full ++ [last]) (full.length + 1 - N) i) := by
  have hlast := h.lastOk.bytes_pos hne
  have hle := h.lastOk.le
  have hb := h.b
  have hK : N < full.length + 1 := by
    simp only [traceChunkSize] at hb hgt hle
    omega
  have hhd := savePosition_long hb hlast hle hgt
  have hslot : (full.length + 1) % N < N := Nat.mod_lt _ hpos
  have htail (hfull : (chunkBytes last).length = traceChunkSize) :
      tb.current % (N * traceChunkSize) = (full.length + 1) % N * traceChunkSize := by
    rw [hb, hfull, ← Nat.succ_mul, Nat.mul_mod_mul_right]
  refine ⟨_, load_dump hhd hN le_rfl (Nat.mul_le_mul_right _ hslot.le)
    (Nat.mod_lt _ (mul_pos hpos (by decide))).le, ?_⟩
  rw [dump_eq, hhd]
  refine parse_window ((full.length + 1) % N) rfl rfl hslot ?_
  intro i hi
  obtain ⟨c, hc⟩ : ∃ c, (full ++ [last])[full.length + 1 - N + i]? = some c :=
    exists_chunk (by rw [List.length_append, length_singleton]; omega)
  split
  next hstop => exact parseChunk_stop (by rw [hstop.1, htail hstop.2, add_zero, Nat.mod_mod])
  next hgo =>
    rw [windowAt_eq hc, window_slot hK.le]
    refine (h.windowed hne).parse _ hc (by rw [List.length_append, length_singleton]; omega) ?_
    intro t ht
    have hck := (h.chunk_ok hc).le
    obtain hroom | hfull := hle.lt_or_eq
    · simp only [h.position_mod hroom]
      obtain hk | ⟨hk, rfl⟩ := getElem?_append_singleton hc
      · have hklt := (List.getElem?_eq_some_iff.mp hk).1
        have hdiff := slot_ne hklt (by omega : full.length < full.length + 1 - N + i + N)
        simp only [traceChunkSize] at hck hroom ⊢
        omega
      · rw [hk]
        omega
    · have hdiff := slot_ne (by omega : full.length + 1 - N + i < full.length + 1)
        (by omega : full.length + 1 < full.length + 1 - N + i + N)
      simp only [htail hfull]
      simp only [traceChunkSize] at hck ⊢
      omega

theorem Layout.roundTrips_long (hN : N * traceChunkSize < 256 ^ 8) (hpos : 0 < N)
    (hgt : tb.current > N * traceChunkSize) :
    RoundTrips (N * traceChunkSize) tb ↔ (chunkBytes last).length < traceChunkSize := by
  have hb := h.b
  have hle := h.lastOk.le
  obtain ⟨hd, hload, hparse⟩ := h.parse_long hne hN hpos hgt
  obtain ⟨n, rfl⟩ : ∃ n, N = n + 1 := ⟨N - 1, by omega⟩
  have hn : full.length + 1 - (full.length + 1 - (n + 1)) = n + 1 := by
    simp only [traceChunkSize] at hb hgt hle
    omega
  rw [roundTrips_iff_parse hload, hparse, h.recent_cons hne hn, range_succ_eq_map, flatMap_cons,
    flatMap_map]
  simp only [Nat.succ_eq_add_one, Nat.succ_ne_zero, false_and, if_false, true_and]
  refine ⟨fun heq => ?_, fun hroom => by rw [if_neg hroom.ne]⟩
  by_contra hnot
  rw [if_pos (by omega), nil_append] at heq
  exact h.windowAt_ne_nil hne (by omega)
    (self_eq_append_left.mp (congrArg Prod.snd (Option.some.inj heq)))

omit hne in
theorem Layout.roundTrips_iff (hN : N * traceChunkSize < 256 ^ 8)
    (hpos : 0 < N) : RoundTrips (N * traceChunkSize) tb
      ↔ tb.current < N * traceChunkSize ∨ tb.current % traceChunkSize ≠ 0 := by
  have hb := h.b
  have hle := h.lastOk.le
  have hS : 0 < N * traceChunkSize := mul_pos hpos (by decide)
  by_cases hne : last = []
  · -- nothing was written
    have hfull : full = [] := by
      by_contra hfull
      exact h.last_ne hfull hne
    subst hne hfull
    have hcur : tb.current = 0 := hb
    have hrecent : tb.recent (N * traceChunkSize) = [] := by
      rw [recent, h.written]
      rfl
    rw [roundTrips_iff_of_tail hN (by rw [hcur, Nat.zero_mod]) (by omega)]
    exact ⟨fun _ => .inl (by omega), fun _ => hrecent⟩
  · have hlast := h.lastOk.bytes_pos hne
    have hmod : tb.current % traceChunkSize ≠ 0 ↔ (chunkBytes last).length < traceChunkSize := by
      rw [hb]
      simp only [traceChunkSize] at hle ⊢
      omega
    rw [hmod]
    obtain hlt | heq | hgt := lt_trichotomy tb.current (N * traceChunkSize)
    · exact ⟨fun _ => .inl hlt, fun _ => h.roundTrips_short hne hN hlt⟩
    · -- the buffer is just full, and the file has nothing
      have hfull : ¬(chunkBytes last).length < traceChunkSize := by
        simp only [traceChunkSize] at hb heq hle ⊢
        omega
      have hK : full.length + 1 = N := by
        simp only [traceChunkSize] at hb heq hle hfull
        omega
      rw [roundTrips_iff_of_tail hN (by rw [heq, Nat.mod_self]) heq.le]
      refine ⟨fun hnil => ?_, fun hor => by omega⟩
      rw [h.recent_cons hne (by omega : _ = full.length + 1)] at hnil
      exact absurd (append_eq_nil_iff.mp hnil).1 (h.windowAt_ne_nil hne (by omega))
    · rw [h.roundTrips_long hne hN hpos hgt, or_iff_right hgt.not_gt]

end Dump

theorem exists_bufferSize (size : ℕ) :
    ∃ N, bufferSize size = N * traceChunkSize ∧ 0 < N ∧ N * traceChunkSize < 256 ^ 8 := by
  refine ⟨_, rfl, ?_, ?_⟩
  · simp only [traceChunkSize]
    omega
  · simp only [traceChunkSize]
    omega

/-- **The reader visits the recent records** exactly when the last ends before the buffer, or not
with a chunk. -/
theorem dump_parse_iff (size : ℕ) (mem : Mem) (records : List RecordBytes) :
    ∃ tb, (start mem).writeRecords (bufferSize size) (records.map RecordBytes.bytes) = some tb
      ∧ (RoundTrips (bufferSize size) tb
        ↔ tb.current < bufferSize size ∨ tb.current % traceChunkSize ≠ 0) := by
  obtain ⟨N, hsize, hpos, hN⟩ := exists_bufferSize size
  obtain ⟨tb, full, last, hwrite, hlayout, _⟩ := layout_writeRecords (layout_start N mem) records
  rw [hsize]
  exact ⟨tb, hwrite, hlayout.roundTrips_iff hN hpos⟩

/-- A record with `n` bytes behind its header, all of them 0. -/
def zeroRecord (n : ℕ) (hn : n + 24 < 65536) : RecordBytes where
  bytes := [84, 82] ++ List.replicate 12 0 ++ (encode 2 (n + 24) ++ List.replicate (n + 8) 0)
  eye := by simp
  size := by
    have hfield : field ([84, 82] ++ List.replicate 12 0
        ++ (encode 2 (n + 24) ++ List.replicate (n + 8) 0)) 14 2 = n + 24 :=
      field_part (drop_left' (by simp)) hn
    rw [hfield]
    simp only [List.length_append, length_cons, length_nil, length_replicate, length_encode]
    omega
  ge := by
    simp only [recordHeaderSz, List.length_append, length_cons, length_nil,
      length_replicate, length_encode]
    omega

theorem zeroRecord_length (n : ℕ) (hn : n + 24 < 65536) :
    (zeroRecord n hn).bytes.length = n + 24 := by
  simp only [zeroRecord, List.length_append, length_cons, length_nil,
    length_replicate, length_encode]
  omega

/-- Two records of 32768 bytes fill a chunk, and 32 a buffer of 16 chunks: the file has none of
them. -/
theorem full_buffer_lost : ∃ tb, (start fun _ => 0).writeRecords (bufferSize 1)
      ((List.replicate 32 (zeroRecord 32744 (by decide))).map RecordBytes.bytes) = some tb
    ∧ tb.current = bufferSize 1 ∧ ¬RoundTrips (bufferSize 1) tb := by
  obtain ⟨N, hsize, hpos, hN⟩ := exists_bufferSize 1
  obtain ⟨tb, full, last, hwrite, hlayout, hplace⟩ :=
    layout_writeRecords (layout_start N fun _ => 0) (List.replicate 32 (zeroRecord 32744 (by decide)))
  have hend : (List.replicate 32 32768).foldl advance (0, 0) = (15, 65536) := by decide +kernel
  rw [map_replicate, zeroRecord_length] at hplace
  obtain ⟨hfull, hlast⟩ := Prod.mk.inj (hplace.trans hend)
  have hcur : tb.current = bufferSize 1 := by
    rw [hlayout.b, hfull, hlast]
    decide
  rw [← hsize] at hwrite
  refine ⟨tb, hwrite, hcur, ?_⟩
  rw [hsize, hlayout.roundTrips_iff hN hpos, ← hsize, hcur]
  decide

end Novachains.Pd
