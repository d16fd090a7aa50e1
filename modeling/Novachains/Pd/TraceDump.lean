import Novachains.Pd.TraceControl
import Novachains.Pd.TraceRecord

/-!
# The dump of the trace and its parser

One thread writes records into the trace buffer, the trace is stopped and dumped, and the file is
parsed.  The buffer is a ring of chunks.  A byte 0 ends a chunk that is not full; the header of the
file says where the oldest chunk is and where the last record ends.
-/

namespace Novachains.Pd

open Lib

def field (bs : List UInt8) (off w : ℕ) : ℕ := decode ((bs.drop off).take w)

structure RecordBytes where
  bytes : List UInt8
  eye : bytes.take 2 = [84, 82]
  size : field bytes 14 2 = bytes.length
  ge : recordHeaderSz ≤ bytes.length

/-- The trace buffer.  `written` lists the records in the order of writing, each with its absolute
position. -/
structure TraceBuffer where
  info : Alloc
  mem : Mem
  written : List (ℕ × List UInt8)

variable (bufSize : ℕ) (tb : TraceBuffer)

namespace TraceBuffer

/-- The byte 0 that `reserveMemory` writes when an addition overruns the end of the chunk. -/
def pad (a : Alloc) (mem : Mem) : ReservePc → Mem
  | .add size p e =>
    if (a.pair p).b + size > e then
      if (a.pair p).b < e then mem.store ((a.pair p).b % bufSize) [0] else mem
    else mem
  | _ => mem

/-- `reserveMemory` by a thread that is alone, with a bound on its operations. -/
def reserveMemory (bufSize : ℕ) : ℕ → Alloc → Mem → ReservePc → Option (Alloc × Mem × ℕ)
  | 0, _, _, _ => none
  | n + 1, a, mem, pc =>
    match (pc.next a).2.2 with
    | (b, _) :: _ => some ((pc.next a).1, pad bufSize a mem pc, b)
    | [] => reserveMemory bufSize n (pc.next a).1 (pad bufSize a mem pc) (pc.next a).2.1

def writeRecord (r : List UInt8) : Option TraceBuffer :=
  match reserveMemory bufSize 20 tb.info tb.mem (.enter r.length) with
  | none => none
  | some (a, mem, b) => some ⟨a, mem.store (b % bufSize) r, tb.written ++ [(b, r)]⟩

def writeRecords (bufSize : ℕ) (tb : TraceBuffer) : List (List UInt8) → Option TraceBuffer
  | [] => some tb
  | r :: rs =>
    match tb.writeRecord bufSize r with
    | none => none
    | some tb' => tb'.writeRecords bufSize rs

/-- `start` with a buffer that holds anything. -/
def start (mem : Mem) : TraceBuffer := ⟨.reset, mem, []⟩

def current : ℕ := (tb.info.pair tb.info.ptr).b

end TraceBuffer

/-! ## The file -/

abbrev traceHeaderSz : ℕ := 72

def TraceHeader.bytes (h : TraceHeader) : List UInt8 :=
  [84, 66] ++ encode 2 traceHeaderSz ++ encode 1 1 ++ encode 3 0 ++ encode 8 h.bufSize
    ++ encode 8 h.bufHeader ++ encode 8 h.bufTail ++ encode 40 0

/-- `dump`, which ends the last chunk with a byte 0. -/
def TraceBuffer.dump : List UInt8 :=
  let h := TraceHeader.savePosition tb.current bufSize
  let mem := if h.bufTail % traceChunkSize ≠ 0 then tb.mem.store h.bufTail [0] else tb.mem
  h.bytes ++ mem.load 0 h.bufSize

/-- `_loadDumpFile`: the header of the file, if it is one. -/
def loadDumpFile (file : List UInt8) : Except Rc TraceHeader :=
  if file.length < traceHeaderSz then .error .invalidSize
  else if file.take 2 ≠ [84, 66] then .error .pdTraceFileInvalid
  else if field file 4 1 ≠ 1 then .error .dmsIncompatibleVersion
  else if traceHeaderSz ≠ field file 2 2 then .error .pdTraceFileInvalid
  else if field file 8 8 + field file 2 2 ≠ file.length then .error .pdTraceFileInvalid
  else if field file 16 8 > field file 8 8 ∨ field file 24 8 > field file 8 8 then
    .error .pdTraceFileInvalid
  else .ok ⟨field file 8 8, field file 16 8, field file 24 8⟩

/-- The records of a chunk that lies at `cursor` in the file, from `dataOffset` on. -/
def parseChunk (chunk : List UInt8) (cursor endPos : ℕ) : ℕ → ℕ → Option (List (List UInt8))
  | 0, _ => none
  | n + 1, dataOffset =>
    if cursor + dataOffset ≠ endPos ∧ dataOffset < traceChunkSize then
      let record := chunk.drop dataOffset
      if record.take 2 ≠ [84, 82] ∨ field record 14 2 < recordHeaderSz
          ∨ field record 14 2 > traceRecordMaxSize then some []
      else (parseChunk chunk cursor endPos n (dataOffset + field record 14 2)).map
        (record.take (field record 14 2) :: ·)
    else some []

/-- The loop of `_parseTraceDumpFile` over the chunks, from `cursor` on. -/
def parseChunks (file : List UInt8) (h : TraceHeader) :
    ℕ → ℕ → ℕ → Option (Rc × List (List UInt8))
  | 0, _, _ => none
  | n + 1, cursor, readLen =>
    if readLen < h.bufSize then
      let chunk := (file.drop cursor).take traceChunkSize
      if chunk.length = 0 then some (.eof, [])
      else if chunk.length ≠ traceChunkSize then some (.sys, [])
      else
        let cursor' := cursor + traceChunkSize
        match parseChunk chunk cursor (h.bufTail + traceHeaderSz) traceChunkSize 0 with
        | none => none
        | some rs =>
          (parseChunks file h n
            (if cursor' ≥ h.bufSize + traceHeaderSz then traceHeaderSz else cursor')
            (readLen + traceChunkSize)).map fun x => (x.1, rs ++ x.2)
    else some (.ok, [])

/-- The chunks are read from the oldest on. -/
def parseTraceDumpFile (file : List UInt8) (h : TraceHeader) : Option (Rc × List (List UInt8)) :=
  let cursor := h.bufHeader + traceHeaderSz
  parseChunks file h (h.bufSize / traceChunkSize + 1)
    (if cursor ≥ h.bufSize + traceHeaderSz then traceHeaderSz else cursor) 0

def TraceBuffer.usedChunks : ℕ :=
  (tb.current + traceChunkSize - 1) / traceChunkSize

def TraceBuffer.recent : List (List UInt8) :=
  (tb.written.filter fun w =>
    tb.usedChunks ≤ w.1 / traceChunkSize + bufSize / traceChunkSize).map Prod.snd

/-- **The file is accepted and its reader visits the recent records**, in the order of writing and
each once. -/
def RoundTrips : Prop :=
  ∃ h, loadDumpFile (tb.dump bufSize) = .ok h ∧
    parseTraceDumpFile (tb.dump bufSize) h = some (.ok, tb.recent bufSize)

end Novachains.Pd
