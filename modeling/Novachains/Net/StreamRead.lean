import Novachains.Lib.Buffer
import Novachains.Lib.Framing

/-!
# Reading a stream of messages

In stream mode the event handler reads whatever has arrived behind the data it already has, asks the
parser whether a message is complete, hands it on and clears the buffer, with everything that has
arrived behind the message.

The parser is a parameter that finds the first message of the bytes received.  The memory of the
buffer is not initialized.
-/

namespace Novachains.Net

open Lib List

/-- `push` says whether the buffer begins with a complete message, and `get` returns it. -/
structure MsgParser where
  Message : List UInt8 → Prop
  not_nil : ¬ Message []
  unique : ∀ {m m' : List UInt8}, Message m → Message m' → m <+: m' → m = m'
  push : List UInt8 → ℕ → Bool
  get : List UInt8 → List UInt8
  push_iff : ∀ {buf : List UInt8} {n : ℕ}, push buf n ↔ ∃ m, Message m ∧ m <+: buf.take n
  get_eq : ∀ {buf m : List UInt8}, Message m → m <+: buf → get buf = m

inductive StreamRead
  | data (bytes : List UInt8)
  | again
  | failed

structure StreamHandler where
  buf : List UInt8
  dataRecvd : ℕ
  isConnected : Bool
  /-- The messages `handleStream` was called with. -/
  handled : List (List UInt8)
  deriving DecidableEq

namespace StreamHandler

def start (mem : List UInt8) : StreamHandler := ⟨mem, 0, true, []⟩

/-- `handleStream`; the handler behind it may find the message broken and close the connection. -/
def handleStream (broken : List UInt8 → Bool) (s : StreamHandler) (m : List UInt8) :
    StreamHandler :=
  { s with handled := s.handled ++ [m], isConnected := s.isConnected && !broken m }

/-- `_streamReadCallback` without error, for bytes that are in the buffer behind the data. -/
def streamReadCallback (p : MsgParser) (broken : List UInt8 → Bool) (s : StreamHandler)
    (bytesTransferred : ℕ) : StreamHandler :=
  let s := { s with dataRecvd := s.dataRecvd + bytesTransferred }
  if p.push s.buf s.dataRecvd then
    { s.handleStream broken (p.get s.buf) with
      buf := List.replicate s.buf.length 0, dataRecvd := 0 }
  else s

/-- `asyncRead` and its callback. -/
def read (p : MsgParser) (broken : List UInt8 → Bool) (s : StreamHandler) :
    StreamRead → Option StreamHandler
  | .data bytes =>
    if s.isConnected ∧ bytes.length ≤ s.buf.length - s.dataRecvd then
      some (streamReadCallback p broken { s with buf := overwrite s.buf s.dataRecvd bytes }
        bytes.length)
    else none
  | .again => if s.isConnected then some s else none
  | .failed => if s.isConnected then some { s with isConnected := false } else none

def run (p : MsgParser) (broken : List UInt8 → Bool) (s : StreamHandler) :
    List StreamRead → Option StreamHandler
  | [] => some s
  | r :: reads => (s.read p broken r).bind (run p broken · reads)

end StreamHandler

def chunksOf : List StreamRead → List (List UInt8)
  | [] => []
  | .data bytes :: reads => bytes :: chunksOf reads
  | .again :: reads | .failed :: reads => chunksOf reads

def MsgParser.framing (p : MsgParser) : Framing UInt8 where
  Message := p.Message
  not_nil := p.not_nil
  unique := p.unique
  first bs := if p.push bs bs.length then some (p.get bs) else none
  first_eq_some {bs m} := by
    rw [Option.ite_none_right_eq_some, p.push_iff, take_length, Option.some_inj]
    constructor
    · rintro ⟨⟨m', hm', hpre⟩, rfl⟩
      rw [p.get_eq hm' hpre]
      exact ⟨hm', hpre⟩
    · intro h
      exact ⟨⟨m, h⟩, p.get_eq h.1 h.2⟩

namespace StreamHandler
variable {p : MsgParser} {broken : List UInt8 → Bool} {s s' : StreamHandler} {data : List UInt8}

structure Holds (s : StreamHandler) (data : List UInt8) : Prop where
  recvd : s.dataRecvd = data.length
  le : data.length ≤ s.buf.length
  data : s.buf.take data.length = data

theorem Holds.take_append (h : Holds s data) (bytes : List UInt8) :
    (overwrite s.buf s.dataRecvd bytes).take (s.dataRecvd + bytes.length) = data ++ bytes := by
  rw [h.recvd, take_overwrite h.le, h.data]

theorem Holds.callback (h : Holds s data) {bytes : List UInt8}
    (hfit : bytes.length ≤ s.buf.length - s.dataRecvd) {t : StreamHandler}
    (ht : streamReadCallback p broken { s with buf := overwrite s.buf s.dataRecvd bytes }
      bytes.length = t) :
    (∃ m, p.framing.first (data ++ bytes) = some m ∧ t.handled = s.handled ++ [m] ∧ Holds t []) ∨
      p.framing.first (data ++ bytes) = none ∧ t.handled = s.handled ∧ Holds t (data ++ bytes) := by
  have htake := h.take_append bytes
  dsimp only [streamReadCallback] at ht
  cases hfirst : p.framing.first (data ++ bytes) with
  | some m =>
    obtain ⟨hm, hpre⟩ := p.framing.first_eq_some.mp hfirst
    rw [← htake] at hpre
    have hpush := p.push_iff.mpr ⟨m, hm, hpre⟩
    have hget := p.get_eq hm (hpre.trans ( take_prefix _ _))
    rw [if_pos hpush, hget] at ht
    subst ht
    exact .inl ⟨m, rfl, rfl, ⟨rfl, Nat.zero_le _, rfl⟩⟩
  | none =>
    have hpush : ¬ p.push (overwrite s.buf s.dataRecvd bytes) (s.dataRecvd + bytes.length) := by
      rw [p.push_iff, htake]
      rintro ⟨m, hm⟩
      have := p.framing.first_eq_some.mpr hm
      rw [hfirst] at this
      cases this
    rw [if_neg hpush] at ht
    subst ht
    have hroom : s.dataRecvd + bytes.length ≤ s.buf.length := by
      have hle := h.le
      rw [← h.recvd] at hle
      omega
    have hrecvd : s.dataRecvd + bytes.length = (data ++ bytes).length := by
      rw [h.recvd, List.length_append]
    refine .inr ⟨rfl, rfl, ⟨hrecvd, ?_, ?_⟩⟩
    · rw [← hrecvd, length_overwrite hroom]
      exact hroom
    · rw [← hrecvd]
      exact htake

theorem Holds.run (h : Holds s data) {reads : List StreamRead}
    (hrun : s.run p broken reads = some s') :
    s'.handled = s.handled ++ p.framing.assemble data (chunksOf reads) := by
  induction reads generalizing s data with
  | nil =>
    obtain rfl : s = s' := by simpa [StreamHandler.run] using hrun
    simp [chunksOf, Framing.assemble]
  | cons r reads ih =>
    obtain ⟨t, ht, hrest⟩ := Option.bind_eq_some_iff.mp hrun
    cases r with
    | data bytes =>
      obtain ⟨⟨-, hfit⟩, heq⟩ := Option.ite_none_right_eq_some.mp ht
      rw [chunksOf, Framing.assemble]
      rcases h.callback hfit (Option.some_inj.mp heq) with ⟨m, hm, hh, hholds⟩ | ⟨hm, hh, hholds⟩
      · rw [hm, ih hholds hrest, hh, append_assoc, singleton_append]
      · rw [hm, ih hholds hrest, hh]
    | again =>
      obtain ⟨-, heq⟩ := Option.ite_none_right_eq_some.mp ht
      obtain rfl := Option.some_inj.mp heq
      exact ih h hrest
    | failed =>
      obtain ⟨-, heq⟩ := Option.ite_none_right_eq_some.mp ht
      obtain rfl := Option.some_inj.mp heq
      have hholds : Holds { s with isConnected := false } data := ⟨h.recvd, h.le, h.data⟩
      have hhandled := ih hholds hrest
      exact hhandled

end StreamHandler

/-- **The messages of a stream are handed on** exactly when each of them ends where a chunk
ends. -/
theorem stream_delivery_iff (p : MsgParser) (broken : List UInt8 → Bool) (mem : List UInt8)
    {msgs : List (List UInt8)} (hmsgs : ∀ m ∈ msgs, p.Message m) {reads : List StreamRead}
    (hbytes : (chunksOf reads).flatten = msgs.flatten) {s : StreamHandler}
    (hrun : (StreamHandler.start mem).run p broken reads = some s) :
    s.handled = msgs ↔ MeetsEnds msgs (chunksOf reads) := by
  have hstart : (StreamHandler.start mem).Holds [] := ⟨rfl, Nat.zero_le _, rfl⟩
  rw [hstart.run hrun]
  exact Framing.assemble_eq_iff hmsgs hbytes

def pairParser : MsgParser where
  Message m := m.length = 2
  not_nil h := by simp at h
  unique hm hm' hpre := hpre.eq_of_length (hm.trans hm'.symm)
  push buf n := decide (2 ≤ (buf.take n).length)
  get buf := buf.take 2
  push_iff {buf n} := by
    rw [decide_eq_true_iff]
    constructor
    · intro h
      exact ⟨(buf.take n).take 2, by rw [length_take, min_eq_left h], take_prefix _ _⟩
    · rintro ⟨m, hm, hpre⟩
      exact hm ▸ hpre.length_le
  get_eq hm hpre := (hm ▸ prefix_iff_eq_take.mp hpre).symm

def pairReads : List StreamRead := [.data [1], .data [2], .again, .data [3, 4]]

/-- They are handed on. -/
theorem stream_delivery_iff_pairs :
    ∃ s, (StreamHandler.start (List.replicate 8 0)).run pairParser (fun _ => false) pairReads =
        some s ∧ (s.handled = [[1, 2], [3, 4]] ↔ MeetsEnds [[1, 2], [3, 4]] (chunksOf pairReads)) := by
  obtain ⟨s, hrun⟩ : ∃ s, (StreamHandler.start (List.replicate 8 0)).run pairParser (fun _ => false)
      pairReads = some s := ⟨_, rfl⟩
  have hmsgs : ∀ m ∈ [[1, 2], [3, 4]], pairParser.Message m := by simp [pairParser]
  exact ⟨s, hrun, stream_delivery_iff pairParser _ _ hmsgs rfl hrun⟩

/-- Two messages arrive in one chunk, and the second is lost. -/
theorem second_message_dropped :
    (∀ m ∈ [[1, 2], [3, 4]], pairParser.Message m ∧ m.length < 8) ∧
      ∃ s, (StreamHandler.start (List.replicate 8 0)).run pairParser (fun _ => false)
        [.data [1, 2, 3, 4]] = some s ∧ s.handled = [[1, 2]] :=
  ⟨by simp [pairParser], _, rfl, rfl⟩

end Novachains.Net
