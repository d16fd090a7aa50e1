import Novachains.Lib.Buffer
import Novachains.Lib.Bytes

/-!
# Reading messages by their headers

In header mode the event handler reads a header, then a body as long as the header says, and hands
the message on.  The first header comes in two parts, since a request for system information is
shorter than a header.  Allocations of the buffer succeed.

A read that times out is started again from the state of the handler.  What had arrived of it is
lost, and in the second part of the first header the state says that a whole header is read.
-/

namespace Novachains.Net

open Lib

/-! ## The code -/

def sysInfoRequestSize : ℕ := 12

def msgHeaderSize : ℕ := 28

def msgSystemInfoLen : ℕ := 0xFFFFFFFF

def maxMsgLength : ℕ := 512 * 1024 * 1024

def lengthWord (m : List UInt8) : ℕ := decode (m.take 4)

/-- The states `NET_EVENT_HANDLER_STATE_*` of header mode. -/
inductive ReadState
  | header
  | headerLast
  | body
  deriving DecidableEq

/-- The read that is outstanding: the first or last part of the first header, a header, or a
body. -/
inductive Request
  | first
  | last
  | header
  | body
  deriving DecidableEq

structure HeaderHandler where
  state : ReadState
  header : List UInt8
  buf : List UInt8
  hasRecvMsg : Bool
  isConnected : Bool
  pending : Option Request
  /-- The messages `handleMsg` was called with. -/
  handled : List (List UInt8)
  /-- The connection was closed for an invalid length. -/
  refused : Bool
  deriving DecidableEq

variable (s : HeaderHandler)

namespace HeaderHandler

def messageLength : ℕ := lengthWord s.header

/-- `_allocateBuf`: a larger buffer if it is needed; the allocation succeeds. -/
def allocateBuf (len : ℕ) : HeaderHandler :=
  if s.buf.length < len then { s with buf := List.replicate len 0 } else s

def request (r : Request) : HeaderHandler :=
  { s with pending := if s.isConnected then some r else none }

def copyHeader (n : ℕ) : HeaderHandler :=
  { s with buf := overwrite s.buf 0 (s.header.take n) }

/-- The next read, by the state. -/
def asyncRead : HeaderHandler :=
  match s.state with
  | .headerLast => s.request .last
  | .header => if s.hasRecvMsg then s.request .header else s.request .first
  | .body => ((s.allocateBuf s.messageLength).copyHeader msgHeaderSize).request .body

/-- `handleMsg` on the first bytes of the buffer; it may close the connection. -/
def handleMsg (broken : List UInt8 → Bool) (s : HeaderHandler) (len : ℕ) : HeaderHandler :=
  let m := s.buf.take len
  { s with handled := s.handled ++ [m], isConnected := s.isConnected && !broken m }

def handleHeader (broken : List UInt8 → Bool) (s : HeaderHandler) (len : ℕ) : HeaderHandler :=
  let s := (s.allocateBuf len).copyHeader len
  asyncRead { s.handleMsg broken len with state := .header }

/-- `error_close`. -/
def close : HeaderHandler := { s with isConnected := false, pending := none }

/-- `_readCallback` without error. -/
def readCallback (broken : List UInt8 → Bool) (s : HeaderHandler) : HeaderHandler :=
  if s.state = .header then
    if s.messageLength = msgSystemInfoLen then
      handleHeader broken { s with hasRecvMsg := true } sysInfoRequestSize
    else if s.messageLength < msgHeaderSize ∨ maxMsgLength < s.messageLength then
      close { s with refused := true }
    else if s.hasRecvMsg = false then
      -- the state is set back although the read has only begun
      { asyncRead { s with hasRecvMsg := true, state := .headerLast } with state := .header }
    else if s.messageLength = msgHeaderSize then s.handleHeader broken msgHeaderSize
    else asyncRead { s with state := .body }
  else asyncRead { s.handleMsg broken s.messageLength with state := .header }

def requested : Request → ℕ
  | .first => sysInfoRequestSize
  | .last => msgHeaderSize - sysInfoRequestSize
  | .header => msgHeaderSize
  | .body => s.messageLength - msgHeaderSize

def arrive (bs : List UInt8) : Request → HeaderHandler
  | .first | .header => { s with header := overwrite s.header 0 bs }
  | .last => { s with header := overwrite s.header sysInfoRequestSize bs }
  | .body => { s with buf := overwrite s.buf msgHeaderSize bs }

def start : HeaderHandler :=
  ⟨.header, List.replicate msgHeaderSize 0, [], false, true, some .first, [], false⟩

end HeaderHandler

/-- How a read ends: with all its bytes, with a timeout after some of them, or with another
error. -/
inductive ReadEnd
  | full
  | timedOut (bytes : ℕ)
  | failed
  deriving DecidableEq

namespace HeaderHandler

/-- A read ends; `rest` are the bytes still to come. -/
def step (broken : List UInt8 → Bool) (s : HeaderHandler) (rest : List UInt8) (e : ReadEnd) :
    Option (HeaderHandler × List UInt8) :=
  s.pending.bind fun r =>
    match e with
    | .full =>
      if s.requested r ≤ rest.length then
        some (readCallback broken (s.arrive (rest.take (s.requested r)) r),
          rest.drop (s.requested r))
      else none
    | .timedOut k =>
      if k < s.requested r ∧ k ≤ rest.length then
        some (asyncRead (s.arrive (rest.take k) r), rest.drop k)
      else none
    | .failed => some (s.close, rest)

def run (broken : List UInt8 → Bool) (s : HeaderHandler) (rest : List UInt8) :
    List ReadEnd → Option (HeaderHandler × List UInt8)
  | [] => some (s, rest)
  | e :: ends => (s.step broken rest e).bind fun x => run broken x.1 x.2 ends

/-- Nothing more can be read: the connection was refused, or too few bytes are left. -/
def Complete (rest : List UInt8) : Prop :=
  match s.pending with
  | none => s.refused ∨ rest = []
  | some r => rest.length < s.requested r

instance (s : HeaderHandler) (rest : List UInt8) : Decidable (s.Complete rest) :=
  match h : s.pending with
  | none => decidable_of_iff (s.refused ∨ rest = []) (by rw [Complete, h])
  | some r => decidable_of_iff (rest.length < s.requested r) (by rw [Complete, h])

end HeaderHandler

def ValidLength (n : ℕ) : Prop := msgHeaderSize ≤ n ∧ n ≤ maxMsgLength

/-- Perhaps a request for system information, messages, and perhaps a header with an invalid length.
-/
structure HeaderStream where
  sys : Option (List UInt8)
  msgs : List (List UInt8)
  invalid : Option (List UInt8 × List UInt8)
  sys_ok : ∀ m ∈ sys, m.length = sysInfoRequestSize ∧ lengthWord m = msgSystemInfoLen
  msgs_ok : ∀ m ∈ msgs, ValidLength m.length ∧ lengthWord m = m.length
  invalid_ok : ∀ t ∈ invalid, t.1.length = msgHeaderSize ∧ ¬ ValidLength (lengthWord t.1)
  -- at the beginning such a length announces the request
  invalid_first : ∀ t ∈ invalid, sys = none → msgs = [] → lengthWord t.1 ≠ msgSystemInfoLen

namespace HeaderStream

def messages (st : HeaderStream) : List (List UInt8) := st.sys.toList ++ st.msgs

def tail (st : HeaderStream) : List UInt8 :=
  match st.invalid with
  | none => []
  | some t => t.1 ++ t.2

def bytes (st : HeaderStream) : List UInt8 := st.messages.flatten ++ st.tail

end HeaderStream

/-- **What the reader promises**: all messages, and nothing behind a header with an invalid length.
-/
structure Framed (st : HeaderStream) (s : HeaderHandler) (rest : List UInt8) : Prop where
  handled : s.handled = st.messages
  closed : ∀ t ∈ st.invalid, s.refused = true ∧
    rest = t.1.drop (if st.messages = [] then sysInfoRequestSize else msgHeaderSize) ++ t.2

def SecondNotTimedOut : List ReadEnd → Prop
  | [] => True
  | .full :: .timedOut _ :: _ => False
  | .full :: _ => True
  | _ :: ends => SecondNotTimedOut ends

/-- **When nothing is lost**: no read times out after some bytes, nor the second part of the first
header, and no later length is that of a system request. -/
structure Lossless (st : HeaderStream) (ends : List ReadEnd) : Prop where
  whole : ∀ k, .timedOut k ∈ ends → k = 0
  second : st.sys = none → SecondNotTimedOut ends
  later : ∀ t ∈ st.invalid, lengthWord t.1 ≠ msgSystemInfoLen

end Novachains.Net
