import Novachains.Net.HeaderRead
import Mathlib.Tactic.Linarith

/-!
# One read of the header reader

The bytes a handler has taken are those of the messages it handed on and those of the message it
is reading.  A read that is complete adds the bytes that arrived to them, unless a later header has
the length of a request for system information; a timeout forgets some.
-/

namespace Novachains.Net

open Lib List

theorem lengthWord_take {m : List UInt8} {n : ℕ} (h : 4 ≤ n) :
    lengthWord (m.take n) = lengthWord m := by
  rw [lengthWord, take_take, min_eq_left h, lengthWord]

theorem lengthWord_append {m x : List UInt8} (h : 4 ≤ m.length) :
    lengthWord (m ++ x) = lengthWord m := by
  rw [lengthWord, take_append_of_le_length h, lengthWord]

theorem not_validLength_sys : ¬ ValidLength msgSystemInfoLen := by
  unfold ValidLength
  decide

/-- A request for system information or a message. -/
def IsMessage (m : List UInt8) : Prop :=
  m.length = sysInfoRequestSize ∧ lengthWord m = msgSystemInfoLen ∨
    ValidLength m.length ∧ lengthWord m = m.length

namespace HeaderHandler
variable {broken : List UInt8 → Bool} {s s' : HeaderHandler} {rest rest' bs : List UInt8}
  {r : Request}

/-- How much of a header is read before its length is looked at. -/
def headerSize (s : HeaderHandler) : ℕ :=
  if s.hasRecvMsg then msgHeaderSize else sysInfoRequestSize

/-- What has been read of a message that was not handed on. -/
def part (s : HeaderHandler) : List UInt8 :=
  match s.pending with
  | some .last => s.header.take sysInfoRequestSize
  | some .body => s.header
  | some _ => []
  | none => if s.refused then s.header.take s.headerSize else []

def taken (s : HeaderHandler) : List UInt8 := s.handled.flatten ++ s.part

/-- The handler between two reads. -/
structure Ok (s : HeaderHandler) : Prop where
  header : s.header.length = msgHeaderSize
  messages : ∀ m ∈ s.handled, IsMessage m
  begun : s.hasRecvMsg = false → s.handled = []
  accepted : ∀ r, s.pending = some r → s.refused = false
  connected : ∀ r, s.pending = some r → s.isConnected = true
  state : ∀ r, s.pending = some r → s.state = if r = .body then .body else .header
  recv : ∀ r, s.pending = some r → s.hasRecvMsg = decide (r ≠ .first)
  last : s.pending = some .last → s.handled = [] ∧ ValidLength s.messageLength
  body : s.pending = some .body → msgHeaderSize < s.messageLength ∧
    s.messageLength ≤ maxMsgLength ∧ s.messageLength ≤ s.buf.length ∧
    s.buf.take msgHeaderSize = s.header
  refused : s.refused = true → ¬ ValidLength s.messageLength ∧ s.messageLength ≠ msgSystemInfoLen

/-- No header was read while the first one was incomplete. -/
structure Settled (s : HeaderHandler) : Prop where
  waits : s.pending = some .header → s.handled ≠ []
  refused : s.refused = true → (s.hasRecvMsg = true ↔ s.handled ≠ [])

/-- The callback of a handler `s` that had handed on its messages and read `bs` behind them. -/
structure Reads (s s' : HeaderHandler) (bs : List UInt8) : Prop where
  ok : Ok s'
  taken : s'.taken = s.handled.flatten ++ bs
  settled : (s.hasRecvMsg = true → s.handled ≠ [] ∨ ValidLength s.messageLength) → Settled s'
  last : s'.pending = some .last → s.hasRecvMsg = false
  first : s'.pending ≠ some .first

theorem asyncRead_header (h : s.state = .header) :
    s.asyncRead = s.request (if s.hasRecvMsg then .header else .first) := by
  cases hr : s.hasRecvMsg <;> simp [asyncRead, h, hr]

/-- A message is handed on, and the next header is read. -/
theorem reads_message {m : List UInt8} (hstate : s'.state = .header) (hrecv : s'.hasRecvMsg = true)
    (hacc : s'.refused = false) (hlen : s'.header.length = msgHeaderSize)
    (hmsgs : ∀ m ∈ s.handled, IsMessage m) (hm : IsMessage m)
    (hhandled : s'.handled = s.handled ++ [m]) : Reads s s'.asyncRead m := by
  have hall : ∀ x ∈ s'.handled, IsMessage x := by
    rw [hhandled]
    simpa [or_imp, forall_and] using ⟨hmsgs, hm⟩
  rw [asyncRead_header hstate, hrecv, if_pos rfl]
  cases hc : s'.isConnected <;>
    refine ⟨⟨hlen, hall, ?_, ?_, ?_, ?_, ?_, ?_, ?_, ?_⟩, ?_, fun _ => ⟨?_, ?_⟩, ?_, ?_⟩ <;>
    simp_all [request, HeaderHandler.taken, part]

theorem allocateBuf_eq (s : HeaderHandler) (len : ℕ) :
    ∃ buf, s.allocateBuf len = { s with buf := buf } ∧ len ≤ buf.length := by
  unfold allocateBuf
  split_ifs with h
  · exact ⟨_, rfl, by simp⟩
  · exact ⟨s.buf, rfl, Nat.le_of_not_lt h⟩

theorem take_overwrite_zero {buf bs : List UInt8} {n : ℕ} (h : bs.length = n) :
    (overwrite buf 0 bs).take n = bs := by
  have := @take_overwrite _ buf bs 0 (Nat.zero_le _)
  rwa [Nat.zero_add, h, take_zero, nil_append] at this

/-- A handler whose callback runs, when a header or its first part has arrived. -/
structure Arrived (s : HeaderHandler) : Prop where
  state : s.state = .header
  accepted : s.refused = false
  connected : s.isConnected = true
  header : s.header.length = msgHeaderSize
  messages : ∀ m ∈ s.handled, IsMessage m
  begun : s.hasRecvMsg = false → s.handled = []

variable {len : ℕ}

theorem Arrived.handleHeader (h : Arrived s) (hle : len ≤ msgHeaderSize)
    (hm : IsMessage (s.header.take len)) :
    Reads s (handleHeader broken { s with hasRecvMsg := true } len) (s.header.take len) := by
  obtain ⟨buf, hbuf, -⟩ := allocateBuf_eq { s with hasRecvMsg := true } len
  have htake := @take_overwrite_zero buf (s.header.take len) len (by rw [length_take, h.header]; omega)
  rw [HeaderHandler.handleHeader, hbuf]
  exact reads_message rfl rfl h.accepted h.header h.messages hm (by simp [handleMsg, copyHeader, htake])

/-- The body of a message is read, or read again. -/
theorem asyncRead_body (hstate : s.state = .body) (hconn : s.isConnected = true)
    (hlen : s.header.length = msgHeaderSize) (hlong : msgHeaderSize < s.messageLength) :
    ∃ buf, s.asyncRead = { s with buf := buf, pending := some .body } ∧
      s.messageLength ≤ buf.length ∧ buf.take msgHeaderSize = s.header := by
  obtain ⟨buf, hbuf, hroom⟩ := s.allocateBuf_eq s.messageLength
  have hall : s.header.take msgHeaderSize = s.header := by rw [← hlen, take_length]
  refine ⟨overwrite buf 0 s.header, ?_, ?_, take_overwrite_zero hlen⟩
  · simp only [asyncRead, hstate, hbuf, copyHeader, request, hconn, hall, if_true]
  · rw [length_overwrite (by omega)]
    exact hroom

/-- The callback with a header, or with the first part of the first one. -/
theorem Arrived.callback (h : Arrived s) :
    (s.hasRecvMsg = true ∧ s.messageLength = msgSystemInfoLen ∧
      Reads s (s.readCallback broken) (s.header.take sysInfoRequestSize)) ∨
    Reads s (s.readCallback broken) (s.header.take s.headerSize) := by
  have hlen := h.header
  have hacc := h.accepted
  have hconn := h.connected
  have hmsgs := h.messages
  have hbegun := h.begun
  have hall : s.header.take msgHeaderSize = s.header := by rw [← hlen, take_length]
  unfold readCallback
  rw [if_pos h.state]
  split_ifs with hsys hbad hfirst hshort
  · have hm : IsMessage (s.header.take sysInfoRequestSize) :=
      .inl ⟨by rw [length_take, h.header]; rfl, by rwa [lengthWord_take (by decide)]⟩
    have hread := @Arrived.handleHeader broken s _ h (by decide) hm
    cases hrecv : s.hasRecvMsg with
    | true => exact .inl ⟨rfl, hsys, hread⟩
    | false =>
      rw [headerSize, hrecv]
      exact .inr hread
  · have hinv : ¬ ValidLength s.messageLength := by unfold ValidLength; omega
    have hrecv : s.handled ≠ [] → s.hasRecvMsg = true := by simpa using mt hbegun
    refine .inr ⟨⟨hlen, hmsgs, hbegun, ?_, ?_, ?_, ?_, ?_, ?_, fun _ => ⟨hinv, hsys⟩⟩, rfl, fun hset =>
      ⟨?_, fun _ => ⟨fun hrecv => (hset hrecv).resolve_right hinv, hrecv⟩⟩, ?_, ?_⟩ <;> simp [close]
  · have hvalid : ValidLength s.messageLength := by unfold ValidLength; omega
    refine .inr ⟨⟨hlen, hmsgs, ?_, ?_, ?_, ?_, ?_, fun _ => ⟨hbegun hfirst, hvalid⟩, ?_, ?_⟩, ?_,
      fun _ => ⟨?_, ?_⟩, ?_, ?_⟩ <;>
      simp [asyncRead, request, HeaderHandler.taken, part, headerSize, hfirst, hacc, hconn]
  · have hrecv : s.hasRecvMsg = true := by simpa using hfirst
    have hm : IsMessage (s.header.take msgHeaderSize) := by
      rw [hall]
      exact .inr ⟨by rw [hlen]; exact ⟨le_rfl, by decide⟩, by rw [hlen]; exact hshort⟩
    have hs : { s with hasRecvMsg := true } = s := by rw [← hrecv]
    have hread := @Arrived.handleHeader broken s _ h le_rfl hm
    rw [hs] at hread
    rw [headerSize, hrecv]
    exact .inr hread
  · have hrecv : s.hasRecvMsg = true := by simpa using hfirst
    have hlong : msgHeaderSize < s.messageLength := by omega
    have hle : s.messageLength ≤ maxMsgLength := by omega
    obtain ⟨buf, hread, hroom, hcopy⟩ := @asyncRead_body { s with state := .body } rfl hconn hlen hlong
    rw [hread, headerSize, if_pos hrecv, hall]
    refine .inr ⟨⟨hlen, hmsgs, hbegun, ?_, ?_, ?_, ?_, ?_, fun _ => ⟨hlong, hle, hroom, hcopy⟩, ?_⟩, ?_,
      fun _ => ⟨?_, ?_⟩, ?_, ?_⟩ <;>
      simp [HeaderHandler.taken, part, hrecv, hacc, hconn]

/-- The callback with a body. -/
theorem Ok.callback_body (h : Ok s) (hr : s.pending = some .body)
    (hbs : bs.length = s.requested .body) :
    Reads s (readCallback broken (s.arrive bs .body)) (s.header ++ bs) := by
  obtain ⟨hlong, hle, hroom, hcopy⟩ := h.body hr
  have htake : (overwrite s.buf msgHeaderSize bs).take s.messageLength = s.header ++ bs := by
    have := @take_overwrite _ s.buf bs msgHeaderSize (by omega)
    rwa [hbs, requested, Nat.add_sub_cancel' hlong.le, hcopy] at this
  have hlen : (s.header ++ bs).length = s.messageLength := by
    rw [List.length_append, hbs, h.header, requested, Nat.add_sub_cancel' hlong.le]
  have hm : IsMessage (s.header ++ bs) := by
    rw [IsMessage, hlen, lengthWord_append (by rw [h.header]; decide)]
    exact .inr ⟨⟨hlong.le, hle⟩, rfl⟩
  have hstate : (s.arrive bs .body).state ≠ .header := by
    rw [show (s.arrive bs .body).state = .body from h.state _ hr]
    decide
  rw [readCallback, if_neg hstate]
  refine reads_message rfl (h.recv _ hr) (h.accepted _ hr) h.header h.messages hm ?_
  simp only [handleMsg, arrive]
  rw [← htake]
  rfl

/-- A header, or a part of it, goes behind what has been read of it. -/
theorem Ok.arrive_eq (h : Ok s) (hr : s.pending = some r) (hbody : r ≠ .body) : ∃ off,
    s.arrive bs r = { s with header := overwrite s.header off bs } ∧
      off + s.requested r = s.headerSize ∧ s.part = s.header.take off := by
  have hrecv := h.recv _ hr
  cases r with
  | body => exact absurd rfl hbody
  | first => exact ⟨0, rfl, by simp [headerSize, requested, hrecv], by simp [part, hr]⟩
  | last => exact ⟨12, rfl, by simp [headerSize, requested, hrecv]; rfl, by simp [part, hr]; rfl⟩
  | header => exact ⟨0, rfl, by simp [headerSize, requested, hrecv], by simp [part, hr]⟩

theorem Ok.arrived (h : Ok s) (hr : s.pending = some r) (hbody : r ≠ .body)
    (hbs : bs.length ≤ s.requested r) : Arrived (s.arrive bs r) ∧
      (s.arrive bs r).handled = s.handled ∧ (s.arrive bs r).hasRecvMsg = s.hasRecvMsg ∧
      (bs.length = s.requested r → (s.arrive bs r).header.take s.headerSize = s.part ++ bs) := by
  obtain ⟨off, harr, hoff, hpart⟩ := @Ok.arrive_eq _ bs _ h hr hbody
  have hsize : s.headerSize ≤ s.header.length := by
    rw [h.header]
    unfold headerSize
    split_ifs <;> decide
  have hstate := h.state _ hr
  rw [if_neg hbody] at hstate
  rw [harr]
  refine ⟨⟨hstate, h.accepted _ hr, h.connected _ hr,
    (length_overwrite (by omega)).trans h.header, h.messages, h.begun⟩, rfl, rfl, fun heq => ?_⟩
  rw [← hoff, ← heq, hpart]
  exact take_overwrite (by omega)

/-- A header that has been read has a valid length. -/
theorem Ok.lengthWord_part (h : Ok s) (hr : s.pending = some r) (hpart : r = .last ∨ r = .body) :
    4 ≤ s.part.length ∧ lengthWord s.part = s.messageLength ∧ ValidLength s.messageLength := by
  rcases hpart with rfl | rfl
  · rw [part, hr]
    exact ⟨by rw [length_take, h.header]; decide, lengthWord_take (by decide), (h.last hr).2⟩
  · obtain ⟨hlong, hle, -⟩ := h.body hr
    rw [part, hr]
    exact ⟨by rw [h.header]; decide, rfl, hlong.le, hle⟩

/-- `s'` has taken `bs` from `s`, unless it is a later header with the length of a system request.
-/
structure Full (s : HeaderHandler) (r : Request) (bs : List UInt8) (s' : HeaderHandler) : Prop where
  ok : Ok s'
  sub : s'.taken <+ s.taken ++ bs
  taken : (r = .header → lengthWord bs ≠ msgSystemInfoLen) → s'.taken = s.taken ++ bs
  settled : Settled s → Settled s'
  last : s'.pending = some .last → r = .first
  first : s'.pending ≠ some .first

theorem Ok.full_body (h : Ok s) (hr : s.pending = some .body)
    (hbs : bs.length = s.requested .body) :
    Full s .body bs (readCallback broken (s.arrive bs .body)) := by
  have hread := @Ok.callback_body broken _ _ h hr hbs
  have hrecv := h.recv _ hr
  have htaken := hread.taken
  rw [← append_assoc, show s.handled.flatten ++ s.header = s.taken by simp [taken, part, hr]] at htaken
  refine ⟨hread.ok, htaken ▸ .refl _, fun _ => htaken, fun _ => hread.settled fun _ => .inr
    (h.lengthWord_part hr (.inr rfl)).2.2, fun hlast => ?_, hread.first⟩
  rw [hread.last hlast] at hrecv
  cases hrecv

theorem Ok.full (h : Ok s) (hr : s.pending = some r) (hbs : bs.length = s.requested r) :
    Full s r bs (readCallback broken (s.arrive bs r)) := by
  by_cases hbody : r = .body
  · subst hbody
    exact h.full_body hr hbs
  obtain ⟨harrived, hhandled, hrecv, htake⟩ := h.arrived hr hbody hbs.le
  replace htake := htake hbs
  generalize s.arrive bs r = a at harrived hhandled hrecv htake
  have hword : a.messageLength = lengthWord (s.part ++ bs) := by
    have hsize : 4 ≤ s.headerSize := by unfold headerSize; split_ifs <;> decide
    rw [← htake, lengthWord_take hsize]
    rfl
  have hfirst : a.hasRecvMsg = false → r = .first := by simp [hrecv, h.recv _ hr]
  have hvalid : a.hasRecvMsg = true → r = .header ∧ a.messageLength = lengthWord bs ∨
      ValidLength a.messageLength := by
    intro ht
    rw [hword]
    cases r with
    | first => simp [hrecv, h.recv _ hr] at ht
    | last =>
      obtain ⟨hfour, hsame, hval⟩ := h.lengthWord_part hr (.inl rfl)
      rw [lengthWord_append hfour, hsame]
      exact .inr hval
    | header => exact .inl ⟨rfl, by rw [part, hr, nil_append]⟩
    | body => exact absurd rfl hbody
  have hset : Settled s → a.hasRecvMsg = true → a.handled ≠ [] ∨ ValidLength a.messageLength := by
    intro hs ht
    refine (hvalid ht).imp_left ?_
    rintro ⟨rfl, -⟩
    exact hhandled ▸ hs.waits hr
  have hsize : a.headerSize = s.headerSize := by rw [headerSize, headerSize, hrecv]
  rcases @Arrived.callback broken _ harrived with ⟨ht, hsys, hread⟩ | hread
  · -- the bytes behind the request are lost
    have hshort : a.header.take sysInfoRequestSize <+: s.part ++ bs := by
      rw [← htake]
      exact take_prefix_take_left (by rw [headerSize, if_pos (hrecv ▸ ht)]; decide)
    refine ⟨hread.ok, ?_, fun hne => ?_, fun hs => hread.settled (hset hs),
      fun hl => hfirst (hread.last hl), hread.first⟩
    · rw [hread.taken, hhandled, taken, append_assoc]
      exact hshort.sublist.append_left _
    · rcases hvalid ht with ⟨rfl, hbsw⟩ | hval
      · exact absurd (hbsw.symm.trans hsys) (hne rfl)
      · exact absurd (hsys ▸ hval) not_validLength_sys
  · have htaken := hread.taken
    rw [hsize, htake, hhandled, ← append_assoc] at htaken
    exact ⟨hread.ok, htaken ▸ .refl _, fun _ => htaken, fun hs => hread.settled (hset hs),
      fun hl => hfirst (hread.last hl), hread.first⟩

/-- A read that times out is started again, the second part of the first header as a header. -/
theorem Ok.again (h : Ok s) (hr : s.pending = some r) (hbs : bs.length ≤ s.requested r) :
    Ok (asyncRead (s.arrive bs r)) ∧
    (asyncRead (s.arrive bs r)).pending = some (if r = .last then .header else r) ∧
    (asyncRead (s.arrive bs r)).handled = s.handled ∧
    (asyncRead (s.arrive bs r)).taken ++ (if r = .last then s.part else []) = s.taken := by
  have hrecv := h.recv _ hr
  by_cases hbody : r = .body
  · subst hbody
    obtain ⟨hlong, hle, -⟩ := h.body hr
    obtain ⟨buf, hread, hroom, hcopy⟩ := @asyncRead_body (s.arrive bs .body) (h.state _ hr)
      (h.connected _ hr) h.header hlong
    rw [hread]
    refine ⟨⟨h.header, h.messages, h.begun, ?_, ?_, ?_, ?_, ?_, fun _ => ⟨hlong, hle, hroom, hcopy⟩,
      h.refused⟩, rfl, rfl, ?_⟩ <;>
      simp [arrive, HeaderHandler.taken, part, hr, h.accepted _ hr, h.connected _ hr, h.state _ hr,
        hrecv]
  · obtain ⟨harrived, hhandled, ha, -⟩ := h.arrived hr hbody hbs
    generalize s.arrive bs r = a at harrived hhandled ha
    have hread : a.asyncRead = { a with pending := some (if r = .last then .header else r) } := by
      rw [asyncRead_header harrived.state, request, harrived.connected, ha, hrecv]
      cases r <;> simp_all
    rw [hread]
    refine ⟨⟨harrived.header, harrived.messages, harrived.begun, ?_, ?_, ?_, ?_, ?_, ?_, ?_⟩, rfl,
      hhandled, ?_⟩ <;>
      cases r <;>
      simp_all [HeaderHandler.taken, part, harrived.accepted, harrived.connected, harrived.state]

end HeaderHandler
end Novachains.Net
