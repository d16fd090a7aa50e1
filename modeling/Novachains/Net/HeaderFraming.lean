import Novachains.Net.HeaderStep
import Novachains.Lib.Framing

/-!
# When the messages of a connection are handed on

The bytes taken and those still to come are always a part of what the connection had.  A timeout
that loses bytes makes them fewer; without one they are the bytes of the connection, which can be
cut into messages in one way only.
-/

namespace Novachains.Net

open Lib HeaderHandler List

variable {broken : List UInt8 → Bool} {st : HeaderStream} {s s' : HeaderHandler}
  {rest rest' m : List UInt8} {ends : List ReadEnd} {todo : List (List UInt8)} {r : Request}

namespace HeaderHandler

theorem step_full (h : s.step broken rest .full = some (s', rest')) : ∃ r, s.pending = some r ∧
    s.requested r ≤ rest.length ∧ s' = readCallback broken (s.arrive (rest.take (s.requested r)) r) ∧
      rest' = rest.drop (s.requested r) := by
  obtain ⟨r, hr, h⟩ := Option.bind_eq_some_iff.mp h
  obtain ⟨hle, heq⟩ := Option.ite_none_right_eq_some.mp h
  rw [Option.some_inj, Prod.mk.injEq] at heq
  exact ⟨r, hr, hle, heq.1.symm, heq.2.symm⟩

theorem step_timedOut {k : ℕ} (h : s.step broken rest (.timedOut k) = some (s', rest')) :
    ∃ r, s.pending = some r ∧ k < s.requested r ∧ k ≤ rest.length ∧
      s' = asyncRead (s.arrive (rest.take k) r) ∧ rest' = rest.drop k := by
  obtain ⟨r, hr, h⟩ := Option.bind_eq_some_iff.mp h
  obtain ⟨⟨hk, hle⟩, heq⟩ := Option.ite_none_right_eq_some.mp h
  rw [Option.some_inj, Prod.mk.injEq] at heq
  exact ⟨r, hr, hk, hle, heq.1.symm, heq.2.symm⟩

theorem step_failed (h : s.step broken rest .failed = some (s', rest')) :
    (∃ r, s.pending = some r) ∧ s' = s.close ∧ rest' = rest := by
  obtain ⟨r, hr, h⟩ := Option.bind_eq_some_iff.mp h
  simp only [Option.some.injEq, Prod.mk.injEq] at h
  exact ⟨⟨r, hr⟩, h.1.symm, h.2.symm⟩

theorem Ok.step_full (h : Ok s) (hstep : s.step broken rest .full = some (s', rest')) :
    ∃ r bs, s.pending = some r ∧ rest = bs ++ rest' ∧ bs.length = s.requested r ∧
      Full s r bs s' := by
  obtain ⟨r, hr, hle, rfl, rfl⟩ := HeaderHandler.step_full hstep
  have hbs : (rest.take (s.requested r)).length = s.requested r := length_take_of_le hle
  exact ⟨r, _, hr, (take_append_drop _ _).symm, hbs, h.full hr hbs⟩

/-- A timeout loses the bytes that had arrived and the first part of the first header. -/
theorem Ok.step_timedOut {k : ℕ} (h : Ok s)
    (hstep : s.step broken rest (.timedOut k) = some (s', rest')) : ∃ r bs, s.pending = some r ∧
      Ok s' ∧ s'.pending = some (if r = .last then .header else r) ∧ s'.handled = s.handled ∧
      rest = bs ++ rest' ∧ bs.length = k ∧
      s'.taken ++ (if r = .last then s.part else []) = s.taken := by
  obtain ⟨r, hr, hk, hle, rfl, rfl⟩ := HeaderHandler.step_timedOut hstep
  have hbs : (rest.take k).length = k := length_take_of_le hle
  obtain ⟨hok, hpending, hhandled, htaken⟩ := h.again hr (hbs.le.trans hk.le)
  exact ⟨r, _, hr, hok, hpending, hhandled, (take_append_drop _ _).symm, hbs, htaken⟩

theorem Ok.step_again {k : ℕ} (h : Ok s) (hset : Settled s) (hlast : s.pending ≠ some .last)
    (hstep : s.step broken rest (.timedOut k) = some (s', rest')) : Ok s' ∧ Settled s' ∧
      s'.pending = s.pending ∧ s'.taken = s.taken ∧ ∃ bs, rest = bs ++ rest' ∧ bs.length = k := by
  obtain ⟨r, bs, hr, hok, hpending, hhandled, hrest, hbs, htaken⟩ := h.step_timedOut hstep
  have hne : r ≠ .last := by
    rintro rfl
    exact hlast hr
  rw [if_neg hne] at hpending htaken
  refine ⟨hok, ⟨?_, by simp [hok.accepted _ hpending]⟩, hpending.trans hr.symm, by simpa using htaken,
    bs, hrest, hbs⟩
  rw [hpending, hhandled, ← hr]
  exact hset.waits

theorem Ok.close (h : Ok s) : Ok s.close :=
  ⟨h.header, h.messages, h.begun, by simp [HeaderHandler.close], by simp [HeaderHandler.close],
    by simp [HeaderHandler.close], by simp [HeaderHandler.close], by simp [HeaderHandler.close],
    by simp [HeaderHandler.close], h.refused⟩

theorem Ok.taken_close (h : Ok s) (hr : s.pending = some r) : s.close.taken = s.handled.flatten := by
  simp [taken, part, HeaderHandler.close, h.accepted r hr]

theorem Ok.step {e : ReadEnd} (h : Ok s) (hstep : s.step broken rest e = some (s', rest')) :
    Ok s' ∧ s'.taken ++ rest' <+ s.taken ++ rest := by
  cases e with
  | full =>
    obtain ⟨r, bs, -, rfl, -, hfull⟩ := h.step_full hstep
    rw [← append_assoc]
    exact ⟨hfull.ok, hfull.sub.append_right _⟩
  | timedOut k =>
    obtain ⟨r, bs, -, hok, -, -, rfl, -, htaken⟩ := h.step_timedOut hstep
    rw [← htaken]
    exact ⟨hok, (sublist_append_left _ _).append (sublist_append_right _ _)⟩
  | failed =>
    obtain ⟨⟨r, hr⟩, rfl, rfl⟩ := step_failed hstep
    rw [h.taken_close hr]
    exact ⟨h.close, (sublist_append_left _ _).append_right _⟩

theorem Ok.run (h : Ok s) (hrun : s.run broken rest ends = some (s', rest')) :
    Ok s' ∧ s'.taken ++ rest' <+ s.taken ++ rest := by
  induction ends generalizing s rest with
  | nil =>
    obtain ⟨rfl, rfl⟩ : s = s' ∧ rest = rest' := by simpa [HeaderHandler.run] using hrun
    exact ⟨h, .refl _⟩
  | cons e ends ih =>
    obtain ⟨⟨t, rest₁⟩, hstep, hrest⟩ := Option.bind_eq_some_iff.mp hrun
    obtain ⟨hok, hsub⟩ := h.step hstep
    obtain ⟨hok', hsub'⟩ := ih hok hrest
    exact ⟨hok', hsub'.trans hsub⟩

theorem ok_start : Ok start := by
  constructor <;> simp [start]

end HeaderHandler

theorem IsMessage.le_length (h : IsMessage m) : sysInfoRequestSize ≤ m.length := by
  rcases h with ⟨hlen, -⟩ | ⟨⟨hle, -⟩, -⟩
  · exact hlen.ge
  · exact le_trans (by decide) hle

theorem IsMessage.length_eq (h : IsMessage m) (hvalid : ValidLength (lengthWord m)) :
    m.length = lengthWord m := by
  rcases h with ⟨-, hword⟩ | ⟨-, hword⟩
  · exact absurd (hword ▸ hvalid) not_validLength_sys
  · exact hword.symm

theorem lengthWord_of_append {x m' x' : List UInt8} (h : m ++ x = m' ++ x') (hm : 4 ≤ m.length)
    (hm' : 4 ≤ m'.length) : lengthWord m = lengthWord m' := by
  rw [← @lengthWord_append m x hm, h, lengthWord_append hm']

theorem IsMessage.unique (m m' : List UInt8) (h : IsMessage m) (h' : IsMessage m') (hpre : m <+: m') :
    m = m' := by
  have hle : 4 ≤ sysInfoRequestSize := by decide
  obtain ⟨x, hx⟩ := hpre
  have hword := lengthWord_of_append (hx.trans (append_nil m').symm) (hle.trans h.le_length)
    (hle.trans h'.le_length)
  refine IsPrefix.eq_of_length ⟨x, hx⟩ ?_
  rcases h with ⟨hlen, hsys⟩ | ⟨hvalid, hself⟩ <;> rcases h' with ⟨hlen', hsys'⟩ | ⟨hvalid', hself'⟩
  · rw [hlen, hlen']
  · rw [← hself', ← hword, hsys] at hvalid'
    exact absurd hvalid' not_validLength_sys
  · rw [← hself, hword, hsys'] at hvalid
    exact absurd hvalid not_validLength_sys
  · rw [← hself, hword, hself']

namespace HeaderStream

theorem isMessage (st : HeaderStream) : ∀ m ∈ st.messages, IsMessage m := by
  intro m hm
  rcases mem_append.mp hm with hm | hm
  · exact .inl (st.sys_ok m (by simpa using hm))
  · exact .inr (st.msgs_ok m hm)

/-- Behind the first message there is no request for system information. -/
theorem mem_msgs {done : List (List UInt8)} (h : st.messages = done ++ todo) (hdone : done ≠ []) :
    ∀ m ∈ todo, m ∈ st.msgs := by
  intro m hm
  unfold messages at h
  cases hsys : st.sys with
  | none =>
    rw [hsys, Option.toList_none, nil_append] at h
    simp [h, hm]
  | some m' =>
    cases done with
    | nil => exact absurd rfl hdone
    | cons x done =>
      rw [hsys] at h
      have hmsgs : st.msgs = done ++ todo := (cons.inj h).2
      simp [hmsgs, hm]

end HeaderStream

/-- Nothing was lost: the messages handed on are the first ones of the connection. -/
theorem HeaderHandler.Ok.exists_todo (h : Ok s) (hkept : s.taken ++ rest = st.bytes)
    (hlater : ∀ t ∈ st.invalid, lengthWord t.1 ≠ msgSystemInfoLen) :
    ∃ todo, st.messages = s.handled ++ todo ∧ s.part ++ rest = todo.flatten ++ st.tail := by
  rw [taken, append_assoc] at hkept
  rcases flatten_append_cases IsMessage.unique h.messages st.isMessage hkept with
    hfirst | ⟨m, c, hmore, htail⟩
  · exact hfirst
  · -- a message would be read from the header with the invalid length
    have hm : IsMessage m := h.messages m (by simp [hmore])
    have hle := hm.le_length
    cases hinv : st.invalid with
    | none =>
      rw [HeaderStream.tail, hinv] at htail
      simp [(append_eq_nil_iff.mp htail.symm).1, sysInfoRequestSize] at hle
    | some t =>
      obtain ⟨hlen, hbad⟩ := st.invalid_ok t hinv
      rw [HeaderStream.tail, hinv] at htail
      have hword := lengthWord_of_append htail (by rw [hlen]; decide) (le_trans (by decide) hle)
      rcases hm with ⟨-, hsys⟩ | ⟨hvalid, hself⟩
      · exact absurd (hword.trans hsys) (hlater t hinv)
      · rw [← hself, ← hword] at hvalid
        exact absurd hvalid hbad

/-- A header that was refused. -/
theorem HeaderHandler.Ok.part_refused (h : Ok s) (href : s.refused = true) :
    s.part.length = s.headerSize ∧ 4 ≤ s.headerSize ∧ s.headerSize ≤ msgHeaderSize ∧
      lengthWord s.part = s.messageLength := by
  have hpart : s.part = s.header.take s.headerSize := by
    cases hr : s.pending with
    | none => simp [part, hr, href]
    | some r => simp [h.accepted r hr] at href
  have hsize : 4 ≤ s.headerSize ∧ s.headerSize ≤ msgHeaderSize := by
    unfold headerSize
    split_ifs <;> decide
  rw [hpart, lengthWord_take hsize.1, length_take, h.header]
  exact ⟨min_eq_left hsize.2, hsize.1, hsize.2, rfl⟩

section Lossless
variable (hlater : ∀ t ∈ st.invalid, lengthWord t.1 ≠ msgSystemInfoLen)
include hlater

/-- Too few bytes are left for the next read: everything was handed on. -/
theorem HeaderHandler.Ok.all_handled (h : Ok s) (hset : Settled s)
    (hkept : s.taken ++ rest = st.bytes) (hr : s.pending = some r)
    (hshort : rest.length < s.requested r) : s.handled = st.messages ∧ st.invalid = none := by
  obtain ⟨todo, hmsgs, hpart⟩ := h.exists_todo hkept hlater
  have hlen := congrArg length hpart
  have hheader := h.header
  have hknown := @Ok.lengthWord_part _ _ h hr
  have hfour : 4 ≤ sysInfoRequestSize := by decide
  obtain rfl : todo = [] := by
    cases todo with
    | nil => rfl
    | cons m todo =>
      have hm : IsMessage m := st.isMessage m (by simp [hmsgs])
      have hle := hm.le_length
      rw [flatten_cons, append_assoc] at hpart
      simp only [flatten_cons, List.length_append] at hlen
      -- a message that has begun is as long as its header says
      have hbegun : r = .last ∨ r = .body → m.length = s.messageLength ∧ msgHeaderSize ≤ m.length := by
        intro hr
        obtain ⟨hpart4, hsame, hvalid⟩ := hknown hr
        have hword := lengthWord_of_append hpart hpart4 (hfour.trans hle)
        have hself := hm.length_eq (by rwa [← hword, hsame])
        rw [hself, ← hword, hsame]
        exact ⟨rfl, hvalid.1⟩
      cases r with
      | first =>
        simp only [part, hr, length_nil, requested] at hlen hshort
        omega
      | last =>
        have hbegun := hbegun (.inl rfl)
        simp only [part, hr, length_take, requested, sysInfoRequestSize, msgHeaderSize] at *
        omega
      | header =>
        have hge := (st.msgs_ok m (HeaderStream.mem_msgs hmsgs (hset.waits hr) m (by simp))).1.1
        simp only [part, hr, length_nil, requested] at hlen hshort
        omega
      | body =>
        have hbegun := hbegun (.inr rfl)
        simp only [part, hr, requested] at hlen hshort
        omega
  refine ⟨by rw [hmsgs, append_nil], ?_⟩
  cases hinv : st.invalid with
  | none => rfl
  | some t =>
    obtain ⟨ht, hbad⟩ := st.invalid_ok t hinv
    simp only [HeaderStream.tail, hinv, flatten_nil, nil_append, List.length_append] at hpart hlen
    cases r with
    | body =>
      obtain ⟨hpart4, hsame, hvalid⟩ := hknown (.inr rfl)
      have hword := lengthWord_of_append hpart hpart4 (by rw [ht]; decide)
      exact absurd (hword ▸ hsame ▸ hvalid) hbad
    | first | last | header =>
      simp only [part, hr, length_nil, length_take, requested, sysInfoRequestSize, msgHeaderSize] at *
      omega

theorem HeaderHandler.Ok.framed_refused (h : Ok s) (hset : Settled s)
    (hkept : s.taken ++ rest = st.bytes) (href : s.refused = true) : Framed st s rest := by
  obtain ⟨todo, hmsgs, hpart⟩ := h.exists_todo hkept hlater
  obtain ⟨hbad, hsys⟩ := h.refused href
  obtain ⟨hlen, hfour, hle, hword⟩ := h.part_refused href
  obtain rfl : todo = [] := by
    cases todo with
    | nil => rfl
    | cons m todo =>
      have hm := st.isMessage m (by simp [hmsgs])
      rw [flatten_cons, append_assoc] at hpart
      have hsame := lengthWord_of_append hpart (hlen ▸ hfour) (le_trans (by decide) hm.le_length)
      rw [hword] at hsame
      rcases hm with ⟨-, hm⟩ | ⟨hvalid, hself⟩
      · exact absurd (hsame.trans hm) hsys
      · exact absurd (hsame ▸ hself ▸ hvalid) hbad
  rw [append_nil] at hmsgs
  refine ⟨hmsgs.symm, fun t ht => ⟨href, ?_⟩⟩
  rw [flatten_nil, nil_append, HeaderStream.tail, ht] at hpart
  have hdrop := congrArg (drop s.headerSize) hpart
  have hrecv := hset.refused href
  rw [drop_left' hlen, drop_append_of_le_length (by rw [(st.invalid_ok t ht).1]; exact hle)] at hdrop
  rw [hdrop, hmsgs, headerSize]
  by_cases hnil : s.handled = [] <;> simp_all

theorem HeaderHandler.Ok.framed_closed (h : Ok s) (hkept : s.taken ++ [] = st.bytes)
    (hr : s.pending = none) (href : s.refused = false) : Framed st s [] := by
  obtain ⟨todo, hmsgs, hpart⟩ := h.exists_todo hkept hlater
  simp only [part, hr, href, Bool.false_eq_true, if_false, nil_append] at hpart
  obtain ⟨htodo, htail⟩ := append_eq_nil_iff.mp hpart.symm
  constructor
  · cases todo with
    | nil => rw [hmsgs, append_nil]
    | cons m todo =>
      have hle := (st.isMessage m (by simp [hmsgs])).le_length
      simp [flatten_eq_nil_iff.mp htodo m (by simp), sysInfoRequestSize] at hle
  · intro t ht
    have hlen := (st.invalid_ok t ht).1
    rw [HeaderStream.tail, ht] at htail
    simp [(append_eq_nil_iff.mp htail).1, msgHeaderSize] at hlen

/-- A reader that has lost nothing and cannot go on has kept its promise. -/
theorem HeaderHandler.Ok.framed (h : Ok s) (hset : Settled s) (hkept : s.taken ++ rest = st.bytes)
    (hcomplete : s.Complete rest) : Framed st s rest := by
  cases hr : s.pending with
  | some r =>
    rw [Complete, hr] at hcomplete
    obtain ⟨hhandled, hinv⟩ := h.all_handled hlater hset hkept hr hcomplete
    exact ⟨hhandled, by simp [hinv]⟩
  | none =>
    rw [Complete, hr] at hcomplete
    cases href : s.refused with
    | true => exact h.framed_refused hlater hset hkept href
    | false =>
      obtain rfl : rest = [] := by simpa [href] using hcomplete
      exact h.framed_closed hlater hkept hr href

/-! ## Runs without a loss -/

omit hlater in
theorem run_of_pending_none (hr : s.pending = none)
    (hrun : s.run broken rest ends = some (s', rest')) : ends = [] ∧ s' = s ∧ rest' = rest := by
  cases ends with
  | nil => simpa [HeaderHandler.run, eq_comm] using hrun
  | cons e ends => simp [HeaderHandler.run, step, hr] at hrun

/-- The first header is read in two parts that belong together; `ends` are the reads to come. -/
structure InStep (st : HeaderStream) (s : HeaderHandler) (ends : List ReadEnd) : Prop where
  settled : Settled s
  first : s.pending = some .first → st.sys = none → SecondNotTimedOut ends
  last : s.pending = some .last → ∀ k l, ends ≠ .timedOut k :: l

/-- The reader is between the two parts of a header: there is no request for system information. -/
theorem HeaderHandler.Ok.sys_eq_none (h : Ok s) (hr : s.pending = some .last)
    (hkept : s.taken ++ rest = st.bytes) : st.sys = none := by
  obtain ⟨todo, hmsgs, hpart⟩ := h.exists_todo hkept hlater
  obtain ⟨hfour, hsame, hvalid⟩ := h.lengthWord_part hr (.inl rfl)
  cases hsys : st.sys with
  | none => rfl
  | some m =>
    obtain ⟨hlen, hword⟩ := st.sys_ok m hsys
    rw [(h.last hr).1, nil_append] at hmsgs
    rw [← hmsgs, HeaderStream.messages, hsys, Option.toList_some, singleton_append, flatten_cons,
      append_assoc] at hpart
    have heq := lengthWord_of_append hpart hfour (by rw [hlen]; decide)
    rw [hsame, hword] at heq
    exact absurd (heq ▸ hvalid) not_validLength_sys

/-- A later header with a length of the request is the one behind the messages. -/
theorem HeaderHandler.Ok.lengthWord_ne {bs : List UInt8} (h : Ok s) (hset : Settled s)
    (hr : s.pending = some .header) (hbs : bs.length = msgHeaderSize)
    (hkept : s.taken ++ (bs ++ rest) = st.bytes) : lengthWord bs ≠ msgSystemInfoLen := by
  obtain ⟨todo, hmsgs, hpart⟩ := h.exists_todo hkept hlater
  simp only [part, hr, nil_append] at hpart
  cases todo with
  | cons m todo =>
    have hm := st.msgs_ok m (HeaderStream.mem_msgs hmsgs (hset.waits hr) m (by simp))
    rw [flatten_cons, append_assoc] at hpart
    have hword := lengthWord_of_append hpart (by rw [hbs]; decide) (le_trans (by decide) hm.1.1)
    intro hsys
    exact not_validLength_sys (hsys ▸ hword ▸ hm.2 ▸ hm.1)
  | nil =>
    rw [flatten_nil, nil_append, HeaderStream.tail] at hpart
    cases hinv : st.invalid with
    | none =>
      rw [hinv] at hpart
      simp [(append_eq_nil_iff.mp hpart).1, msgHeaderSize] at hbs
    | some t =>
      rw [hinv] at hpart
      have hword := lengthWord_of_append hpart (by rw [hbs]; decide)
        (by rw [(st.invalid_ok t hinv).1]; decide)
      exact hword ▸ hlater t hinv

omit hlater in
theorem HeaderHandler.Ok.requested_pos (h : Ok s) (hr : s.pending = some r) : 0 < s.requested r := by
  cases r with
  | first | last | header => simp [requested, sysInfoRequestSize, msgHeaderSize]
  | body => exact Nat.sub_pos_of_lt (h.body hr).1

/-- Without a loss the bytes taken and those still to come stay those of the connection. -/
theorem InStep.run (hin : InStep st s ends) (h : Ok s) (hkept : s.taken ++ rest = st.bytes)
    (hends : ∀ k, .timedOut k ∈ ends → k = 0)
    (hrun : s.run broken rest ends = some (s', rest')) (hcomplete : s'.Complete rest') :
    Settled s' ∧ s'.taken ++ rest' = st.bytes := by
  induction ends generalizing s rest with
  | nil =>
    obtain ⟨rfl, rfl⟩ : s = s' ∧ rest = rest' := by simpa [HeaderHandler.run] using hrun
    exact ⟨hin.settled, hkept⟩
  | cons e ends ih =>
    obtain ⟨⟨t, rest₁⟩, hstep, hrest⟩ := Option.bind_eq_some_iff.mp hrun
    have hends' : ∀ k, .timedOut k ∈ ends → k = 0 := fun k hk => hends k (by simp [hk])
    cases e with
    | full =>
      obtain ⟨r, bs, hr, rfl, hbs, hfull⟩ := h.step_full hstep
      have htaken : t.taken ++ rest₁ = st.bytes := by
        rw [hfull.taken, append_assoc, hkept]
        rintro rfl
        exact h.lengthWord_ne hlater hin.settled hr hbs hkept
      refine ih ⟨hfull.settled hin.settled, fun hfirst => absurd hfirst hfull.first, ?_⟩ hfull.ok htaken
        hends' hrest
      rintro hlast k l rfl
      obtain rfl := hfull.last hlast
      exact hin.first hr (hfull.ok.sys_eq_none hlater hlast htaken)
    | timedOut k =>
      obtain rfl := hends k (by simp)
      have hlast : s.pending ≠ some .last := fun hr => hin.last hr 0 ends rfl
      obtain ⟨hok, hset, hpending, htaken, bs, rfl, hbs⟩ := h.step_again hin.settled hlast hstep
      obtain rfl := length_eq_zero_iff.mp hbs
      refine ih ⟨hset, ?_, ?_⟩ hok (htaken ▸ hkept) hends' hrest <;> rw [hpending]
      · exact hin.first
      · exact fun hr => absurd hr hlast
    | failed =>
      obtain ⟨⟨r, hr⟩, rfl, rfl⟩ := step_failed hstep
      obtain ⟨-, rfl, rfl⟩ := run_of_pending_none rfl hrest
      have hacc := h.accepted r hr
      obtain rfl : rest' = [] := by simpa [Complete, close, hacc] using hcomplete
      obtain ⟨hhandled, hinv⟩ := h.all_handled hlater hin.settled hkept hr (h.requested_pos hr)
      rw [h.taken_close hr, append_nil, hhandled]
      exact ⟨⟨by simp [close], by simp [close, hacc]⟩,
        by simp [HeaderStream.bytes, HeaderStream.tail, hinv]⟩

omit hlater in
/-- A reader that has kept its promise has lost nothing. -/
theorem Framed.length_le (h : Framed st s rest) (hok : Ok s) :
    st.bytes.length ≤ (s.taken ++ rest).length := by
  rw [taken, h.handled, HeaderStream.bytes, append_assoc, List.length_append, List.length_append]
  refine Nat.add_le_add_left ?_ _
  cases hinv : st.invalid with
  | none => simp [HeaderStream.tail, hinv]
  | some t =>
    obtain ⟨href, hrest⟩ := h.closed t hinv
    have hlen := (hok.part_refused href).1
    have hbegun := hok.begun
    rw [h.handled] at hbegun
    simp only [HeaderStream.tail, hinv, hrest, List.length_append, length_drop,
      (st.invalid_ok t hinv).1, hlen, headerSize]
    cases hrecv : s.hasRecvMsg with
    | true =>
      rw [if_pos rfl]
      omega
    | false =>
      simp only [hbegun hrecv, if_true, Bool.false_eq_true, if_false, msgHeaderSize, sysInfoRequestSize]
      omega

/-- A run that loses nothing has no timeout behind bytes, nor one behind the first part of the
first header. -/
theorem lossless_of_run (h : Ok s) (hset : Settled s) (hkept : s.taken ++ rest = st.bytes)
    (hrun : s.run broken rest ends = some (s', rest'))
    (hle : st.bytes.length ≤ (s'.taken ++ rest').length) :
    (∀ k, .timedOut k ∈ ends → k = 0) ∧ (s.pending = some .last → ∀ k l, ends ≠ .timedOut k :: l) ∧
      (s.pending = some .first → st.sys = none → SecondNotTimedOut ends) := by
  induction ends generalizing s rest with
  | nil => exact ⟨by simp, by simp, fun _ _ => trivial⟩
  | cons e ends ih =>
    obtain ⟨⟨t, rest₁⟩, hstep, hrest⟩ := Option.bind_eq_some_iff.mp hrun
    obtain ⟨hok, hsub⟩ := h.step hstep
    have hkept₁ : t.taken ++ rest₁ = st.bytes := by
      rw [hkept] at hsub
      exact hsub.eq_of_length_le (hle.trans (hok.run hrest).2.length_le)
    cases e with
    | full =>
      obtain ⟨r, bs, hr, rfl, hbs, hfull⟩ := h.step_full hstep
      obtain ⟨hwhole, hlast, hfirst⟩ := ih hok (hfull.settled hset) hkept₁ hrest
      refine ⟨by simpa using hwhole, by simp, fun hr' hsys => ?_⟩
      cases hr.symm.trans hr'
      cases ends with
      | nil => trivial
      | cons e ends =>
        cases e with
        | full | failed => trivial
        | timedOut k =>
          obtain ⟨⟨t₂, rest₂⟩, hstep₂, -⟩ := Option.bind_eq_some_iff.mp hrest
          obtain ⟨r, -, hr₂, -⟩ := hok.step_timedOut hstep₂
          have hshort : t.taken.length ≤ sysInfoRequestSize := by
            have hnil : s.taken = [] := by simp [taken, part, hr, h.begun (h.recv _ hr)]
            have hlen := hfull.sub.length_le
            rwa [hnil, nil_append, hbs] at hlen
          cases r with
          | first => exact absurd hr₂ hfull.first
          | last => exact absurd rfl (hlast hr₂ k ends)
          | header =>
            obtain ⟨todo, hmsgs, -⟩ := hok.exists_todo hkept₁ hlater
            obtain ⟨m, l, hhandled⟩ := exists_cons_of_ne_nil ((hfull.settled hset).waits hr₂)
            have hm : m ∈ st.msgs := by
              have hmem : m ∈ st.messages := by simp [hmsgs, hhandled]
              simpa [HeaderStream.messages, hsys] using hmem
            have hge := (st.msgs_ok m hm).1.1
            simp only [taken, hhandled, flatten_cons, List.length_append] at hshort
            simp only [msgHeaderSize, sysInfoRequestSize] at hge hshort
            omega
          | body =>
            rw [taken, part, hr₂, List.length_append, hok.header] at hshort
            simp [msgHeaderSize, sysInfoRequestSize] at hshort
    | timedOut k =>
      obtain ⟨r, bs, hr, -, -, -, rfl, hbs, htaken⟩ := h.step_timedOut hstep
      have hlen := congrArg length (hkept₁.trans hkept.symm)
      simp only [← htaken, List.length_append] at hlen
      have hlast : s.pending ≠ some .last := by
        intro hlast
        cases hr.symm.trans hlast
        have hfour := (h.lengthWord_part hr (.inl rfl)).1
        rw [if_pos rfl] at hlen
        omega
      obtain ⟨-, hset₁, hpending, -⟩ := h.step_again hset hlast hstep
      obtain ⟨hwhole, -, hfirst⟩ := ih hok hset₁ hkept₁ hrest
      refine ⟨?_, fun hr => absurd hr hlast, ?_⟩
      · intro k' hk'
        rcases mem_cons.mp hk' with heq | hk'
        · rw [ReadEnd.timedOut.injEq] at heq
          omega
        · exact hwhole k' hk'
      · rw [← hpending]
        exact hfirst
    | failed =>
      obtain ⟨-, rfl, rfl⟩ := step_failed hstep
      obtain ⟨rfl, -, -⟩ := run_of_pending_none rfl hrest
      exact ⟨by simp, by simp, fun _ _ => trivial⟩

end Lossless

/-- **The messages of a connection are handed on**, and an invalid length ends it, exactly when
nothing is lost. -/
theorem header_framing_iff (broken : List UInt8 → Bool) (st : HeaderStream) {ends : List ReadEnd}
    {s : HeaderHandler} {rest : List UInt8}
    (hrun : start.run broken st.bytes ends = some (s, rest)) (hcomplete : s.Complete rest) :
    Framed st s rest ↔ Lossless st ends := by
  have hset : Settled start := ⟨by simp [start], by simp [start]⟩
  obtain ⟨hok, hsub⟩ := ok_start.run hrun
  constructor
  · intro h
    have hle := h.length_le hok
    have hkept : s.taken ++ rest = st.bytes := hsub.eq_of_length_le hle
    have hlater : ∀ t ∈ st.invalid, lengthWord t.1 ≠ msgSystemInfoLen := by
      intro t ht
      obtain ⟨href, -⟩ := h.closed t ht
      obtain ⟨hlen, hfour, -, hword⟩ := hok.part_refused href
      rw [taken, h.handled, append_assoc, HeaderStream.bytes, HeaderStream.tail, ht] at hkept
      rw [← lengthWord_of_append (append_cancel_left hkept) (hlen ▸ hfour)
        (by rw [(st.invalid_ok t ht).1]; decide), hword]
      exact (hok.refused href).2
    obtain ⟨hwhole, -, hsecond⟩ := lossless_of_run hlater ok_start hset rfl hrun hle
    exact ⟨hwhole, hsecond rfl, hlater⟩
  · intro h
    obtain ⟨hset', hkept⟩ := InStep.run h.later ⟨hset, fun _ => h.second, by simp [start]⟩ ok_start rfl
      h.whole hrun hcomplete
    exact hok.framed h.later hset' hkept hcomplete

def oneHeader : HeaderStream where
  sys := none
  msgs := [encode 4 28 ++ List.replicate 24 7]
  invalid := none
  sys_ok := by simp
  msgs_ok := by simp [ValidLength]; decide
  invalid_ok := by simp
  invalid_first := by simp

/-- The message is handed on where its header arrives in two parts. -/
theorem header_framing_iff_one : ∃ s,
    start.run (fun _ => false) oneHeader.bytes [.timedOut 0, .full, .full] = some (s, []) ∧
      (Framed oneHeader s [] ↔ Lossless oneHeader [.timedOut 0, .full, .full]) := by
  obtain ⟨s, hrun, hcomplete⟩ : ∃ s, start.run (fun _ => false) oneHeader.bytes
      [.timedOut 0, .full, .full] = some (s, []) ∧ s.Complete [] := ⟨_, rfl, by decide⟩
  exact ⟨s, hrun, header_framing_iff _ _ hrun hcomplete⟩

/-- A timeout before the second part of the header arrives: it is read as a header of its own, and
the message is lost. -/
theorem header_lost : ∃ s rest,
    start.run (fun _ => false) oneHeader.bytes [.full, .timedOut 0] = some (s, rest) ∧
      s.Complete rest ∧ s.handled = [] ∧ ¬ Framed oneHeader s rest := by
  refine ⟨_, _, rfl, by decide, rfl, fun h => ?_⟩
  cases h.handled

end Novachains.Net
