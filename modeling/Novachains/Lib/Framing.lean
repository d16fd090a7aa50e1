import Mathlib.Data.List.Infix
import Mathlib.Algebra.Order.BigOperators.Group.List
import Mathlib.Tactic.Linarith

/-!
# Messages in a stream that arrives in chunks

Messages are told apart by themselves: none is the beginning of another.  A receiver collects chunks
until they begin with a message, takes that message and drops whatever has arrived behind it.  It
receives the messages of the stream exactly when every message ends where a chunk ends.
-/

namespace Novachains.Lib

open List

universe u
variable {α : Type u}

/-- Two ways to cut a stream into messages of which none is the beginning of another: one goes on
where the other stops. -/
theorem flatten_append_cases {P : List α → Prop} (hP : ∀ m m', P m → P m' → m <+: m' → m = m')
    {a b : List (List α)} {x y : List α} (ha : ∀ m ∈ a, P m) (hb : ∀ m ∈ b, P m)
    (h : a.flatten ++ x = b.flatten ++ y) : (∃ c, b = a ++ c ∧ x = c.flatten ++ y) ∨
      ∃ m c, a = b ++ m :: c ∧ y = m ++ (c.flatten ++ x) := by
  induction a generalizing b with
  | nil => exact .inl ⟨b, rfl, h⟩
  | cons m a ih =>
    cases b with
    | nil => exact .inr ⟨m, a, rfl, by simpa using h.symm⟩
    | cons m' b =>
      rw [flatten_cons, flatten_cons, append_assoc, append_assoc] at h
      have hm := ha m (by simp)
      have hm' := hb m' (by simp)
      obtain rfl : m = m' := by
        rcases prefix_or_prefix_of_prefix ⟨_, h⟩ (prefix_append m' _) with hpre | hpre
        · exact hP m m' hm hm' hpre
        · exact (hP m' m hm' hm hpre).symm
      have := ih (fun x hx => ha x (by simp [hx])) (fun x hx => hb x (by simp [hx]))
        (append_cancel_left h)
      simpa using this

/-- Messages of which none is the beginning of another, and a way to find them. -/
structure Framing (α : Type u) where
  Message : List α → Prop
  not_nil : ¬ Message []
  unique : ∀ {m m' : List α}, Message m → Message m' → m <+: m' → m = m'
  first : List α → Option (List α)
  first_eq_some : ∀ {bs m : List α}, first bs = some m ↔ Message m ∧ m <+: bs

namespace Framing

/-- Collect the chunks behind `data`; where a message has arrived take it and drop the rest. -/
def assemble (F : Framing α) (data : List α) : List (List α) → List (List α)
  | [] => []
  | chunk :: chunks =>
    match F.first (data ++ chunk) with
    | some m => m :: F.assemble [] chunks
    | none => F.assemble (data ++ chunk) chunks

end Framing

def MeetsEnds (msgs chunks : List (List α)) : Prop :=
  ∀ p, p <+: msgs → ∃ q, q <+: chunks ∧ q.flatten = p.flatten

namespace Framing
variable {F : Framing α} {data chunk : List α} {chunks msgs : List (List α)}

theorem first_nil (F : Framing α) : F.first [] = none := by
  cases h : F.first ([] : List α) with
  | none => rfl
  | some m =>
    obtain ⟨hm, hpre⟩ := F.first_eq_some.mp h
    exact absurd (prefix_nil.mp hpre ▸ hm) F.not_nil

theorem length_assemble_le : (F.assemble data chunks).flatten.length ≤
    data.length + chunks.flatten.length := by
  induction chunks generalizing data with
  | nil => simp [assemble]
  | cons chunk chunks ih =>
    simp only [assemble]
    cases h : F.first (data ++ chunk) with
    | none =>
      have := @ih (data ++ chunk)
      simp only [List.length_append, flatten_cons] at this ⊢
      omega
    | some m =>
      have hle := (F.first_eq_some.mp h).2.length_le
      have := @ih []
      simp only [List.length_append, flatten_cons, length_nil] at this hle ⊢
      omega

theorem ends_of_assemble (h : (F.assemble data chunks).flatten.length =
    data.length + chunks.flatten.length) {p : List (List α)} (hp : p <+: F.assemble data chunks)
    (hne : p ≠ []) : ∃ q, q <+: chunks ∧ data ++ q.flatten = p.flatten := by
  induction chunks generalizing data p with
  | nil => exact absurd (prefix_nil.mp hp) hne
  | cons chunk chunks ih =>
    simp only [assemble] at h hp
    cases hf : F.first (data ++ chunk) with
    | none =>
      simp only [hf] at h hp
      simp only [List.length_append, flatten_cons, ← add_assoc] at h
      obtain ⟨q, hq, heq⟩ := ih (by rw [List.length_append]; exact h) hp hne
      exact ⟨chunk :: q, (prefix_cons_inj _).mpr hq, by simpa using heq⟩
    | some m =>
      simp only [hf] at h hp
      have hm := (F.first_eq_some.mp hf).2
      have hrest := @length_assemble_le α F [] chunks
      have hlen := hm.length_le
      simp only [List.length_append, flatten_cons, length_nil] at h hrest hlen
      -- the message is all that had arrived
      have hall : m = data ++ chunk := hm.eq_of_length (by rw [List.length_append]; omega)
      cases p with
      | nil => exact absurd rfl hne
      | cons m' p =>
        obtain ⟨rfl, htail⟩ := cons_prefix_cons.mp hp
        by_cases hpe : p = []
        · subst hpe
          exact ⟨[chunk], by simp, by simp [hall]⟩
        obtain ⟨q, hq, heq⟩ := @ih [] (by rw [length_nil]; omega) p htail hpe
        refine ⟨chunk :: q, (prefix_cons_inj _).mpr hq, ?_⟩
        rw [nil_append] at heq
        simp [hall, heq]

theorem assemble_of_ends (hmsgs : ∀ m ∈ msgs, F.Message m)
    (hbytes : data ++ chunks.flatten = msgs.flatten) (hdata : F.first data = none)
    (hends : ∀ p, p <+: msgs → p ≠ [] → ∃ q, q <+: chunks ∧ data ++ q.flatten = p.flatten) :
    F.assemble data chunks = msgs := by
  induction chunks generalizing data msgs with
  | nil =>
    cases msgs with
    | nil => rfl
    | cons m msgs =>
      obtain ⟨q, hq, heq⟩ := hends [m] (by simp) (by simp)
      rw [prefix_nil.mp hq] at heq
      have hall : data = m := by simpa using heq
      have hm : F.first data = some m :=
        F.first_eq_some.mpr ⟨hmsgs m (by simp), hall ▸ prefix_rfl⟩
      simp [hdata] at hm
  | cons chunk chunks ih =>
    -- a message that ends later needs this chunk
    have hlater : ∀ p, p <+: msgs → p ≠ [] →
        ∃ q, q <+: chunks ∧ (data ++ chunk) ++ q.flatten = p.flatten := by
      intro p hp hne
      obtain ⟨q, hq, heq⟩ := hends p hp hne
      cases q with
      | nil =>
        cases p with
        | nil => exact absurd rfl hne
        | cons m p =>
          have hm : F.first data = some m := F.first_eq_some.mpr
            ⟨hmsgs m (hp.subset (by simp)), ⟨p.flatten, by simpa using heq.symm⟩⟩
          simp [hdata] at hm
      | cons c q =>
        obtain ⟨rfl, htail⟩ := cons_prefix_cons.mp hq
        exact ⟨q, htail, by simpa using heq⟩
    rw [flatten_cons, ← append_assoc] at hbytes
    rw [assemble]
    cases hf : F.first (data ++ chunk) with
    | none => exact ih hmsgs hbytes hf hlater
    | some m =>
      obtain ⟨hm, hpre⟩ := F.first_eq_some.mp hf
      cases msgs with
      | nil =>
        rw [(append_eq_nil_iff.mp hbytes).1, F.first_nil] at hf
        cases hf
      | cons m' msgs =>
        obtain ⟨q, -, heq⟩ := hlater [m'] (by simp) (by simp)
        rw [flatten_cons, flatten_nil, append_nil] at heq
        have hle : data ++ chunk <+: m' := ⟨_, heq⟩
        obtain rfl := F.unique hm (hmsgs m' (by simp)) (hpre.trans hle)
        have hall : data ++ chunk = m := hle.eq_of_length_le hpre.length_le
        rw [hall] at hbytes hlater
        refine congrArg (m :: ·) (ih ?_ ?_ F.first_nil ?_)
        · exact fun x hx => hmsgs x (by simp [hx])
        · simpa using hbytes
        · intro p hp _
          obtain ⟨q, hq, heq⟩ := hlater (m :: p) ((prefix_cons_inj _).mpr hp) (by simp)
          exact ⟨q, hq, append_cancel_left heq⟩

/-- **The messages of the stream are taken exactly when each ends where a chunk ends.** -/
theorem assemble_eq_iff (hmsgs : ∀ m ∈ msgs, F.Message m) (hbytes : chunks.flatten = msgs.flatten) :
    F.assemble [] chunks = msgs ↔ MeetsEnds msgs chunks := by
  constructor
  · intro h p hp
    by_cases hne : p = []
    · exact ⟨[], nil_prefix, by simp [hne]⟩
    have hlen : (F.assemble [] chunks).flatten.length =
        ([] : List α).length + chunks.flatten.length := by
      rw [h, hbytes, length_nil, zero_add]
    simpa using ends_of_assemble hlen (h ▸ hp) hne
  · intro h
    exact assemble_of_ends hmsgs hbytes F.first_nil fun p hp _ => by simpa using h p hp

end Framing

end Novachains.Lib
