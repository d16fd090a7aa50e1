import Novachains.Util.AddressLine

/-!
# The split iterator

`utilSplitIterator` writes a NUL behind the field it returns, and puts the separator back in the
next call.  Pointers are positions in the string; behind the last one is its NUL.
-/

namespace Novachains.Util

open List

structure SplitIterator where
  buf : List Char
  src : Option ℕ
  last : Option ℕ

namespace SplitIterator

variable (ch : Char)

/-- `_nextptr` at the position `i`, with what is there. -/
def nextptr : List Char → ℕ → Option ℕ
  | [], _ => none
  | c :: cs, i => if c = nul then none else if c = ch then nextptr cs (i + 1) else some i

def strchr : List Char → ℕ → Option ℕ
  | [], i => if ch = nul then some i else none
  | c :: cs, i => if c = ch then some i else if c = nul then none else strchr cs (i + 1)

def new (buf : List Char) : SplitIterator := ⟨buf, nextptr ch buf 0, none⟩

def more (s : SplitIterator) : Bool := s.src.isSome

def restore (s : SplitIterator) : SplitIterator :=
  match s.last with
  | none => s
  | some p => { s with buf := s.buf.set p ch, last := none }

def finish (s : SplitIterator) : SplitIterator := { s.restore ch with src := none }

/-- The pointer that `next` returns, if it is not that of the empty literal. -/
def next (s : SplitIterator) : SplitIterator × Option ℕ :=
  let s := s.restore ch
  match s.src with
  | none => (s, none)
  | some i =>
    match s.buf.drop i with
    | [] => (s, none)
    | c :: cs =>
      if c = nul then (s, none)
      else
        match strchr ch (c :: cs) i with
        | none => ({ s with src := none }, some i)
        | some p => (⟨s.buf.set p nul, nextptr ch (s.buf.drop p) p, some p⟩, some i)

/-- What is read at a pointer. -/
def read (s : SplitIterator) : Option ℕ → List Char
  | none => []
  | some i => cStr (s.buf.drop i)

end SplitIterator

/-- The maximal runs of characters other than the separator. -/
def fields (ch : Char) (l : List Char) : List (List Char) := (l.splitOn ch).filter (· ≠ [])

section
variable {ch : Char} {l r : List Char}

theorem splitOn_append (hch : ch ∉ r) : (r ++ ch :: l).splitOn ch = r :: l.splitOn ch :=
  splitOnP_append_cons_of_forall_mem (fun _ hc => beq_false_of_ne (ne_of_mem_of_not_mem hc hch)) ch
    (beq_self_eq_true ch) l

theorem fields_sep : fields ch (ch :: l) = fields ch l := by
  have hsplit : (ch :: l).splitOn ch = [] :: l.splitOn ch := splitOn_append not_mem_nil
  simp [fields, hsplit]

theorem fields_append (hr : r ≠ []) (hch : ch ∉ r) :
    fields ch (r ++ ch :: l) = r :: fields ch l := by
  simp [fields, splitOn_append hch, hr]

theorem fields_run (hr : r ≠ []) (hch : ch ∉ r) : fields ch r = [r] := by
  have hone : r.splitOn ch = [r] :=
    splitOnP_eq_singleton fun c hc => beq_false_of_ne (ne_of_mem_of_not_mem hc hch)
  simp [fields, hone, hr]

namespace SplitIterator

theorem nextptr_spec (ch : Char) (hl : nul ∉ l) (i : ℕ) : nextptr ch l i = none ∧ fields ch l = [] ∨
    ∃ j c cs, nextptr ch l i = some (i + j) ∧ l.drop j = c :: cs ∧ c ≠ ch ∧
      fields ch l = fields ch (c :: cs) := by
  induction l generalizing i with
  | nil => exact .inl ⟨rfl, rfl⟩
  | cons c cs ih =>
    rw [mem_cons, not_or] at hl
    rw [nextptr, if_neg (Ne.symm hl.1)]
    split_ifs with hc
    · subst hc
      rw [fields_sep]
      obtain h | ⟨j, d, ds, h, hdrop, hd, hfields⟩ := ih hl.2 (i + 1)
      · exact .inl h
      · exact .inr ⟨j + 1, d, ds, by rw [h]; congr 1; omega, hdrop, hd, hfields⟩
    · exact .inr ⟨0, c, cs, rfl, rfl, hc, rfl⟩

theorem strchr_spec (hch : ch ≠ nul) (hl : nul ∉ l) (i : ℕ) : strchr ch l i = none ∧ ch ∉ l ∨
    ∃ r cs, l = r ++ ch :: cs ∧ ch ∉ r ∧ strchr ch l i = some (i + r.length) := by
  induction l generalizing i with
  | nil => exact .inl ⟨if_neg hch, not_mem_nil⟩
  | cons c cs ih =>
    rw [mem_cons, not_or] at hl
    rw [strchr, if_neg (Ne.symm hl.1)]
    split_ifs with hc
    · exact .inr ⟨[], cs, by rw [hc]; rfl, not_mem_nil, rfl⟩
    · obtain ⟨h, hmem⟩ | ⟨r, ds, rfl, hr, h⟩ := ih hl.2 (i + 1)
      · exact .inl ⟨h, by simp [Ne.symm hc, hmem]⟩
      · exact .inr ⟨c :: r, ds, rfl, by simp [Ne.symm hc, hr], by rw [h, length_cons]; congr 1; omega⟩

/-- The string has only the NUL behind the last field, and the iterator stands at `rest`. -/
structure At (ch : Char) (text : List Char) (s : SplitIterator) (rest : List (List Char)) : Prop where
  buf : (s.restore ch).buf = text
  src : s.src = none ∧ rest = [] ∨
    ∃ i c cs, s.src = some i ∧ text.drop i = c :: cs ∧ c ≠ ch ∧ rest = fields ch (c :: cs)

variable {text : List Char} {s : SplitIterator} {rest : List (List Char)}

theorem at_nextptr (htext : nul ∉ text) {p : ℕ} (hbuf : (s.restore ch).buf = text)
    (hsrc : s.src = nextptr ch (text.drop p) p) : At ch text s (fields ch (text.drop p)) := by
  refine ⟨hbuf, ?_⟩
  rw [hsrc]
  obtain h | ⟨j, c, cs, h, hdrop, hc, hfields⟩ :=
    nextptr_spec ch (fun h => htext (mem_of_mem_drop h)) p
  · exact .inl h
  · rw [drop_drop] at hdrop
    exact .inr ⟨p + j, c, cs, h, hdrop, hc, hfields⟩

theorem restore_spec (ch : Char) (s : SplitIterator) :
    (s.restore ch).src = s.src ∧ (s.restore ch).last = none := by
  cases h : s.last <;> simp [restore, h]

/-- **`next` returns the first of the fields.** -/
theorem At.next (h : At ch text s rest) (hch : ch ≠ nul) (htext : nul ∉ text) :
    (s.more = true ↔ rest ≠ []) ∧ (s.next ch).1.read (s.next ch).2 = rest.headD [] ∧
      At ch text (s.next ch).1 rest.tail := by
  obtain ⟨hsrc, hlast⟩ := restore_spec ch s
  have hbuf := h.buf
  unfold more SplitIterator.next
  generalize s.restore ch = a at hsrc hlast hbuf ⊢
  have hrest : a.restore ch = a := by rw [restore, hlast]
  obtain ⟨hs, rfl⟩ | ⟨i, c, cs, hs, hdrop, hc, rfl⟩ := h.src
  · simp only [hsrc, hs]
    exact ⟨by simp, rfl, hrest.symm ▸ hbuf, .inl ⟨hsrc.trans hs, rfl⟩⟩
  have hplain : nul ∉ c :: cs := fun hmem => htext (mem_of_mem_drop (hdrop ▸ hmem))
  simp only [hsrc, hs, hbuf, hdrop, if_neg (ne_of_not_mem_cons hplain).symm]
  obtain ⟨hfind, hnot⟩ | ⟨r, ds, heq, hr, hfind⟩ := strchr_spec hch hplain i
  · rw [fields_run (cons_ne_nil c cs) hnot, hfind]
    dsimp only
    refine ⟨by simp, ?_, by simp [restore, hlast], .inl ⟨rfl, rfl⟩⟩
    rw [read, hdrop]
    exact takeWhile_eq_self_iff.mpr fun d hd => by simpa using ne_of_mem_of_not_mem hd hplain
  · have hne : r ≠ [] := by
      rintro rfl
      exact hc (cons.inj heq).1
    rw [heq] at hdrop hplain hfind ⊢
    rw [fields_append hne hr, hfind]
    dsimp only
    have hp : text.drop (i + r.length) = ch :: ds := by
      rw [← drop_drop, hdrop, drop_left]
    refine ⟨by simp, ?_, ?_⟩
    · have hset : (text.set (i + r.length) nul).drop i = r ++ nul :: ds := by
        rw [drop_set, if_neg (by omega), hdrop, Nat.add_sub_cancel_left]
        simp
      rw [read, hset, cStr, takeWhile_append_of_pos fun d hd => by
        simpa using ne_of_mem_of_not_mem (mem_append_left _ hd) hplain]
      simp
    · rw [tail_cons, ← fields_sep, ← hp]
      refine at_nextptr htext ?_ rfl
      obtain ⟨hlt, hget⟩ := List.getElem?_eq_some_iff.mp (by rw [← head?_drop, hp]; rfl :
        text[i + r.length]? = some ch)
      simp only [restore, set_set]
      rw [← hget, set_getElem_self]

/-- **The iterator yields the fields**, and `finish` puts the string back after any number of calls.
-/
theorem split_iterator (hch : ch ≠ nul) (text : List Char) (htext : nul ∉ text) (k : ℕ) :
    let s := (fun s => (s.next ch).1)^[k] (new ch text)
    (s.more = true ↔ k < (fields ch text).length) ∧
      (∀ field, (fields ch text)[k]? = some field → (s.next ch).1.read (s.next ch).2 = field) ∧
      (s.finish ch).buf = text := by
  have hat : At ch text ((fun s => (s.next ch).1)^[k] (new ch text)) ((fields ch text).drop k) := by
    induction k with
    | zero => exact at_nextptr (p := 0) htext rfl rfl
    | succ k ih =>
      rw [Function.iterate_succ_apply', ← tail_drop]
      exact (ih.next hch htext).2.2
  obtain ⟨hmore, hread, -⟩ := hat.next hch htext
  refine ⟨?_, ?_, hat.buf⟩
  · rw [hmore, ne_eq, drop_eq_nil_iff, not_le]
  · intro field hfield
    rw [hread, headD_eq_head?_getD, head?_drop, hfield]
    rfl

/-- The first field of `.a..b`, and the string after it. -/
theorem split_iterator_dots : ((new '.' ['.', 'a', '.', '.', 'b']).next '.').1.buf =
      ['.', 'a', nul, '.', 'b'] ∧
    (((new '.' ['.', 'a', '.', '.', 'b']).next '.').1.finish '.').buf =
      ['.', 'a', '.', '.', 'b'] :=
  ⟨by decide, (split_iterator (by decide) _ (by decide) 1).2.2⟩

end SplitIterator

end

end Novachains.Util
