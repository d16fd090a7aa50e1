import Novachains.Basic
import Novachains.Bson.Parse
import Mathlib.Data.List.DropRight

/-!
# Address lines

`makeAddressLine` writes a list of hosts and services into one line, and `parseAddressLine` reads
such a line.  The strings are lists of characters; one that is passed as a pointer ends at its
first NUL.
-/

namespace Novachains.Util

open List Bson

/-- `utilAddrPair`. -/
structure AddrPair where
  host : List Char
  service : List Char
  deriving DecidableEq

def nul : Char := Char.ofNat 0

/-- What the callee reads of a string that is passed as a pointer. -/
def cStr (s : List Char) : List Char := s.takeWhile (· ≠ nul)

/-- The loop of `makeAddressLine`, with the number of addresses it has written. -/
def makeAddressLineFrom (itemSep innerSep : Char) : ℕ → List AddrPair → List Char
  | _, [] => []
  | count, item :: items =>
    -- the first character of an empty host is the NUL behind it
    if item.host.headD nul ≠ nul then
      (if count ≠ 0 then [itemSep] else []) ++ (item.host ++ innerSep :: item.service) ++
        makeAddressLineFrom itemSep innerSep (count + 1) items
    else []

def makeAddressLine (itemSep innerSep : Char) (vecAddr : List AddrPair) : List Char :=
  makeAddressLineFrom itemSep innerSep 0 vecAddr

/-- `utilStrTrim`. -/
def trim (s : List Char) : List Char := (s.dropWhile isSpace).rdropWhile isSpace

/-- One item of the line, if it has two parts. -/
def parseItem (innerSep tmp : List Char) : Option AddrPair :=
  match (trim tmp).splitOnP (· ∈ innerSep) with
  | [host, service] => some ⟨host, service⟩
  | _ => none

/-- The return code and what `vecAddr` is then. -/
def parseAddressLine (line itemSep innerSep : List Char) (maxSize : ℕ) (vecAddr : List AddrPair) :
    Rc × List AddrPair :=
  if itemSep = [] ∨ innerSep = [] then (.invalidArg, vecAddr)
  else if line = [] then (.ok, vecAddr)
  else
    let addrs := line.splitOnP (· ∈ itemSep)
    if maxSize > 0 ∧ maxSize < addrs.length then (.invalidArg, vecAddr)
    else (.ok, vecAddr ++ addrs.filterMap (parseItem innerSep))

/-- Two different separators, neither of them the NUL. -/
structure SepsOk (itemSep innerSep : Char) : Prop where
  ne : itemSep ≠ innerSep
  inner_visible : isSpace innerSep = false
  item_ne : itemSep ≠ nul
  inner_ne : innerSep ≠ nul

/-- An address that a line can carry. -/
structure AddrPair.Fits (itemSep innerSep : Char) (a : AddrPair) : Prop where
  host_ne : a.host ≠ []
  plain : ∀ c ∈ a.host ++ a.service, c ≠ itemSep ∧ c ≠ innerSep ∧ c ≠ nul
  host_head : ∀ c ∈ a.host.head?, isSpace c = false
  service_last : ∀ c ∈ a.service.getLast?, isSpace c = false

def AddrPair.text (innerSep : Char) (a : AddrPair) : List Char :=
  a.host ++ innerSep :: a.service

section
variable {itemSep innerSep : Char} {a : AddrPair} {items : List AddrPair}

theorem makeAddressLineFrom_cons (h : a.Fits itemSep innerSep) (count : ℕ) :
    makeAddressLineFrom itemSep innerSep count (a :: items) =
      (if count ≠ 0 then [itemSep] else []) ++ (a.text innerSep ++
        makeAddressLineFrom itemSep innerSep (count + 1) items) := by
  have hhead : a.host.headD nul ≠ nul := by
    obtain ⟨c, cs, hhost⟩ := exists_cons_of_ne_nil h.host_ne
    rw [hhost]
    exact (h.plain c (by simp [hhost])).2.2
  rw [makeAddressLineFrom, if_pos hhead, append_assoc, AddrPair.text]

variable (hs : SepsOk itemSep innerSep)
include hs

theorem plain_text (h : a.Fits itemSep innerSep) :
    ∀ c ∈ a.text innerSep, c ≠ itemSep ∧ c ≠ nul := by
  intro c hc
  rw [AddrPair.text, mem_append, mem_cons, or_left_comm, ← mem_append] at hc
  obtain rfl | hc := hc
  · exact ⟨hs.ne.symm, hs.inner_ne⟩
  · exact ⟨(h.plain c hc).1, (h.plain c hc).2.2⟩

theorem trim_text (h : a.Fits itemSep innerSep) :
    trim (a.text innerSep) = a.text innerSep := by
  obtain ⟨c, cs, hhost⟩ := exists_cons_of_ne_nil h.host_ne
  have hfirst : (a.text innerSep).dropWhile isSpace = a.text innerSep := by
    simp [AddrPair.text, hhost, h.host_head c (by simp [hhost])]
  rw [trim, hfirst, rdropWhile_eq_self_iff]
  intro _
  cases hlast : a.service.getLast? with
  | none => simp [AddrPair.text, getLast?_eq_none_iff.mp hlast, hs.inner_visible]
  | some d =>
    obtain ⟨ds, hds⟩ := getLast?_eq_some_iff.mp hlast
    simp [AddrPair.text, hds, h.service_last d (by simp [hlast])]

theorem parseItem_text (h : a.Fits itemSep innerSep) :
    parseItem [innerSep] (a.text innerSep) = some a := by
  have hpart : ∀ l, l ⊆ a.host ++ a.service → l.splitOnP (· ∈ [innerSep]) = [l] := by
    intro l hl
    exact splitOnP_eq_singleton fun c hc => by simp [(h.plain c (hl hc)).2.1]
  rw [parseItem, trim_text hs h, AddrPair.text, splitOnP_append_cons _ _ (by simp),
    hpart _ (subset_append_left ..), hpart _ (subset_append_right ..)]
  rfl

/-- The line up to the NUL has the items, behind one that is already written. -/
theorem split_line {t : List Char} (ht : ∀ c ∈ t, c ≠ itemSep ∧ c ≠ nul)
    (hitems : ∀ a ∈ items, a.Fits itemSep innerSep) (count : ℕ) :
    (cStr (t ++ makeAddressLineFrom itemSep innerSep (count + 1) items)).splitOnP (· ∈ [itemSep]) =
      t :: items.map (AddrPair.text innerSep) := by
  have hsep : ∀ u, cStr (itemSep :: u) = itemSep :: cStr u := fun u =>
    takeWhile_cons_of_pos (by simp [hs.item_ne])
  induction items generalizing t count with
  | nil =>
    rw [makeAddressLineFrom, append_nil, cStr, takeWhile_eq_self_iff.mpr fun c hc => by
      simp [(ht c hc).2]]
    exact splitOnP_eq_singleton fun c hc => by simp [(ht c hc).1]
  | cons a items ih =>
    have ha := hitems a mem_cons_self
    have hcut : ∀ u, cStr (t ++ u) = t ++ cStr u := fun u =>
      takeWhile_append_of_pos fun c hc => by simp [(ht c hc).2]
    rw [makeAddressLineFrom_cons ha, if_pos (Nat.succ_ne_zero count), singleton_append, hcut, hsep,
      splitOnP_append_cons_of_forall_mem (fun c hc => by simp [(ht c hc).1]) _ (by simp),
      ih (plain_text hs ha) fun b hb => hitems b (mem_cons_of_mem a hb)]
    rfl

/-- **A line that was made is read back**, behind what the list held before. -/
theorem parse_makeAddressLine (hitems : ∀ a ∈ items, a.Fits itemSep innerSep) {maxSize : ℕ}
    (hmax : maxSize = 0 ∨ items.length ≤ maxSize) (vecAddr : List AddrPair) :
    parseAddressLine (cStr (makeAddressLine itemSep innerSep items)) (cStr [itemSep])
      (cStr [innerSep]) maxSize vecAddr = (.ok, vecAddr ++ items) := by
  have hitem : cStr [itemSep] = [itemSep] := by simp [cStr, hs.item_ne]
  have hinner : cStr [innerSep] = [innerSep] := by simp [cStr, hs.inner_ne]
  rw [hitem, hinner, parseAddressLine, if_neg (by simp)]
  cases items with
  | nil => simp [makeAddressLine, makeAddressLineFrom, cStr]
  | cons a items =>
    have ha := hitems a mem_cons_self
    have hsplit := split_line hs (plain_text hs ha) (fun b hb => hitems b (mem_cons_of_mem a hb)) 0
    have hline : makeAddressLine itemSep innerSep (a :: items) =
        a.text innerSep ++ makeAddressLineFrom itemSep innerSep (0 + 1) items :=
      makeAddressLineFrom_cons ha 0
    have hne : cStr (makeAddressLine itemSep innerSep (a :: items)) ≠ [] := by
      intro h
      rw [← hline, h] at hsplit
      simp [AddrPair.text] at hsplit
    have hparse : ((a :: items).map (AddrPair.text innerSep)).filterMap (parseItem [innerSep]) =
        a :: items := by
      rw [filterMap_map]
      exact (filterMap_congr fun b hb => parseItem_text hs (hitems b hb)).trans filterMap_some
    rw [if_neg hne, hline, hsplit, ← map_cons]
    dsimp only
    rw [hparse, length_map, if_neg (by omega)]

end

/-- Two hosts, the second without a service, behind an address that was there. -/
theorem parse_makeAddressLine_two :
    parseAddressLine (cStr (makeAddressLine ',' ':' [⟨['h'], ['1']⟩, ⟨['g', ' ', 'k'], []⟩]))
      (cStr [',']) (cStr [':']) 2 [⟨['f'], ['2']⟩]
        = (.ok, [⟨['f'], ['2']⟩, ⟨['h'], ['1']⟩, ⟨['g', ' ', 'k'], []⟩]) := by
  refine parse_makeAddressLine ⟨by decide, by decide, by decide, by decide⟩ ?_ (by decide) [_]
  simp only [forall_mem_cons]
  exact ⟨⟨by decide, by simp [nul], by simp; rfl, by simp; rfl⟩,
    ⟨by decide, by simp [nul], by simp; rfl, by simp⟩, by simp⟩

/-- A host with a NUL ends the line that is read. -/
theorem nul_ends_line :
    parseAddressLine (cStr (makeAddressLine ',' ':' [⟨['h', nul], ['1']⟩])) (cStr [','])
      (cStr [':']) 0 [] = (.ok, []) := by
  decide

end Novachains.Util
