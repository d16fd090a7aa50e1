import Mathlib.Data.List.DropRight
import Mathlib.Data.List.MinMax
import Mathlib.Data.List.Nodup
import Mathlib.Data.List.Pairwise
import Novachains.Basic
import Novachains.Lib.SortedMap

/-!
# The exception report of the trace analysis

The calls that have returned are put into one summary per function, which keeps the five with the
largest gaps.  The report has a section for each record of a set, and the set takes the first
record of every slow function; its order compares the gaps alone.
-/

namespace Novachains.Pd

open Lib List

/-- `_pdFunctionRecord`, without the time of its start. -/
structure FunctionRecord where
  indexidx : ℕ := 0
  sequenceNum : ℕ := 0
  tid : ℕ := 0
  nChild : ℕ := 0
  cost : ℕ := 0
  totalCost : ℕ := 0
  maxTimeInterval : ℕ
  functionID : ℕ
  deriving DecidableEq, Repr

/-- `_pdFunctionSummaryRecord`; `reserveRecords` are the slots in use. -/
structure FunctionSummaryRecord where
  count : ℕ := 0
  minCost : ℕ := 0
  maxIn2OutCost : ℕ := 0
  maxCurrentCost : ℕ := 0
  totalCost : ℕ := 0
  reserveRecords : List FunctionRecord := []

/-- The loop of `insert` goes on below the slot. -/
def FunctionRecord.passes (record slot : FunctionRecord) : Bool :=
  slot.maxTimeInterval < record.maxTimeInterval

/-- The slots that are passed, from the last one down, move up by one. -/
def FunctionSummaryRecord.insert (s : FunctionSummaryRecord) (record : FunctionRecord) :
    FunctionSummaryRecord where
  count := s.count + 1
  minCost := if s.count = 0 then record.cost % 2 ^ 32 else min (record.cost % 2 ^ 32) s.minCost
  maxIn2OutCost := if s.count = 0 then record.totalCost else max record.totalCost s.maxIn2OutCost
  maxCurrentCost := if s.count = 0 then record.cost else max record.cost s.maxCurrentCost
  totalCost := (s.totalCost + record.cost) % 2 ^ 64
  reserveRecords :=
    (s.reserveRecords.rdropWhile record.passes ++
      record :: s.reserveRecords.rtakeWhile record.passes).take 5

abbrev SummaryMap := List (ℕ × FunctionSummaryRecord)

/-- `summaryRecords[ functionID ]`. -/
def SummaryMap.get (m : SummaryMap) (functionID : ℕ) : FunctionSummaryRecord :=
  (m.lookup functionID).getD {}

/-- The summaries of the calls that have returned, in that order. -/
def summaryRecords (records : List FunctionRecord) : SummaryMap :=
  records.foldl (fun m r => insertKey r.functionID ((SummaryMap.get m r.functionID).insert r) m) []

abbrev traceRecordExceptionTimeThreshold : ℕ := 1000

/-- The record that `_selectExceptRecords` inserts. -/
def FunctionSummaryRecord.exceptRecord (s : FunctionSummaryRecord) : Option FunctionRecord :=
  s.reserveRecords.head?.filter fun r =>
    s.count > 0 ∧ r.maxTimeInterval > 3 * traceRecordExceptionTimeThreshold

/-- `insert` of the set: nothing happens if there is a record with the same gap. -/
def insertExcept (set : List (ℕ × FunctionRecord)) (r : FunctionRecord) : List (ℕ × FunctionRecord) :=
  if (set.lookup r.maxTimeInterval).isSome then set else insertKey r.maxTimeInterval r set

/-- `_selectExceptRecords`. -/
def exceptRecords (m : SummaryMap) : List (ℕ × FunctionRecord) :=
  (m.filterMap fun e => e.2.exceptRecord).foldl insertExcept []

/-- The records that have a section in the report, in its order. -/
def exceptionReport (m : SummaryMap) : List FunctionRecord :=
  ((exceptRecords m).map Prod.snd).reverse

/-- The slowest call of a function, if its gap is over the limit. -/
def slowRecord (records : List FunctionRecord) (f : ℕ) : Option FunctionRecord :=
  ((records.filter (·.functionID = f)).argmax FunctionRecord.maxTimeInterval).filter
    fun r => r.maxTimeInterval > 3 * traceRecordExceptionTimeThreshold

/-- The summary is that of the calls `l` of its function. -/
structure FunctionSummaryRecord.Of (s : FunctionSummaryRecord) (l : List FunctionRecord) : Prop where
  count_eq : s.count = l.length
  sorted : s.reserveRecords.Pairwise fun a b => b.maxTimeInterval ≤ a.maxTimeInterval
  head_eq : s.reserveRecords.head? = l.argmax FunctionRecord.maxTimeInterval

theorem FunctionSummaryRecord.Of.insert {s : FunctionSummaryRecord} {l : List FunctionRecord}
    (h : s.Of l) (r : FunctionRecord) : (s.insert r).Of (l ++ [r]) := by
  obtain ⟨hcount, hsorted, hhead⟩ := h
  rw [FunctionSummaryRecord.insert]
  generalize s.reserveRecords = slots at hsorted hhead ⊢
  have hsplit := rdropWhile_append_rtakeWhile (p := r.passes) (l := slots)
  have hlast := rdropWhile_last_not r.passes slots
  have hmoved : ∀ x ∈ slots.rtakeWhile r.passes, x.maxTimeInterval < r.maxTimeInterval :=
    fun x hx => by simpa [FunctionRecord.passes] using mem_rtakeWhile_imp hx
  generalize slots.rdropWhile _ = kept at hsplit hlast ⊢
  generalize slots.rtakeWhile _ = moved at hsplit hmoved ⊢
  subst hsplit
  obtain ⟨hkept, htail, hcross⟩ := pairwise_append.mp hsorted
  -- The slots that stay have no smaller gap than the last of them.
  have hge : ∀ x ∈ kept, r.maxTimeInterval ≤ x.maxTimeInterval := by
    intro x hx
    have hx' := hkept.rel_getLast_of_rel_getLast_getLast hx le_rfl
    have hr := hlast (ne_nil_of_mem hx)
    simp only [FunctionRecord.passes, decide_eq_true_eq] at hr
    omega
  refine ⟨by simp [hcount], Pairwise.sublist (take_sublist _ _) ?_, ?_⟩
  · refine pairwise_append.mpr ⟨hkept, pairwise_cons.mpr ⟨fun x hx => ?_, htail⟩, ?_⟩
    · exact (hmoved x hx).le
    · simpa using fun x hx => ⟨hge x hx, hcross x hx⟩
  · rw [argmax_concat, ← hhead]
    cases kept with
    | nil =>
      cases moved with
      | nil => rfl
      | cons x moved => simp [hmoved x mem_cons_self]
    | cons x kept => simp [(hge x mem_cons_self).not_gt]

theorem summaryRecords_of (records : List FunctionRecord) :
    KeysSorted (summaryRecords records) ∧
      ∀ f, ((summaryRecords records).get f).Of (records.filter (·.functionID = f)) := by
  induction records using List.reverseRecOn with
  | nil => exact ⟨.nil, fun f => ⟨rfl, .nil, rfl⟩⟩
  | append_singleton records r ih =>
    obtain ⟨hsorted, hof⟩ := ih
    rw [summaryRecords, foldl_concat, ← summaryRecords]
    refine ⟨hsorted.insertKey, fun f => ?_⟩
    rw [SummaryMap.get, lookup_insertKey, filter_append]
    by_cases hf : f = r.functionID
    · subst hf
      simpa using (hof r.functionID).insert r
    · simpa [hf, Ne.symm hf, SummaryMap.get] using hof f

theorem exceptRecord_get (records : List FunctionRecord) (f : ℕ) :
    ((summaryRecords records).get f).exceptRecord = slowRecord records f := by
  have hof := (summaryRecords_of records).2 f
  rw [FunctionSummaryRecord.exceptRecord, hof.head_eq, hof.count_eq, slowRecord]
  cases hm : (records.filter (·.functionID = f)).argmax FunctionRecord.maxTimeInterval with
  | none => rfl
  | some r =>
    have hpos := length_pos_of_mem (argmax_mem hm)
    simp [Option.filter_some, hpos]

/-! ## The set -/

theorem foldl_insertExcept {set : List (ℕ × FunctionRecord)} (h : KeysSorted set)
    (l : List FunctionRecord) : KeysSorted (l.foldl insertExcept set) ∧
      ∀ gap, (l.foldl insertExcept set).lookup gap =
        (set.lookup gap).or (l.find? (·.maxTimeInterval = gap)) := by
  induction l generalizing set with
  | nil => simpa using h
  | cons r l ih =>
    have hinsert : KeysSorted (insertExcept set r) := by
      unfold insertExcept
      split_ifs
      · exact h
      · exact h.insertKey
    refine ⟨(ih hinsert).1, fun gap => ?_⟩
    rw [foldl_cons, (ih hinsert).2, insertExcept]
    by_cases hr : r.maxTimeInterval = gap
    · subst hr
      cases hl : set.lookup r.maxTimeInterval <;> simp [hl, lookup_insertKey]
    · split_ifs <;> simp [hr, Ne.symm hr, lookup_insertKey]

section Report
variable {m : SummaryMap} {records : List FunctionRecord} {f : ℕ} {r : FunctionRecord}

/-- **The set** has the first record of each gap. -/
theorem mem_exceptRecords {e : ℕ × FunctionRecord} : e ∈ exceptRecords m ↔
    (m.filterMap fun e => e.2.exceptRecord).find? (·.maxTimeInterval = e.1) = some e.2 := by
  obtain ⟨hsorted, hlookup⟩ := foldl_insertExcept .nil (m.filterMap fun e => e.2.exceptRecord)
  exact hsorted.lookup_eq_some.symm.trans (by rw [hlookup]; rfl)

theorem key_of_mem {e : ℕ × FunctionRecord} (h : e ∈ exceptRecords m) :
    e.2.maxTimeInterval = e.1 := by
  simpa using find?_some (mem_exceptRecords.mp h)

theorem mem_exceptionReport : r ∈ exceptionReport m ↔
    (m.filterMap fun e => e.2.exceptRecord).find? (·.maxTimeInterval = r.maxTimeInterval) = some r := by
  rw [exceptionReport, mem_reverse, mem_map]
  constructor
  · rintro ⟨e, he, rfl⟩
    rw [key_of_mem he]
    exact mem_exceptRecords.mp he
  · intro h
    exact ⟨(r.maxTimeInterval, r), mem_exceptRecords.mpr h, rfl⟩

theorem nodup_exceptionReport (m : SummaryMap) : (exceptionReport m).Nodup := by
  rw [exceptionReport, nodup_reverse, List.Nodup, pairwise_map]
  refine (foldl_insertExcept .nil _).1.imp_of_mem fun he he' hlt heq => ?_
  rw [← key_of_mem he, ← key_of_mem he', heq] at hlt
  exact hlt.false

theorem functionID_of_slowRecord (h : slowRecord records f = some r) : r.functionID = f := by
  simpa using (mem_filter.mp (argmax_mem (Option.filter_eq_some_iff.mp h).1)).2

theorem mem_selected : r ∈ ((summaryRecords records).filterMap fun e => e.2.exceptRecord) ↔
    slowRecord records r.functionID = some r := by
  have hsorted := (summaryRecords_of records).1
  rw [mem_filterMap]
  constructor
  · rintro ⟨e, he, hr⟩
    have hget : (summaryRecords records).get e.1 = e.2 := by
      rw [SummaryMap.get, hsorted.lookup_eq_some.mpr he, Option.getD_some]
    rw [← hget, exceptRecord_get] at hr
    rwa [functionID_of_slowRecord hr]
  · intro h
    rw [← exceptRecord_get, SummaryMap.get] at h
    cases hl : (summaryRecords records).lookup r.functionID with
    | none => simp [hl, FunctionSummaryRecord.exceptRecord] at h
    | some s => exact ⟨(r.functionID, s), hsorted.lookup_eq_some.mp hl, by simpa [hl] using h⟩

/-- **One section for each slow function**, exactly if no two of them have the same largest gap. -/
theorem exceptionReport_iff (records : List FunctionRecord) :
    (∀ f, (exceptionReport (summaryRecords records)).filter (·.functionID = f) =
      (slowRecord records f).toList) ↔
    ∀ f f' r r', slowRecord records f = some r → slowRecord records f' = some r' →
      r.maxTimeInterval = r'.maxTimeInterval → f = f' := by
  constructor
  · intro h f f' r r' hr hr' hgap
    have hmem : ∀ {f r}, slowRecord records f = some r →
        r ∈ exceptionReport (summaryRecords records) := by
      intro f r hr
      have hf : r ∈ (slowRecord records f).toList := Option.mem_toList.mpr hr
      rw [← h f] at hf
      exact (mem_filter.mp hf).1
    have hfirst := mem_exceptionReport.mp (hmem hr)
    rw [hgap, mem_exceptionReport.mp (hmem hr')] at hfirst
    rw [← functionID_of_slowRecord hr, ← functionID_of_slowRecord hr', Option.some.inj hfirst]
  · intro h f
    have hmem : ∀ r, r ∈ (exceptionReport (summaryRecords records)).filter (·.functionID = f) ↔
        r ∈ (slowRecord records f).toList := by
      intro r
      rw [mem_filter, mem_exceptionReport, decide_eq_true_eq, Option.mem_toList]
      constructor
      · rintro ⟨hr, rfl⟩
        exact mem_selected.mp (mem_of_find?_eq_some hr)
      · intro hr
        obtain rfl := functionID_of_slowRecord hr
        refine ⟨?_, rfl⟩
        cases hfind : find? _ _ with
        | none => simpa using find?_eq_none.mp hfind r (mem_selected.mpr hr)
        | some r' =>
          have hr' := mem_selected.mp (mem_of_find?_eq_some hfind)
          have hgap : r'.maxTimeInterval = r.maxTimeInterval := by simpa using find?_some hfind
          rw [h _ _ _ _ hr' hr hgap] at hr'
          rw [← hr', hr]
    have hnodup := (nodup_exceptionReport (summaryRecords records)).filter (·.functionID = f)
    cases hs : slowRecord records f with
    | none => exact eq_nil_iff_forall_not_mem.mpr fun r hr => by simpa [hs] using (hmem r).mp hr
    | some r =>
      refine perm_singleton.mp ((perm_ext_iff_of_nodup hnodup (nodup_singleton r)).mpr ?_)
      simpa [hs] using hmem

end Report

/-- Two functions with one slow call each, of the same gap: the second one has no section. -/
theorem exceptionReport_equal_gaps :
    (exceptionReport (summaryRecords [⟨0, 0, 7, 0, 5000, 5000, 4000, 1⟩,
      ⟨1, 2, 7, 0, 5000, 5000, 4000, 2⟩])).filter (·.functionID = 2) = [] ∧
    slowRecord [⟨0, 0, 7, 0, 5000, 5000, 4000, 1⟩, ⟨1, 2, 7, 0, 5000, 5000, 4000, 2⟩] 2 =
      some ⟨1, 2, 7, 0, 5000, 5000, 4000, 2⟩ := by
  decide

end Novachains.Pd
