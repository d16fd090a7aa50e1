import Novachains.Basic
import Mathlib.Algebra.BigOperators.Group.List.Basic

/-!
# Growing a file

A file is extended by writing zeros at its end, or, sparsely, by writing only the
last bytes of the new part.  A write may be interrupted, may write less than it was
asked to, and may fail.  The functions here return, beside their code, the sizes the
file passes through.
-/

namespace Novachains.Oss

open List

structure WriteResult where
  rc : Rc
  written : ℕ
  deriving DecidableEq, Repr

/-- `ossWriteN` at `pos` with `total` bytes left: the sizes of the file and the results that are
left. -/
def ossWriteN : List WriteResult → ℕ → ℕ → Rc × List ℕ × List WriteResult
  | outs, _, 0 => (.ok, [], outs)
  | [], pos, total + 1 => (.ok, [pos + (total + 1)], [])
  | out :: outs, pos, total + 1 =>
    match out.rc with
    | .ok =>
      let n := min out.written (total + 1)
      let (rc, sizes, rest) := ossWriteN outs (pos + n) (total + 1 - n)
      (rc, if n = 0 then sizes else (pos + n) :: sizes, rest)
    | .interrupt => ossWriteN outs pos (total + 1)
    | rc => (rc, [], outs)

def writeEach (outs : List WriteResult) (pos : ℕ) : List ℕ → Rc × List ℕ
  | [] => (.ok, [])
  | len :: lens =>
    let (rc, sizes, outs) := ossWriteN outs pos len
    if rc ≠ .ok then (rc, sizes)
    else
      let (rc, more) := writeEach outs (pos + len) lens
      (rc, sizes ++ more)

structure ExtendOs where
  seekEnd : Rc
  seekCur : Rc
  malloc : Bool
  writes : List WriteResult
  deriving DecidableEq, Repr

def ExtendOs.allOk : ExtendOs := ⟨.ok, .ok, true, []⟩

def extendDelta : ℕ := 4194304

/-- `ossExtendFile` on a file of `size` bytes. -/
def ossExtendFile (size incrementSize : ℕ) (os : ExtendOs) : Rc × List ℕ :=
  if os.seekEnd ≠ .ok then (os.seekEnd, [])
  else if !os.malloc then (.oom, [])
  else
    let remainder := incrementSize % extendDelta
    writeEach os.writes size
      (List.replicate (incrementSize / extendDelta) extendDelta ++
        if remainder ≠ 0 then [remainder] else [])

/-- `ossExtentBySparse` on a file of `size` bytes. -/
def ossExtentBySparse (size incrementSize onceWrite : ℕ) (os : ExtendOs) : Rc × List ℕ :=
  let onceWrite := min onceWrite incrementSize
  if os.seekEnd ≠ .ok then (os.seekEnd, [])
  else if os.seekCur ≠ .ok then (os.seekCur, [])
  else if !os.malloc then (.oom, [])
  else
    let (rc, sizes, _) := ossWriteN os.writes (size + (incrementSize - onceWrite)) onceWrite
    (rc, sizes)

/-- The sizes stay within `total` bytes from `pos`, and all are written when the code is `SDB_OK`.
-/
structure Grows (pos total : ℕ) (rc : Rc) (sizes : List ℕ) : Prop where
  bounds : ∀ n ∈ sizes, pos ≤ n ∧ n ≤ pos + total
  last_of_ok : rc = .ok → sizes.getLastD pos = pos + total

theorem Grows.nil {pos total : ℕ} {rc : Rc} (h : rc ≠ .ok) : Grows pos total rc [] where
  bounds := by simp
  last_of_ok := fun h' => absurd h' h

theorem Grows.append {pos m n : ℕ} {rc : Rc} {k l : List ℕ} (hk : Grows pos m .ok k)
    (hl : Grows (pos + m) n rc l) : Grows pos (m + n) rc (k ++ l) where
  bounds := by
    intro x hx
    rcases mem_append.mp hx with hx | hx
    · have := hk.bounds x hx
      omega
    · have := hl.bounds x hx
      omega
  last_of_ok := by
    intro hrc
    have hlast := hl.last_of_ok hrc
    rw [getLastD_eq_getLast?] at hlast ⊢
    rw [getLast?_append, ← add_assoc, ← hlast, ← hk.last_of_ok rfl, getLastD_eq_getLast?]
    cases l.getLast? <;> rfl

theorem Grows.weaken {pos m n : ℕ} {rc : Rc} {k : List ℕ} (hk : Grows pos m rc k) (h : rc ≠ .ok)
    (hmn : m ≤ n) : Grows pos n rc k where
  bounds := fun x hx => by
    have := hk.bounds x hx
    omega
  last_of_ok := fun h' => absurd h' h

theorem Grows.overGap {pos gap n : ℕ} {rc : Rc} {k : List ℕ} (hk : Grows (pos + gap) n rc k)
    (hn : 0 < n) : Grows pos (gap + n) rc k where
  bounds := fun x hx => by
    have := hk.bounds x hx
    omega
  last_of_ok := by
    intro hrc
    have hlast := hk.last_of_ok hrc
    cases k with
    | nil =>
      rw [getLastD_nil] at hlast
      omega
    | cons x k =>
      rw [getLastD_cons] at hlast ⊢
      omega

theorem ossWriteN_spec (outs : List WriteResult) (pos total : ℕ) :
    Grows pos total (ossWriteN outs pos total).1 (ossWriteN outs pos total).2.1 := by
  induction outs generalizing pos total with
  | nil =>
    cases total with
    | zero => exact ⟨by simp [ossWriteN], by simp [ossWriteN]⟩
    | succ t => exact ⟨by simp [ossWriteN], by simp [ossWriteN]⟩
  | cons out outs ih =>
    cases total with
    | zero => exact ⟨by simp [ossWriteN], by simp [ossWriteN]⟩
    | succ t =>
      cases hrc : out.rc with
      | ok =>
        have hn : min out.written (t + 1) ≤ t + 1 := min_le_right _ _
        generalize hk : min out.written (t + 1) = n at hn
        have hstep := ih (pos + n) (t + 1 - n)
        have hfirst : Grows pos n .ok (if n = 0 then [] else [pos + n]) := by
          by_cases h0 : n = 0
          · exact ⟨by simp [h0], by simp [h0]⟩
          · exact ⟨by simp [h0], by simp [h0]⟩
        have hall := hfirst.append hstep
        rw [Nat.add_sub_cancel' hn] at hall
        simp only [ossWriteN, hrc, hk]
        by_cases h0 : n = 0 <;> simpa [h0] using hall
      | interrupt => simpa [ossWriteN, hrc] using ih pos (t + 1)
      | _ =>
        simp only [ossWriteN, hrc]
        exact Grows.nil (by decide)

theorem writeEach_spec (outs : List WriteResult) (pos : ℕ) (lens : List ℕ) :
    Grows pos lens.sum (writeEach outs pos lens).1 (writeEach outs pos lens).2 := by
  induction lens generalizing outs pos with
  | nil => exact ⟨by simp [writeEach], by simp [writeEach]⟩
  | cons len lens ih =>
    have hw := ossWriteN_spec outs pos len
    rw [sum_cons]
    by_cases hrc : (ossWriteN outs pos len).1 = .ok
    · rw [hrc] at hw
      simpa [writeEach, hrc] using hw.append (ih (ossWriteN outs pos len).2.2 (pos + len))
    · simpa [writeEach, hrc] using hw.weaken hrc (Nat.le_add_right _ _)

theorem ossExtendFile_spec (size inc : ℕ) (os : ExtendOs) :
    Grows size inc (ossExtendFile size inc os).1 (ossExtendFile size inc os).2 := by
  have hsum : (List.replicate (inc / extendDelta) extendDelta ++
      if inc % extendDelta ≠ 0 then [inc % extendDelta] else []).sum = inc := by
    have hdm := Nat.div_add_mod' inc extendDelta
    by_cases h : inc % extendDelta = 0
    · simp [h] at hdm ⊢
      exact hdm
    · simpa [h] using hdm
  by_cases h1 : os.seekEnd = .ok
  · by_cases h2 : os.malloc = true
    · have h := writeEach_spec os.writes size (List.replicate (inc / extendDelta) extendDelta ++
        if inc % extendDelta ≠ 0 then [inc % extendDelta] else [])
      rw [hsum] at h
      simpa [ossExtendFile, h1, h2] using h
    · simpa [ossExtendFile, h1, h2] using (Grows.nil (by decide) : Grows size inc .oom [])
  · simpa [ossExtendFile, h1] using (Grows.nil h1 : Grows size inc _ [])

theorem ossExtentBySparse_spec (size inc : ℕ) {onceWrite : ℕ} (h0 : 0 < onceWrite)
    (hinc : 0 < inc) (os : ExtendOs) :
    Grows size inc (ossExtentBySparse size inc onceWrite os).1
      (ossExtentBySparse size inc onceWrite os).2 := by
  by_cases h1 : os.seekEnd = .ok
  · by_cases h2 : os.seekCur = .ok
    · by_cases h3 : os.malloc = true
      · have hpos : 0 < min onceWrite inc := by omega
        have h := (ossWriteN_spec os.writes (size + (inc - min onceWrite inc))
          (min onceWrite inc)).overGap hpos
        rw [Nat.sub_add_cancel (min_le_right _ _)] at h
        simpa [ossExtentBySparse, h1, h2, h3] using h
      · simpa [ossExtentBySparse, h1, h2, h3] using (Grows.nil (by decide) : Grows size inc .oom [])
    · simpa [ossExtentBySparse, h1, h2] using (Grows.nil h2 : Grows size inc _ [])
  · simpa [ossExtentBySparse, h1] using (Grows.nil h1 : Grows size inc _ [])

theorem ossWriteN_nil (pos len : ℕ) :
    (ossWriteN [] pos len).1 = .ok ∧ (ossWriteN [] pos len).2.2 = [] := by
  cases len <;> simp [ossWriteN]

theorem writeEach_nil (pos : ℕ) (lens : List ℕ) : (writeEach [] pos lens).1 = .ok := by
  induction lens generalizing pos with
  | nil => rfl
  | cons len lens ih => simp [writeEach, ossWriteN_nil, ih]

theorem ossExtendFile_allOk (size inc : ℕ) : (ossExtendFile size inc .allOk).1 = .ok := by
  simpa [ossExtendFile, ExtendOs.allOk] using writeEach_nil size _

theorem ossExtentBySparse_allOk (size inc once : ℕ) :
    (ossExtentBySparse size inc once .allOk).1 = .ok := by
  simpa [ossExtentBySparse, ExtendOs.allOk] using (ossWriteN_nil _ _).1

end Novachains.Oss
