import Novachains.Basic
import Mathlib.Data.List.Count
import Mathlib.Data.List.OfFn

/-!
# Copying a file

`ossFileCopy` reads the source in pieces of 4096 bytes and writes each to the destination.
`ossReadN` and `ossWriteN` repeat the system calls until all is transferred; a call may be
interrupted, may transfer less than it was asked to, and may fail.

The outcomes of the calls are a list, and a function has no result while it waits for more of them.
A file is the list of its bytes.
-/

namespace Novachains.Oss

open List

/-- The values of `errno` that are told apart. -/
inductive Errno
  | einval
  | enomem
  | ebadf
  | enospc
  | other
  deriving DecidableEq, Repr

/-- What a `read` or `write` does: it transfers at most `most + 1` bytes, is interrupted or
fails. -/
inductive Outcome
  | transfer (most : ℕ)
  | interrupt
  | fail (err : Errno)
  deriving DecidableEq, Repr

def Outcome.isFail : Outcome → Bool
  | .fail _ => true
  | _ => false

def Outcome.isTransfer : Outcome → Bool
  | .transfer _ => true
  | _ => false

/-- How many bytes a call may transfer. -/
def Outcome.size : Outcome → ℕ
  | .transfer most => most + 1
  | _ => 0

namespace FileCopy

def readRc : Errno → Rc
  | .einval => .invalidArg
  | .enomem => .oom
  | .ebadf => .perm
  | _ => .io

def writeRc : Errno → Rc
  | .einval => .invalidArg
  | .ebadf => .perm
  | .enospc => .noSpc
  | _ => .io

/-- `ossRead`, where `src` is what is left of the file. -/
def ossRead (o : Outcome) (src : List UInt8) (len : ℕ) : Rc × List UInt8 :=
  match o with
  | .interrupt => (.interrupt, [])
  | .fail err => (readRc err, [])
  | .transfer most =>
    if src = [] then (.eof, []) else (.ok, src.take (min (most + 1) len))

/-- `ossReadN` with `total` bytes left: the code, the buffer, the rest of the file and of the
outcomes. -/
def ossReadN : List Outcome → List UInt8 → ℕ → List UInt8 →
    Option (Rc × List UInt8 × List UInt8 × List Outcome)
  | os, src, 0, buf => some (.ok, buf, src, os)
  | [], _, _ + 1, _ => none
  | o :: os, src, total + 1, buf =>
    match ossRead o src (total + 1) with
    | (.ok, bytes) =>
      ossReadN os (src.drop bytes.length) (total + 1 - bytes.length) (buf ++ bytes)
    | (.interrupt, _) => ossReadN os src (total + 1) buf
    | (.eof, _) => if 0 < buf.length then some (.ok, buf, src, os) else some (.eof, buf, src, os)
    | (rc, _) => some (rc, buf, src, os)

/-- `ossWriteN` of `data` to the end of `dst`.  Returns the code, the file and what is left of the
outcomes. -/
def ossWriteN : List Outcome → List UInt8 → List UInt8 → Option (Rc × List UInt8 × List Outcome)
  | os, [], dst => some (.ok, dst, os)
  | [], _ :: _, _ => none
  | o :: os, x :: data, dst =>
    match o with
    | .transfer most =>
      ossWriteN os ((x :: data).drop (most + 1)) (dst ++ (x :: data).take (most + 1))
    | .interrupt => ossWriteN os (x :: data) dst
    | .fail err => some (writeRc err, dst, os)

abbrev buffLen : ℕ := 4096

/-- The loop of `ossFileCopy`, for at most `fuel` rounds.  `ossReadN` sets `hasRead` only when it
succeeds. -/
def copyLoop : ℕ → List Outcome → List UInt8 → ℕ → List UInt8 → Option (Rc × List UInt8)
  | 0, _, _, _, _ => none
  | fuel + 1, os, src, hasRead, dst =>
    match ossReadN os src buffLen [] with
    | none => none
    | some (rc, buf, src, os) =>
      let hasRead := if rc = .ok then buf.length else hasRead
      if rc = .eof ∨ hasRead = 0 then some (.ok, dst)
      else if rc ≠ .ok then some (rc, dst)
      else
        match ossWriteN os buf dst with
        | none => none
        | some (rc, dst, os) =>
          if rc ≠ .ok then some (rc, dst) else copyLoop fuel os src hasRead dst

structure OpenOs where
  malloc : Bool
  openSrc : Rc
  openDst : Rc
  deriving DecidableEq, Repr

def OpenOs.AllOk (o : OpenOs) : Prop := o.malloc = true ∧ o.openSrc = .ok ∧ o.openDst = .ok

/-- `ossFileCopy`: the code and the destination, which is empty once it is open.  Each round uses
up an outcome. -/
def ossFileCopy (o : OpenOs) (os : List Outcome) (src : List UInt8) : Option (Rc × List UInt8) :=
  if !o.malloc then some (.oom, [])
  else if o.openSrc ≠ .ok then some (o.openSrc, [])
  else if o.openDst ≠ .ok then some (o.openDst, [])
  else copyLoop (os.length + 1) os src 0 []

variable {o : Outcome} {os os' : List Outcome} {src src' buf buf' data dst dst' : List UInt8}
  {fuel hasRead : ℕ}
  {total : ℕ} {rc : Rc}

/-! ## One call -/

theorem ossReadN_fail (ho : o.isFail = true) (os : List Outcome) (src : List UInt8) (total : ℕ)
    (buf : List UInt8) :
    ∃ rc, ossReadN (o :: os) src (total + 1) buf = some (rc, buf, src, os) ∧ rc ≠ .ok ∧ rc ≠ .eof := by
  cases o with
  | fail err => cases err <;> simp [ossReadN, ossRead, readRc]
  | transfer | interrupt => cases ho

theorem ossReadN_end (ho : o.isTransfer = true) (os : List Outcome) (total : ℕ) (buf : List UInt8) :
    ossReadN (o :: os) [] (total + 1) buf = some (if buf = [] then .eof else .ok, buf, [], os) := by
  cases o with
  | transfer most => cases buf <;> simp [ossReadN, ossRead]
  | interrupt | fail => cases ho

/-- A call that does not fail and does not find the end of the file. -/
theorem ossReadN_cons (ho : o.isFail = false) (hsrc : o.isTransfer = true → src ≠ [])
    (os : List Outcome)
    (total : ℕ) (buf : List UInt8) {bytes : List UInt8}
    (hbytes : bytes = src.take (min o.size (total + 1))) :
    ossReadN (o :: os) src (total + 1) buf =
      ossReadN os (src.drop bytes.length) (total + 1 - bytes.length) (buf ++ bytes) := by
  subst hbytes
  cases o with
  | transfer most => simp [ossReadN, ossRead, hsrc rfl, Outcome.size]
  | interrupt => simp [ossReadN, ossRead, Outcome.size]
  | fail => cases ho

/-- What `ossReadN` has done when it returns. -/
structure ReadDone (src : List UInt8) (total : ℕ) (buf : List UInt8) (rc : Rc)
    (buf' src' : List UInt8) : Prop where
  bytes : buf' ++ src' = buf ++ src
  ok : rc = .ok → 0 < total ∨ buf ≠ [] → buf' ≠ []
  eof : rc = .eof → buf' = [] ∧ src' = []

theorem ossReadN_spec (h : ossReadN os src total buf = some (rc, buf', src', os')) :
    ReadDone src total buf rc buf' src' := by
  induction os generalizing src total buf with
  | nil =>
    cases total <;> cases h
    exact ⟨rfl, by simp, by simp⟩
  | cons o os ih =>
    cases total with
    | zero =>
      cases h
      exact ⟨rfl, by simp, by simp⟩
    | succ total =>
      by_cases hfail : o.isFail = true
      · obtain ⟨rc, heq, hok, heof⟩ := ossReadN_fail hfail os src total buf
        cases heq.symm.trans h
        exact ⟨rfl, fun h => absurd h hok, fun h => absurd h heof⟩
      rw [Bool.not_eq_true] at hfail
      by_cases hend : o.isTransfer = true ∧ src = []
      · obtain ⟨ho, rfl⟩ := hend
        cases (ossReadN_end ho os total buf).symm.trans h
        refine ⟨rfl, ?_, ?_⟩ <;> split_ifs with hbuf <;> simp [hbuf]
      · rw [ossReadN_cons hfail (by simpa using hend) os total buf rfl] at h
        have hrest := ih h
        refine ⟨?_, fun hok _ => hrest.ok hok ?_, hrest.eof⟩
        · rw [hrest.bytes, append_assoc, prefix_iff_eq_append.mp ( take_prefix ..)]
        · -- either nothing was transferred, and all is left to read, or the buffer has grown
          by_cases hnil : src.take (min o.size (total + 1)) = []
          · exact .inl (by simp [hnil])
          · exact .inr (by simp [hnil])

theorem ossWriteN_ok (h : ossWriteN os data dst = some (.ok, dst', os')) : dst' = dst ++ data := by
  fun_induction ossWriteN os data dst with
  | case1 =>
    cases h
    simp
  | case2 => cases h
  | case3 os x data dst most ih => rw [ih h, append_assoc, take_append_drop]
  | case4 os x data dst ih => exact ih h
  | case5 os x data dst err => cases err <;> cases h

theorem copyLoop_readFails {r : List UInt8 × List UInt8 × List Outcome}
    (hread : ossReadN os src buffLen [] = some (rc, r)) (hok : rc ≠ .ok) (heof : rc ≠ .eof) :
    copyLoop (fuel + 1) os src hasRead dst = some (if hasRead = 0 then .ok else rc, dst) := by
  rw [copyLoop, hread]
  by_cases h0 : hasRead = 0 <;> simp [hok, heof, h0]

theorem copyLoop_read
    (hread : ossReadN os src buffLen [] = some (.ok, buf, src', os')) (hbuf : buf ≠ []) :
    copyLoop (fuel + 1) os src hasRead dst =
      match ossWriteN os' buf dst with
      | none => none
      | some (rc, dst, os) =>
        if rc ≠ .ok then some (rc, dst) else copyLoop fuel os src' buf.length dst := by
  rw [copyLoop, hread]
  simp [hbuf]

/-- **A copy that succeeds is a copy**, unless the first read of all fails. -/
theorem copyLoop_ok
    (hfirst : hasRead = 0 → ∀ rc r, ossReadN os src buffLen [] = some (rc, r) → rc ≠ .ok →
      rc ≠ .eof → src = [])
    (h : copyLoop fuel os src hasRead dst = some (.ok, dst')) : dst' = dst ++ src := by
  induction fuel generalizing os src hasRead dst with
  | zero => simp [copyLoop] at h
  | succ fuel ih =>
    cases hread : ossReadN os src buffLen [] with
    | none => simp [copyLoop, hread] at h
    | some r =>
      obtain ⟨rc, buf, src', os'⟩ := r
      have hdone := ossReadN_spec hread
      have hsrc : buf ++ src' = src := hdone.bytes
      by_cases hok : rc = .ok
      · subst hok
        have hbuf := hdone.ok rfl (.inl (by decide))
        rw [copyLoop_read hread hbuf] at h
        cases hwrite : ossWriteN os' buf dst with
        | none => simp [hwrite] at h
        | some r =>
          obtain ⟨rc, dst₁, os₁⟩ := r
          rw [hwrite] at h
          dsimp only at h
          split_ifs at h with hrc
          · cases h
            exact absurd rfl hrc
          · obtain rfl := not_not.mp hrc
            rw [ih (fun h0 => absurd h0 (by simpa using hbuf)) h, ossWriteN_ok hwrite, append_assoc,
              hsrc]
      by_cases heof : rc = .eof
      · obtain ⟨rfl, rfl⟩ := hdone.eof heof
        rw [copyLoop, hread] at h
        simp_all
      · rw [copyLoop_readFails hread hok heof] at h
        split_ifs at h with h0
        · cases h
          simp [hfirst h0 rc _ hread hok heof]
        · cases h
          exact absurd rfl hok

/-! ## Copies that no call fails -/

/-- What is left of the calls when `n` bytes have been moved. -/
def move : List Outcome → ℕ → Option (List Outcome)
  | os, 0 => some os
  | [], _ + 1 => none
  | o :: os, n + 1 => move os (n + 1 - o.size)

/-- The numbers of bytes a copy has to move: a full piece is read and written; the rest is read, the
end is found, the rest is written, and the end is found again. -/
def pieces (len : ℕ) : List ℕ :=
  (replicate (len / buffLen) [buffLen, buffLen]).flatten ++
    if len % buffLen = 0 then [1] else [len % buffLen, 1, len % buffLen, 1]

theorem pieces_of_le {len : ℕ} (h : buffLen ≤ len) :
    pieces len = [buffLen, buffLen] ++ pieces (len - buffLen) := by
  rw [pieces, pieces, Nat.div_eq_sub_div (by decide) h, ← Nat.mod_eq_sub_mod h, replicate_succ,
    flatten_cons, append_assoc]

theorem pieces_of_lt {len : ℕ} (h0 : len ≠ 0) (h : len < buffLen) :
    pieces len = [len, 1, len] ++ [1] := by
  rw [pieces, Nat.div_eq_of_lt h, Nat.mod_eq_of_lt h, if_neg h0]
  rfl

section Move
variable {n : ℕ}

theorem move_suffix (h : move os n = some os') :
    ∃ used, os = used ++ os' ∧ (0 < n → used ≠ []) ∧ used.countP Outcome.isTransfer ≤ n := by
  fun_induction move os n with
  | case1 os =>
    cases h
    exact ⟨[], rfl, by simp, by simp⟩
  | case2 => cases h
  | case3 o os n ih =>
    obtain ⟨used, rfl, -, hle⟩ := ih h
    refine ⟨o :: used, rfl, by simp, ?_⟩
    cases o <;> simp [countP_cons, Outcome.isTransfer, Outcome.size] at hle ⊢ <;> omega

theorem move_none (h : move os n = none) :
    os.countP Outcome.isTransfer ≤ n ∧ move (os ++ [.interrupt]) n = none := by
  fun_induction move os n with
  | case1 => cases h
  | case2 n => exact ⟨Nat.zero_le _, rfl⟩
  | case3 o os n ih =>
    obtain ⟨hle, hnone⟩ := ih h
    refine ⟨?_, hnone⟩
    cases o <;> simp [countP_cons, Outcome.isTransfer, Outcome.size] at hle ⊢ <;> omega

theorem move_append (h : move os n = some os') (more : List Outcome) :
    move (os ++ more) n = some (os' ++ more) := by
  fun_induction move os n with
  | case1 os =>
    cases h
    rw [move]
  | case2 => cases h
  | case3 o os n ih => exact ih h

variable {ns : List ℕ}

theorem moves_none (h : ns.foldlM move os = none) :
    os.countP Outcome.isTransfer ≤ ns.sum ∧ ns.foldlM move (os ++ [.interrupt]) = none := by
  induction ns generalizing os with
  | nil => cases h
  | cons n ns ih =>
    rw [foldlM_cons] at h ⊢
    cases hmove : move os n with
    | none =>
      obtain ⟨hle, hnone⟩ := move_none hmove
      rw [hnone, sum_cons]
      exact ⟨by omega, rfl⟩
    | some os' =>
      rw [hmove] at h
      obtain ⟨hle, hnone⟩ := ih h
      obtain ⟨used, rfl, -, hused⟩ := move_suffix hmove
      rw [move_append hmove, countP_append, sum_cons]
      exact ⟨by omega, hnone⟩

theorem moves_append (h : ns.foldlM move os ≠ none) (more : List Outcome) :
    ns.foldlM move (os ++ more) ≠ none := by
  induction ns generalizing os with
  | nil => simp
  | cons n ns ih =>
    rw [foldlM_cons] at h ⊢
    cases hmove : move os n with
    | none =>
      rw [hmove] at h
      exact absurd rfl h
    | some os' =>
      rw [hmove] at h
      rw [move_append hmove]
      exact ih h

end Move

section Fine
variable (hfine : ∀ o ∈ os, o.isFail = false)
include hfine

theorem ossReadN_full (hle : total ≤ src.length) : ossReadN os src total buf =
    (move os total).map fun os' => (.ok, buf ++ src.take total, src.drop total, os') := by
  induction os generalizing src total buf with
  | nil => cases total <;> simp [ossReadN, move]
  | cons o os ih =>
    cases total with
    | zero => simp [ossReadN, move]
    | succ total =>
      rw [forall_mem_cons] at hfine
      have hsrc : src ≠ [] := by
        rintro rfl
        simp at hle
      have hlen : (src.take (min o.size (total + 1))).length = min o.size (total + 1) := by
        rw [length_take]
        omega
      have hadd : min o.size (total + 1) + (total + 1 - min o.size (total + 1)) = total + 1 := by
        omega
      rw [ossReadN_cons hfine.1 (fun _ => hsrc) os total buf rfl, hlen,
        ih hfine.2 (by rw [length_drop]; omega), move, append_assoc, ← take_add, drop_drop, hadd]
      congr 2
      omega

theorem ossReadN_rest (hlt : src.length < total) : ossReadN os src total buf =
    ((move os src.length).bind (move · 1)).map fun os' =>
      (if buf ++ src = [] then .eof else .ok, buf ++ src, [], os') := by
  obtain ⟨total, rfl⟩ := Nat.exists_eq_succ_of_ne_zero (Nat.ne_zero_of_lt hlt)
  induction os generalizing src total buf with
  | nil =>
    cases src with
    | nil => rfl
    | cons x src => rfl
  | cons o os ih =>
    rw [forall_mem_cons] at hfine
    by_cases hend : o.isTransfer = true ∧ src = []
    · obtain ⟨ho, rfl⟩ := hend
      cases o with
      | transfer most => simp [ossReadN_end ho, move, Outcome.size]
      | interrupt | fail => cases ho
    · have htake : src.take o.size = src.take (min o.size (total + 1)) := by
        rw [take_eq_take_iff]
        omega
      have hlen : (src.take o.size).length = min o.size src.length := length_take
      have hdrop : (src.drop (src.take o.size).length).length = src.length - o.size := by
        rw [length_drop]
        omega
      have hall : buf ++ src.take o.size ++ src.drop (src.take o.size).length = buf ++ src := by
        rw [append_assoc, prefix_iff_eq_append.mp ( take_prefix ..)]
      have hmove : (move os (src.length - o.size)).bind (move · 1) =
          (move (o :: os) src.length).bind (move · 1) := by
        cases src with
        | nil =>
          have hsize : o.size = 0 := by cases o <;> simp_all [Outcome.isTransfer, Outcome.size]
          simp [move, hsize]
        | cons x src => rfl
      rw [ossReadN_cons hfine.1 (by simpa using hend) os total buf htake,
        Nat.sub_add_comm (by omega), ih hfine.2 _ (by omega), hdrop, hall, hmove]

theorem ossWriteN_fine : ossWriteN os data dst =
    (move os data.length).map fun os' => (.ok, dst ++ data, os') := by
  fun_induction ossWriteN os data dst with
  | case1 os dst => simp [move]
  | case2 => rfl
  | case3 os x data dst most ih =>
    rw [ih (forall_mem_cons.mp hfine).2, length_drop, append_assoc, take_append_drop]
    rfl
  | case4 os x data dst ih =>
    rw [ih (forall_mem_cons.mp hfine).2]
    rfl
  | case5 => simp [Outcome.isFail] at hfine

theorem move_fine {n : ℕ} (h : move os n = some os') :
    (∀ o ∈ os', o.isFail = false) ∧ os'.length ≤ os.length ∧ (0 < n → os'.length < os.length) := by
  obtain ⟨used, rfl, hne, -⟩ := move_suffix h
  refine ⟨fun o ho => hfine o (mem_append_right _ ho), by simp, fun hn => ?_⟩
  have hpos := length_pos_iff.mpr (hne hn)
  rw [List.length_append]
  omega

theorem moves_fine {ns : List ℕ} (h : ns.foldlM move os = some os') :
    (∀ o ∈ os', o.isFail = false) ∧ (0 < ns.sum → os'.length < os.length)
      ∧ os'.length ≤ os.length := by
  induction ns generalizing os with
  | nil =>
    cases h
    exact ⟨hfine, by simp, le_rfl⟩
  | cons n ns ih =>
    obtain ⟨os₁, hmove, h⟩ := Option.bind_eq_some_iff.mp (foldlM_cons.symm.trans h)
    obtain ⟨hfine₁, hle, hlt⟩ := move_fine hfine hmove
    obtain ⟨hfine₂, hlt', hle'⟩ := ih hfine₁ h
    rw [sum_cons]
    exact ⟨hfine₂, by omega, by omega⟩

theorem copyLoop_full (hle : buffLen ≤ src.length) :
    copyLoop (fuel + 1) os src hasRead dst = ([buffLen, buffLen].foldlM move os).bind
      (copyLoop fuel · (src.drop buffLen) buffLen (dst ++ src.take buffLen)) := by
  have hread : ossReadN os src buffLen [] = _ := ossReadN_full hfine hle
  have hlen : (src.take buffLen).length = buffLen := length_take_of_le hle
  have hne : src.take buffLen ≠ [] := by
    rw [← length_pos_iff, hlen]
    decide
  cases h₁ : move os buffLen with
  | none => simp [copyLoop, hread, h₁]
  | some os₁ =>
    rw [h₁, Option.map_some, nil_append] at hread
    rw [copyLoop_read hread hne, ossWriteN_fine (move_fine hfine h₁).1, hlen]
    cases h₂ : move os₁ buffLen <;> simp [h₁, h₂]

theorem copyLoop_rest (hne : src ≠ []) (hlt : src.length < buffLen) :
    copyLoop (fuel + 1) os src hasRead dst = ([src.length, 1, src.length].foldlM move os).bind
      (copyLoop fuel · [] src.length (dst ++ src)) := by
  have hread : ossReadN os src buffLen [] = _ := ossReadN_rest hfine hlt
  rw [nil_append, if_neg hne] at hread
  have hfold : [src.length, 1, src.length].foldlM move os =
      ((move os src.length).bind (move · 1)).bind (move · src.length) := by
    simp [Option.bind_assoc]
  rw [hfold]
  cases h₁ : (move os src.length).bind (move · 1) with
  | none => simp [copyLoop, hread, h₁]
  | some os₁ =>
    obtain ⟨os₀, h₀, h₁'⟩ := Option.bind_eq_some_iff.mp h₁
    rw [h₁, Option.map_some] at hread
    rw [copyLoop_read hread hne, ossWriteN_fine (move_fine (move_fine hfine h₀).1 h₁').1,
      Option.bind_some]
    cases move os₁ src.length <;> simp

theorem copyLoop_end :
    copyLoop (fuel + 1) os [] hasRead dst = (move os 1).map fun _ => (.ok, dst) := by
  have hread : ossReadN os [] buffLen [] = _ := ossReadN_rest hfine (by decide)
  rw [copyLoop, hread]
  cases h : move os 1 <;> simp [move, h]

/-- **A copy that no call fails** moves the bytes of its pieces and succeeds. -/
theorem copyLoop_fine (hfuel : os.length < fuel) :
    copyLoop fuel os src hasRead dst =
      ((pieces src.length).foldlM move os).map fun _ => (.ok, dst ++ src) := by
  induction fuel generalizing os src hasRead dst with
  | zero => omega
  | succ fuel ih =>
    by_cases hle : buffLen ≤ src.length
    · rw [copyLoop_full hfine hle, pieces_of_le hle, foldlM_append]
      cases h₁ : [buffLen, buffLen].foldlM move os with
      | none => rfl
      | some os₁ =>
        obtain ⟨hfine₁, hlt₁, -⟩ := moves_fine hfine h₁
        have hlt := hlt₁ (by decide)
        rw [Option.bind_some, ih hfine₁ (by omega), append_assoc, take_append_drop, length_drop,
          Option.bind_eq_bind, Option.bind_some]
    by_cases hne : src = []
    · subst hne
      rw [copyLoop_end hfine, append_nil]
      cases h : move os 1 <;> simp [pieces, h]
    · have hpos := length_pos_iff.mpr hne
      have hlt := Nat.not_le.mp hle
      rw [copyLoop_rest hfine hne hlt, pieces_of_lt hpos.ne' hlt, foldlM_append]
      cases h₁ : [src.length, 1, src.length].foldlM move os with
      | none => rfl
      | some os₁ =>
        obtain ⟨hfine₁, hlt₁, -⟩ := moves_fine hfine h₁
        have hlt' := hlt₁ (by simp)
        rw [Option.bind_some, ih hfine₁ (by omega), append_nil, length_nil]
        rfl

end Fine

/-! ## Schedules -/

def firstCalls (sched : ℕ → Outcome) (n : ℕ) : List Outcome := (List.range n).map sched

structure Copies (o : OpenOs) (sched : ℕ → Outcome) (src : List UInt8) : Prop where
  copy : ∀ n dst, ossFileCopy o (firstCalls sched n) src = some (.ok, dst) → dst = src
  succeeds : o.AllOk → (∀ n, (sched n).isFail = false) →
    ∃ n dst, ossFileCopy o (firstCalls sched n) src = some (.ok, dst)

def asked (sched : ℕ → Outcome) (n : ℕ) : ℕ := ((firstCalls sched n).map Outcome.size).sum

/-- The call `n` fails when `total` bytes are read from `len`: none before it fails, they do not
read all, and none finds the end. -/
structure FailsAt (sched : ℕ → Outcome) (total len n : ℕ) : Prop where
  fails : (sched n).isFail = true
  before : ∀ k < n, (sched k).isFail = false
  unread : min (asked sched n) len < total
  not_end : ∀ k < n, (sched k).isTransfer = true → asked sched k < len

def FirstReadFails (sched : ℕ → Outcome) (src : List UInt8) : Prop :=
  ∃ n, FailsAt sched buffLen src.length n

/-- From some call on all are interrupted, and those before do not copy the file. -/
def EndlesslyInterrupted (sched : ℕ → Outcome) (src : List UInt8) : Prop :=
  ∃ n, (∀ m, n ≤ m → sched m = .interrupt) ∧
    (pieces src.length).foldlM move (firstCalls sched n) = none

variable {o : OpenOs} {sched : ℕ → Outcome} {n : ℕ}

theorem firstCalls_succ (sched : ℕ → Outcome) (n : ℕ) :
    firstCalls sched (n + 1) = firstCalls sched n ++ [sched n] := by
  rw [firstCalls, range_succ, map_append]
  rfl

theorem firstCalls_cons (sched : ℕ → Outcome) (n : ℕ) :
    firstCalls sched (n + 1) = sched 0 :: firstCalls (fun k => sched (k + 1)) n := by
  rw [firstCalls, range_succ_eq_map, map_cons, map_map]
  rfl

theorem asked_succ (sched : ℕ → Outcome) (n : ℕ) :
    asked sched (n + 1) = (sched 0).size + asked (fun k => sched (k + 1)) n := by
  rw [asked, firstCalls_cons, map_cons, sum_cons]
  rfl

theorem failsAt_succ_iff {total len m : ℕ} (hm : m = min (min (sched 0).size total) len) :
    FailsAt sched total len (n + 1) ↔ (sched 0).isFail = false ∧
      ((sched 0).isTransfer = true → 0 < len) ∧
      FailsAt (fun k => sched (k + 1)) (total - m) (len - m) n := by
  constructor
  · rintro ⟨hfails, hbefore, hunread, hend⟩
    rw [asked_succ] at hunread
    refine ⟨hbefore 0 (Nat.succ_pos n), hend 0 (Nat.succ_pos n), hfails,
      fun k hk => hbefore (k + 1) (Nat.succ_lt_succ hk), by omega, fun k hk ht => ?_⟩
    have hlt := hend (k + 1) (Nat.succ_lt_succ hk) ht
    rw [asked_succ] at hlt
    omega
  · rintro ⟨hzero, hlen, hfails, hbefore, hunread, hend⟩
    refine ⟨hfails, fun k hk => ?_, by rw [asked_succ]; omega, fun k hk ht => ?_⟩
    · cases k with
      | zero => exact hzero
      | succ k => exact hbefore k (Nat.lt_of_succ_lt_succ hk)
    · cases k with
      | zero => exact hlen ht
      | succ k =>
        have hlt := hend k (Nat.lt_of_succ_lt_succ hk) ht
        rw [asked_succ]
        omega

theorem failsAt_of_read {r : List UInt8 × List UInt8 × List Outcome}
    (h : ossReadN (firstCalls sched n) src total buf = some (rc, r)) (hok : rc ≠ .ok)
    (heof : rc ≠ .eof) : ∃ m, FailsAt sched total src.length m := by
  induction n generalizing sched src total buf with
  | zero =>
    cases total <;> cases h
    exact absurd rfl hok
  | succ n ih =>
    rw [firstCalls_cons] at h
    cases total with
    | zero =>
      cases h
      exact absurd rfl hok
    | succ total =>
      by_cases hfail : (sched 0).isFail = true
      · exact ⟨0, hfail, nofun, lt_of_le_of_lt (min_le_left _ _) (Nat.succ_pos _), nofun⟩
      rw [Bool.not_eq_true] at hfail
      by_cases hend : (sched 0).isTransfer = true ∧ src = []
      · obtain ⟨ht, rfl⟩ := hend
        cases (ossReadN_end ht _ total buf).symm.trans h
        split_ifs at hok heof <;> contradiction
      rw [ossReadN_cons hfail (by simpa using hend) _ total buf rfl] at h
      obtain ⟨m, hm⟩ := ih h
      rw [length_drop] at hm
      exact ⟨m + 1, (failsAt_succ_iff length_take).mpr
        ⟨hfail, fun ht => length_pos_iff.mpr fun hnil => hend ⟨ht, hnil⟩, hm⟩⟩

theorem read_of_failsAt (h : FailsAt sched total src.length n) :
    ∃ rc r, ossReadN (firstCalls sched (n + 1)) src total buf = some (rc, r) ∧ rc ≠ .ok ∧
      rc ≠ .eof := by
  induction n generalizing sched src total buf with
  | zero =>
    obtain ⟨total, rfl⟩ := Nat.exists_eq_succ_of_ne_zero (Nat.ne_zero_of_lt h.unread)
    rw [firstCalls_cons]
    obtain ⟨rc, heq, hne⟩ := ossReadN_fail h.fails _ src total buf
    exact ⟨rc, _, heq, hne⟩
  | succ n ih =>
    obtain ⟨total, rfl⟩ := Nat.exists_eq_succ_of_ne_zero (Nat.ne_zero_of_lt h.unread)
    obtain ⟨hfail, hlen, hrest⟩ := (failsAt_succ_iff length_take).mp h
    rw [firstCalls_cons, ossReadN_cons hfail (fun ht => length_pos_iff.mp (hlen ht)) _ total buf rfl]
    refine ih ?_
    rwa [length_drop]

theorem ossFileCopy_eq (h : o.AllOk) (os : List Outcome) (src : List UInt8) :
    ossFileCopy o os src = copyLoop (os.length + 1) os src 0 [] := by
  obtain ⟨h1, h2, h3⟩ := h
  simp [ossFileCopy, h1, h2, h3]

theorem allOk_of_ok (h : ossFileCopy o os src = some (.ok, dst)) : o.AllOk := by
  rw [ossFileCopy] at h
  split_ifs at h with h1 h2 h3
  · simp at h
  · simp_all
  · simp_all
  · exact ⟨by simpa using h1, not_not.mp h2, not_not.mp h3⟩

theorem ossFileCopy_fine (hok : o.AllOk) (hfine : ∀ n, (sched n).isFail = false) (n : ℕ)
    (src : List UInt8) : ossFileCopy o (firstCalls sched n) src =
      ((pieces src.length).foldlM move (firstCalls sched n)).map fun _ => (.ok, src) := by
  rw [ossFileCopy_eq hok, copyLoop_fine _ (Nat.lt_succ_self _), nil_append]
  intro c hc
  obtain ⟨k, -, rfl⟩ := List.mem_map.mp hc
  exact hfine k

section
variable {ns : List ℕ} {m : ℕ} (hle : n ≤ m)
include hle

theorem moves_mono (h : ns.foldlM move (firstCalls sched n) ≠ none) :
    ns.foldlM move (firstCalls sched m) ≠ none := by
  induction m, hle using Nat.le_induction with
  | base => exact h
  | succ m _ ih =>
    rw [firstCalls_succ]
    exact moves_append ih _

theorem moves_interrupted (hint : ∀ k, n ≤ k → sched k = .interrupt)
    (h : ns.foldlM move (firstCalls sched n) = none) :
    ns.foldlM move (firstCalls sched m) = none := by
  induction m, hle using Nat.le_induction with
  | base => exact h
  | succ m hm ih =>
    rw [firstCalls_succ, hint m hm]
    exact (moves_none ih).2

end

theorem eventually_not {p : Outcome → Bool} {bound : ℕ}
    (h : ∀ n, (firstCalls sched n).countP p ≤ bound) : ∃ n, ∀ m, n ≤ m → p (sched m) = false := by
  by_contra hnever
  push Not at hnever
  have hmany : ∀ k, ∃ n, k ≤ (firstCalls sched n).countP p := by
    intro k
    induction k with
    | zero => exact ⟨0, Nat.zero_le _⟩
    | succ k ih =>
      obtain ⟨n, hn⟩ := ih
      obtain ⟨m, hm, hp⟩ := hnever n
      refine ⟨m + 1, ?_⟩
      have hprefix : (firstCalls sched n).Sublist (firstCalls sched m) :=
        (range_sublist.mpr hm).map sched
      have hle := hprefix.countP_le (p := p)
      rw [firstCalls_succ, countP_append, countP_singleton, if_pos (by simpa using hp)]
      omega
  obtain ⟨n, hn⟩ := hmany (bound + 1)
  have := h n
  omega

/-- **An undisturbed copy succeeds**, unless the interruptions do not come to an end. -/
theorem succeeds_iff (hok : o.AllOk) (hfine : ∀ n, (sched n).isFail = false) :
    (∃ n dst, ossFileCopy o (firstCalls sched n) src = some (.ok, dst)) ↔
      ¬ EndlesslyInterrupted sched src := by
  simp only [ossFileCopy_fine hok hfine]
  constructor
  · rintro ⟨n, dst, hn⟩ ⟨m, hint, hwait⟩
    have hsome : (pieces src.length).foldlM move (firstCalls sched n) ≠ none := by
      intro hnone
      simp [hnone] at hn
    rcases le_total n m with hle | hle
    · exact moves_mono hle hsome hwait
    · exact hsome (moves_interrupted hle hint hwait)
  intro hprogress
  by_contra hnever
  have hwait : ∀ n, (pieces src.length).foldlM move (firstCalls sched n) = none := by
    intro n
    by_contra hsome
    obtain ⟨os, hos⟩ := Option.ne_none_iff_exists'.mp hsome
    exact hnever ⟨n, src, by rw [hos]; rfl⟩
  obtain ⟨n, hn⟩ := eventually_not fun n => (moves_none (hwait n)).1
  refine hprogress ⟨n, fun m hm => ?_, hwait n⟩
  have hf := hfine m
  have ht := hn m hm
  cases hs : sched m with
  | interrupt => rfl
  | transfer most => simp [hs, Outcome.isTransfer] at ht
  | fail err => simp [hs, Outcome.isFail] at hf

/-- **When a successful copy is a copy and an undisturbed one succeeds**: the first piece must not
fail, and the interruptions must end. -/
theorem copies_iff (o : OpenOs) (sched : ℕ → Outcome) (src : List UInt8) :
    Copies o sched src ↔ (o.AllOk → src ≠ [] → ¬ FirstReadFails sched src)
      ∧ (o.AllOk → (∀ n, (sched n).isFail = false) → ¬ EndlesslyInterrupted sched src) := by
  constructor
  · intro h
    refine ⟨fun hok hsrc ⟨n, hfails⟩ => ?_,
      fun hok hfine => (succeeds_iff hok hfine).mp (h.succeeds hok hfine)⟩
    obtain ⟨rc, r, hread, hne, heof⟩ :
        ∃ rc r, ossReadN (firstCalls sched (n + 1)) src buffLen [] = some (rc, r) ∧ _ :=
      read_of_failsAt hfails
    refine hsrc (h.copy (n + 1) [] ?_).symm
    rw [ossFileCopy_eq hok, copyLoop_readFails hread hne heof]
    rfl
  · rintro ⟨hfirst, hend⟩
    refine ⟨fun n dst h => ?_, fun hok hfine => (succeeds_iff hok hfine).mpr (hend hok hfine)⟩
    have hok := allOk_of_ok h
    rw [ossFileCopy_eq hok] at h
    refine copyLoop_ok (fun _ rc r hread hne heof => ?_) h
    by_contra hsrc
    exact hfirst hok hsrc (failsAt_of_read hread hne heof)

/-- The first read fails: the copy of one byte succeeds and is empty. -/
theorem failed_copy_succeeds :
    ossFileCopy ⟨true, .ok, .ok⟩ (firstCalls (fun _ => .fail .other) 1) [7] = some (.ok, [])
      ∧ ¬ Copies ⟨true, .ok, .ok⟩ (fun _ => .fail .other) [7] := by
  have hcopy : ossFileCopy ⟨true, .ok, .ok⟩ (firstCalls (fun _ => .fail .other) 1) [7]
      = some (.ok, []) := by decide
  exact ⟨hcopy, fun h => absurd (h.copy 1 [] hcopy) (by decide)⟩

end FileCopy

end Novachains.Oss
