import Novachains.Lib.DigitLoops

/-!
# Products with deferred carries

The rows of a product are added into accumulators that hold at most `top`.  Carries are propagated
from time to time, and an accumulator together with the carry into it may then pass `top`: the pass
has no result.  All lists have the least significant digit first.
-/

namespace Novachains.Lib

open List
open Nat (ofDigits ofDigits_cons ofDigits_append)

variable {b top : ℕ}

def carryCells (b top : ℕ) : List ℕ → ℕ → Option (List ℕ × ℕ)
  | [], c => some ([], c)
  | x :: xs, c =>
    let s := x + c
    if top < s then none
    else
      let carry := if b ≤ s then s / b else 0
      match carryCells b top xs carry with
      | none => none
      | some r => some ((s - carry * b) :: r.1, r.2)

/-- Add `l` times the digits of the second factor to the accumulators. -/
def addRow (top l : ℕ) : List ℕ → List ℕ → Option (List ℕ)
  | [], xs => some xs
  | _ :: _, [] => none
  | r :: rs, x :: xs =>
    if top < x + l * r then none else (addRow top l rs xs).map ((x + l * r) :: ·)

theorem carry_eq (s : ℕ) : (if b ≤ s then s / b else 0) = s / b := by
  split
  · rfl
  · rw [Nat.div_eq_of_lt (by omega)]

theorem carryCells_cons (x : ℕ) (xs : List ℕ) (c : ℕ) :
    carryCells b top (x :: xs) c
      = if top < x + c then none
        else (carryCells b top xs ((x + c) / b)).map fun r => ((x + c) % b :: r.1, r.2) := by
  have hmod : x + c - (x + c) / b * b = (x + c) % b := by
    have := Nat.div_add_mod (x + c) b
    rw [mul_comm] at this
    omega
  simp only [carryCells, carry_eq, hmod]
  split
  · rfl
  · cases carryCells b top xs ((x + c) / b) <;> rfl

theorem carryCells_spec (hb : 0 < b) {xs ds : List ℕ} {c c' : ℕ}
    (h : carryCells b top xs c = some (ds, c')) :
    Written b xs.length ds ∧ ofDigits b ds + c' * b ^ xs.length = ofDigits b xs + c := by
  induction xs generalizing c ds with
  | nil =>
    obtain ⟨rfl, rfl⟩ : [] = ds ∧ c = c' := by simpa [carryCells] using h
    exact ⟨.nil, by simp⟩
  | cons x xs ih =>
    rw [carryCells_cons] at h
    split at h
    · simp at h
    obtain ⟨⟨ds', c''⟩, hr, hds⟩ := Option.map_eq_some_iff.mp h
    cases hds
    obtain ⟨hw, hval⟩ := ih hr
    have hdm := Nat.mod_add_div (x + c) b
    refine ⟨.cons (Nat.mod_lt _ hb) hw, ?_⟩
    simp only [ofDigits_cons, length_cons, pow_succ]
    nlinarith

/-- **A pass has a result exactly when no accumulator, with the carry into it, passes the top.** -/
theorem carryCells_isSome_iff (hb : 0 < b) (xs : List ℕ) (c : ℕ) :
    (carryCells b top xs c).isSome
      ↔ ∀ j < xs.length, (ofDigits b (xs.take (j + 1)) + c) / b ^ j ≤ top := by
  induction xs generalizing c with
  | nil => simp [carryCells]
  | cons x xs ih =>
    have hstep : ∀ j, (ofDigits b ((x :: xs).take (j + 1 + 1)) + c) / b ^ (j + 1)
        = (ofDigits b (xs.take (j + 1)) + (x + c) / b) / b ^ j := by
      intro j
      rw [take_succ_cons, ofDigits_cons, pow_succ', ← Nat.div_div_eq_div_mul,
        show x + b * ofDigits b (xs.take (j + 1)) + c
          = x + c + b * ofDigits b (xs.take (j + 1)) by ring,
        Nat.add_mul_div_left _ _ hb, add_comm]
    rw [carryCells_cons]
    constructor
    · intro h j hj
      split at h
      · simp at h
      rename_i hle
      rw [Option.isSome_map, ih] at h
      cases j with
      | zero => simpa using not_lt.mp hle
      | succ j =>
        rw [hstep]
        exact h j (by simpa using hj)
    · intro h
      have h0 := h 0 (by simp)
      rw [if_neg (by simpa using h0), Option.isSome_map, ih]
      intro j hj
      rw [← hstep]
      exact h (j + 1) (by simpa using hj)

theorem addRow_defined {l s : ℕ} {right xs : List ℕ} (hlen : right.length ≤ xs.length)
    (hr : ∀ r ∈ right, r ≤ b - 1) (hx : ∀ x ∈ xs, x ≤ s * (b - 1)) (htop : (s + l) * (b - 1) ≤ top) :
    ∃ ys, addRow top l right xs = some ys ∧ ys.length = xs.length
      ∧ ∀ y ∈ ys, y ≤ (s + l) * (b - 1) := by
  induction right generalizing xs with
  | nil =>
    refine ⟨xs, by cases xs <;> rfl, rfl, fun y hy => (hx y hy).trans ?_⟩
    exact Nat.mul_le_mul_right _ (Nat.le_add_right s l)
  | cons r rs ih =>
    obtain ⟨x, xs, rfl⟩ : ∃ x xs', xs = x :: xs' :=
      exists_cons_of_length_pos (by simp at hlen; omega)
    obtain ⟨hr0, hrs⟩ := forall_mem_cons.mp hr
    obtain ⟨hx0, hxs⟩ := forall_mem_cons.mp hx
    obtain ⟨ys, hys, hylen, hy⟩ := ih (by simpa using hlen) hrs hxs
    have hcell : x + l * r ≤ (s + l) * (b - 1) := by
      have := Nat.mul_le_mul_left l hr0
      rw [add_mul]
      omega
    refine ⟨(x + l * r) :: ys, ?_, by simp [hylen], forall_mem_cons.mpr ⟨hcell, hy⟩⟩
    rw [addRow, if_neg (by omega), hys]
    rfl

theorem ofDigits_take_addRow {l : ℕ} {right xs ys : List ℕ} (h : addRow top l right xs = some ys)
    (m : ℕ) : ofDigits b (ys.take m)
      = ofDigits b (xs.take m) + l * ofDigits b (right.take m) := by
  induction right generalizing xs ys m with
  | nil =>
    obtain rfl : xs = ys := by cases xs <;> simpa [addRow] using h
    simp
  | cons r rs ih =>
    cases xs with
    | nil => simp [addRow] at h
    | cons x xs =>
      rw [addRow] at h
      split at h
      · simp at h
      obtain ⟨ys', hys, rfl⟩ := Option.map_eq_some_iff.mp h
      cases m with
      | zero => simp
      | succ m =>
        simp only [take_succ_cons, ofDigits_cons, ih hys m]
        ring

theorem ofDigits_take_addRow_drop {l k : ℕ} {right cells row : List ℕ} (hk : k ≤ cells.length)
    (h : addRow top l right (cells.drop k) = some row) (m : ℕ) :
    ofDigits b ((cells.take k ++ row).take m)
      = ofDigits b (cells.take m) + l * b ^ k * ofDigits b (right.take (m - k)) := by
  have hlen : (cells.take k).length = k := by rw [length_take, min_eq_left hk]
  obtain hm | hm := le_total m k
  · rw [take_append_of_le_length (by omega), take_take, min_eq_left hm,
      Nat.sub_eq_zero_of_le hm, take_zero, Nat.ofDigits_nil, mul_zero, add_zero]
  have hcells : cells.take m = cells.take k ++ (cells.drop k).take (m - k) := by
    conv_lhs => rw [← take_append_drop k cells, List.take_append, hlen, take_take,
      min_eq_right hm]
  rw [hcells, List.take_append, hlen, take_take, min_eq_right hm, ofDigits_append,
    ofDigits_append, hlen, ofDigits_take_addRow h]
  ring

/-- Rows of the product, the first one in column `k`, without what lies in column `m` and above. -/
def rowsBelow (b : ℕ) (right : List ℕ) (m : ℕ) : ℕ → List ℕ → ℕ
  | _, [] => 0
  | k, l :: ls => l * b ^ k * ofDigits b (right.take (m - k)) + rowsBelow b right m (k + 1) ls

theorem rowsBelow_concat (right : List ℕ) (m k l : ℕ) (ls : List ℕ) :
    rowsBelow b right m k (ls ++ [l]) = rowsBelow b right m k ls
      + l * b ^ (k + ls.length) * ofDigits b (right.take (m - (k + ls.length))) := by
  induction ls generalizing k with
  | nil => simp [rowsBelow]
  | cons x xs ih =>
    simp only [cons_append, rowsBelow, ih, length_cons, add_assoc, add_comm 1]

theorem rowsBelow_of_le {right ls : List ℕ} {m k : ℕ} (h : k + ls.length + right.length ≤ m) :
    rowsBelow b right m k ls = b ^ k * ofDigits b ls * ofDigits b right := by
  induction ls generalizing k with
  | nil => simp [rowsBelow]
  | cons l ls ih =>
    rw [length_cons] at h
    rw [rowsBelow, ih (by omega), take_of_length_le (by omega), ofDigits_cons, pow_succ]
    ring

/-! ## Batches of rows -/

/-- The rows `done` are normalized, the rows `batch` were added to them since, and `s` bounds the
accumulators. -/
structure Cells (b : ℕ) (right done batch : List ℕ) (s n : ℕ) (cells : List ℕ) : Prop where
  length : cells.length = n
  below : ∀ m, ofDigits b (cells.take m)
    = ofDigits b done * ofDigits b right % b ^ m + rowsBelow b right m done.length batch
  le : ∀ x ∈ cells, x ≤ s * (b - 1)

/-- No accumulator passes `top` together with the carry into it. -/
def Fits (b top : ℕ) (right done batch : List ℕ) (n : ℕ) : Prop :=
  ∀ j < n, (ofDigits b done * ofDigits b right % b ^ (j + 1)
    + rowsBelow b right (j + 1) done.length batch) / b ^ j ≤ top

instance (right done batch : List ℕ) (n : ℕ) : Decidable (Fits b top right done batch n) :=
  inferInstanceAs (Decidable (∀ j < n, _ ≤ top))

theorem Cells.zero (right : List ℕ) (n : ℕ) : Cells b right [] [] 0 n (List.replicate n 0) where
  length := length_replicate
  below m := by simp [rowsBelow, take_replicate]
  le x hx := by simp [eq_of_mem_replicate hx]

section

variable {right done batch cells : List ℕ} {s n : ℕ}

theorem Cells.skip (h : Cells b right done batch s n cells) :
    Cells b right done (batch ++ [0]) s n cells where
  length := h.length
  below m := by rw [h.below, rowsBelow_concat, zero_mul, zero_mul, add_zero]
  le := h.le

/-- **One row.** -/
theorem Cells.row (h : Cells b right done batch s n cells) {l : ℕ}
    (hlen : done.length + batch.length + right.length ≤ n) (hr : ∀ r ∈ right, r ≤ b - 1)
    (htop : (s + l) * (b - 1) ≤ top) :
    ∃ row, addRow top l right (cells.drop (done.length + batch.length)) = some row
      ∧ Cells b right done (batch ++ [l]) (s + l) n
        (cells.take (done.length + batch.length) ++ row) := by
  have hn := h.length
  have hroom : right.length ≤ (cells.drop (done.length + batch.length)).length := by
    rw [length_drop]
    omega
  obtain ⟨row, hrow, hrlen, hrle⟩ :=
    addRow_defined hroom hr (fun x hx => h.le x (mem_of_mem_drop hx)) htop
  rw [length_drop] at hrlen
  have htake : (cells.take (done.length + batch.length)).length = done.length + batch.length := by
    rw [length_take]
    omega
  refine ⟨row, hrow, ⟨by rw [List.length_append, htake, hrlen]; omega, fun m => ?_, fun x hx => ?_⟩⟩
  · rw [rowsBelow_concat, ← add_assoc, ← h.below, ofDigits_take_addRow_drop (by omega) hrow]
  rcases mem_append.mp hx with hx | hx
  · exact (h.le x (mem_of_mem_take hx)).trans
      (Nat.mul_le_mul_right _ (Nat.le_add_right s l))
  · exact hrle x hx

theorem Cells.isSome_iff (hb : 0 < b) (h : Cells b right done batch s n cells) :
    (carryCells b top cells 0).isSome ↔ Fits b top right done batch n := by
  rw [carryCells_isSome_iff hb, h.length, Fits]
  simp only [h.below, add_zero]

theorem ofDigits_mul_lt {xs ys : List ℕ} (hb : 1 < b) (hx : ∀ x ∈ xs, x < b) (hy : ∀ y ∈ ys, y < b)
    (hlen : xs.length + ys.length ≤ n) : ofDigits b xs * ofDigits b ys < b ^ n := by
  calc ofDigits b xs * ofDigits b ys
      < b ^ xs.length * b ^ ys.length :=
        Nat.mul_lt_mul'' (Nat.ofDigits_lt_base_pow_length hb hx)
          (Nat.ofDigits_lt_base_pow_length hb hy)
    _ = b ^ (xs.length + ys.length) := (pow_add _ _ _).symm
    _ ≤ b ^ n := Nat.pow_le_pow_right (by omega) hlen

theorem Cells.total (h : Cells b right done batch s n cells) (hb : 1 < b)
    (hd : ∀ x ∈ done, x < b) (hr : ∀ x ∈ right, x < b)
    (hlen : done.length + batch.length + right.length ≤ n) :
    ofDigits b cells = ofDigits b (done ++ batch) * ofDigits b right := by
  have hlt : ofDigits b done * ofDigits b right < b ^ n :=
    ofDigits_mul_lt hb hd hr (by omega)
  have htotal := h.below n
  rw [take_of_length_le h.length.le, Nat.mod_eq_of_lt hlt, rowsBelow_of_le hlen] at htotal
  rw [htotal, ofDigits_append]
  ring

/-- **Propagation ends a batch**, and nothing is carried out of the last column. -/
theorem Cells.propagate (h : Cells b right done batch s n cells) (hb : 1 < b)
    (hd : ∀ x ∈ done, x < b) (hbatch : ∀ x ∈ batch, x < b) (hr : ∀ x ∈ right, x < b)
    (hlen : done.length + batch.length + right.length ≤ n) {ds : List ℕ} {c : ℕ}
    (hc : carryCells b top cells 0 = some (ds, c)) :
    c = 0 ∧ Written b n ds ∧ Cells b right (done ++ batch) [] 1 n ds := by
  obtain ⟨hw, hval⟩ := carryCells_spec (by omega) hc
  rw [h.length] at hw hval
  rw [h.total hb hd hr hlen, add_zero] at hval
  have hall : ∀ x ∈ done ++ batch, x < b := fun x hx =>
    (mem_append.mp hx).elim (hd x) (hbatch x)
  have hlt : ofDigits b (done ++ batch) * ofDigits b right < b ^ n :=
    ofDigits_mul_lt hb hall hr (by rwa [List.length_append])
  have hc0 : c = 0 := by
    by_contra hne
    have := Nat.le_mul_of_pos_left (b ^ n) (Nat.pos_of_ne_zero hne)
    omega
  rw [hc0, zero_mul, add_zero] at hval
  refine ⟨hc0, hw, ⟨hw.length, fun m => ?_, fun x hx => ?_⟩⟩
  · rw [← hval, Nat.ofDigits_mod_pow_eq_ofDigits_take m (by omega) ds hw.lt, rowsBelow, add_zero]
  · have := hw.lt x hx
    omega

end

end Novachains.Lib
