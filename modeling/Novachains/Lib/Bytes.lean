import Mathlib.Algebra.Order.Ring.Nat

/-!
# Byte-addressed memory

A memory holds one byte at each address.  Words are little endian.  What a store
does to a later load is settled by where the two lie: the same place, or ranges
that do not meet.
-/

namespace Novachains.Lib

open List

/-- The `w` low bytes of a number, least significant first. -/
def encode : ℕ → ℕ → List UInt8
  | 0, _ => []
  | w + 1, v => UInt8.ofNat v :: encode w (v / 256)

def decode : List UInt8 → ℕ
  | [] => 0
  | b :: bs => b.toNat + 256 * decode bs

@[simp] theorem length_encode (w v : ℕ) : (encode w v).length = w := by
  induction w generalizing v with
  | zero => rfl
  | succ w ih => rw [encode, length_cons, ih]

theorem decode_encode (w v : ℕ) : decode (encode w v) = v % 256 ^ w := by
  induction w generalizing v with
  | zero => simp [encode, decode, Nat.mod_one]
  | succ w ih =>
    have hb : (UInt8.ofNat v).toNat = v % 256 := UInt8.toNat_ofNat'
    rw [encode, decode, ih, hb, pow_succ', Nat.mod_mul]

theorem decode_lt (bs : List UInt8) : decode bs < 256 ^ bs.length := by
  induction bs with
  | nil => simp [decode]
  | cons b bs ih =>
    have hb := b.toNat_lt
    rw [decode, length_cons, pow_succ']
    omega

/-! ## Memory -/

def Mem : Type := ℕ → UInt8

namespace Mem

/-- The `n` bytes from `a` on. -/
def load (m : Mem) (a n : ℕ) : List UInt8 := (List.range n).map fun i => m (a + i)

/-- Put the bytes at `a` and after. -/
def store (m : Mem) (a : ℕ) (bs : List UInt8) : Mem :=
  fun x => if a ≤ x then bs[x - a]?.getD (m x) else m x

/-- Put the same byte at the `n` addresses from `a` on. -/
def fill (m : Mem) (a n : ℕ) (b : UInt8) : Mem :=
  fun x => if a ≤ x ∧ x < a + n then b else m x

/-- The word of `w` bytes at `a`. -/
def read (m : Mem) (a w : ℕ) : ℕ := decode (m.load a w)

/-- Put a word of `w` bytes at `a`. -/
def write (m : Mem) (a w v : ℕ) : Mem := m.store a (encode w v)

/-- The two memories agree on the `n` bytes from `a` on. -/
def SameOn (m m' : Mem) (a n : ℕ) : Prop := ∀ x, a ≤ x → x < a + n → m' x = m x

@[simp] theorem length_load (m : Mem) (a n : ℕ) : (m.load a n).length = n := by
  rw [load, length_map, length_range]

theorem load_add (m : Mem) (a n k : ℕ) : m.load a (n + k) = m.load a n ++ m.load (a + n) k := by
  simp only [load, range_add, map_append, List.map_map, Function.comp_def, add_assoc]

theorem take_load (m : Mem) (a n k : ℕ) : (m.load a n).take k = m.load a (min k n) := by
  rw [load, ← map_take, take_range, load]

theorem store_of_not_mem (m : Mem) (a : ℕ) (bs : List UInt8) {x : ℕ}
    (h : x < a ∨ a + bs.length ≤ x) : m.store a bs x = m x := by
  unfold store
  split
  · rw [getElem?_eq_none (by omega), Option.getD_none]
  · rfl

variable {m m' : Mem} {a n : ℕ}

theorem load_congr (h : m.SameOn m' a n) : m'.load a n = m.load a n := by
  refine map_congr_left fun i hi => h (a + i) (by omega) ?_
  rw [mem_range] at hi
  omega

variable {w : ℕ}

theorem read_congr (h : m.SameOn m' a w) : m'.read a w = m.read a w := by
  rw [read, load_congr h, read]

variable {b : ℕ}

theorem sameOn_store (m : Mem) {bs : List UInt8}
    (h : b + n ≤ a ∨ a + bs.length ≤ b := by omega) : m.SameOn (m.store a bs) b n :=
  fun _ h1 h2 => m.store_of_not_mem a bs (by omega)

variable {v : ℕ}

theorem sameOn_write (m : Mem) (h : b + n ≤ a ∨ a + w ≤ b := by omega) :
    m.SameOn (m.write a w v) b n := sameOn_store m (by rw [length_encode]; exact h)

@[simp] theorem load_store_same (m : Mem) (a : ℕ) (bs : List UInt8) :
    (m.store a bs).load a bs.length = bs := by
  refine ext_getElem (by rw [length_load]) fun i h _ => ?_
  rw [length_load] at h
  simp [load, store, h]

theorem load_store_part (m : Mem) (a : ℕ) (l bs r : List UInt8) :
    (m.store a (l ++ bs ++ r)).load (a + l.length) bs.length = bs := by
  refine ext_getElem (by rw [length_load]) fun i h _ => ?_
  rw [length_load] at h
  have hget : (l ++ (bs ++ r))[l.length + i]? = bs[i]? := by
    rw [getElem?_append_right (by omega), Nat.add_sub_cancel_left, getElem?_append_left h]
  simp [load, store, add_assoc, hget, h]

theorem read_store_part (m : Mem) (a w v : ℕ) (l r : List UInt8) :
    (m.store a (l ++ encode w v ++ r)).read (a + l.length) w = v % 256 ^ w := by
  have h := load_store_part m a l (encode w v) r
  rw [length_encode] at h
  rw [read, h, decode_encode]

theorem read_write_same (m : Mem) (a w v : ℕ) : (m.write a w v).read a w = v % 256 ^ w := by
  have h := load_store_same m a (encode w v)
  rw [length_encode] at h
  rw [read, write, h, decode_encode]

theorem read_write_of_disjoint (m : Mem) {w' : ℕ} (h : b + w' ≤ a ∨ a + w ≤ b) :
    (m.write a w v).read b w' = m.read b w' := read_congr (sameOn_write m h)

theorem load_write_of_disjoint (m : Mem) (h : b + n ≤ a ∨ a + w ≤ b) :
    (m.write a w v).load b n = m.load b n := load_congr (sameOn_write m h)

theorem SameOn.trans {m₁ m₂ m₃ : Mem} (h₁ : m₁.SameOn m₂ a n) (h₂ : m₂.SameOn m₃ a n) :
    m₁.SameOn m₃ a n := fun x hx hx' => (h₂ x hx hx').trans (h₁ x hx hx')

theorem SameOn.mono {k : ℕ} (h : m.SameOn m' a n) (hlo : a ≤ b := by omega)
    (hhi : b + k ≤ a + n := by omega) : m.SameOn m' b k := fun x h1 h2 => h x (by omega) (by omega)

theorem SameOn.write (h : m.SameOn m' b n) (hd : b + n ≤ a ∨ a + w ≤ b := by omega) :
    m.SameOn (m'.write a w v) b n := h.trans (sameOn_write m' hd)

theorem SameOn.rfl : m.SameOn m a n := fun _ _ _ => by rfl

theorem sameOn_fill (m : Mem) {k : ℕ} {v : UInt8} (h : b + k ≤ a ∨ a + n ≤ b) :
    m.SameOn (m.fill a n v) b k := fun x _ _ => if_neg (by omega)

/-- A word in which all ones stand for `none`. -/
def readOpt (m : Mem) (a w : ℕ) : Option ℕ :=
  if m.read a w = 256 ^ w - 1 then none else some (m.read a w)

/-- Put a word, all ones for `none`. -/
def writeOpt (m : Mem) (a w : ℕ) (o : Option ℕ) : Mem := m.write a w (o.getD (256 ^ w - 1))

theorem readOpt_congr (h : m.SameOn m' a w) :
    m'.readOpt a w = m.readOpt a w := by rw [readOpt, read_congr h, readOpt]

theorem sameOn_writeOpt (m : Mem) {o : Option ℕ} (h : b + n ≤ a ∨ a + w ≤ b := by omega) :
    m.SameOn (m.writeOpt a w o) b n := sameOn_write m h

theorem SameOn.writeOpt {o : Option ℕ} (h : m.SameOn m' b n)
    (hd : b + n ≤ a ∨ a + w ≤ b := by omega) : m.SameOn (m'.writeOpt a w o) b n :=
  h.trans (sameOn_writeOpt m' hd)

theorem readOpt_writeOpt_same (m : Mem) (a w : ℕ) {o : Option ℕ} (h : ∀ v ∈ o, v < 256 ^ w - 1) :
    (m.writeOpt a w o).readOpt a w = o := by
  have hpos : 0 < 256 ^ w := Nat.pow_pos (by decide)
  unfold readOpt writeOpt
  rw [read_write_same]
  cases o with
  | none => rw [Option.getD_none, Nat.mod_eq_of_lt (by omega), if_pos rfl]
  | some v =>
    have hv := h v rfl
    rw [Option.getD_some, Nat.mod_eq_of_lt (by omega), if_neg (by omega)]

theorem decode_replicate (w : ℕ) : decode (List.replicate w 255) = 256 ^ w - 1 := by
  induction w with
  | zero => rfl
  | succ w ih =>
    have hpos : 0 < 256 ^ w := Nat.pow_pos (by decide)
    have hb : (255 : UInt8).toNat = 255 := by rfl
    rw [replicate_succ, decode, ih, hb, pow_succ']
    omega

theorem readOpt_fill (m : Mem) (hlo : a ≤ b) (hhi : b + w ≤ a + n) :
    (m.fill a n 255).readOpt b w = none := by
  have hload : (m.fill a n 255).load b w = List.replicate w 255 := by
    refine eq_replicate_iff.mpr ⟨length_load _ _ _, fun v hv => ?_⟩
    obtain ⟨i, hi, rfl⟩ := List.mem_map.mp hv
    rw [mem_range] at hi
    exact if_pos (by omega)
  rw [readOpt, read, hload, decode_replicate, if_pos rfl]

end Mem

end Novachains.Lib
