import Novachains.Basic
import Novachains.Lib.Bytes

/-!
# Blocks of the memory pools

A block that the pools hand out has a header before the user's bytes and a mark behind them:

    | B-Eye(2) | Size(4) | Type(2) | User Data | E-Eye(2) |

`Size` is the size of all of it.  The header is filled in when the block is allocated, and read
again when it is released.
-/

namespace Novachains.Util

open Lib Mem

/-- `MEMBLOCKPOOL_TYPE`. -/
inductive MemType
  | dyn
  | b32
  | b64
  | b128
  | b256
  | b512
  | b1024
  | b2048
  | b4096
  | b8192
  deriving DecidableEq, Repr

namespace MemType

def code : MemType → ℕ
  | dyn => 1
  | b32 => 2
  | b64 => 3
  | b128 => 4
  | b256 => 5
  | b512 => 6
  | b1024 => 7
  | b2048 => 8
  | b4096 => 9
  | b8192 => 10

def classes : List MemType := [b32, b64, b128, b256, b512, b1024, b2048, b4096, b8192]

/-- The type with a value, if it is from `MEMBLOCKPOOL_TYPE_DYN` to before
`MEMBLOCKPOOL_TYPE_MAX`. -/
def ofCode? (n : ℕ) : Option MemType := (dyn :: classes).find? fun t => t.code = n

/-- `_type2Size`. -/
def size : MemType → ℕ
  | dyn => 0
  | b32 => 32
  | b64 => 64
  | b128 => 128
  | b256 => 256
  | b512 => 512
  | b1024 => 1024
  | b2048 => 2048
  | b4096 => 4096
  | b8192 => 8192

@[simp] theorem ofCode?_code (t : MemType) : ofCode? t.code = some t := by
  cases t <;> rfl

theorem code_lt (t : MemType) : t.code < 256 ^ 2 := by
  cases t <;> decide

end MemType

/-- The smallest class that holds the size. -/
def size2MemType (size : ℕ) : MemType :=
  if size ≤ 32 then .b32
  else if size ≤ 64 then .b64
  else if size ≤ 128 then .b128
  else if size ≤ 256 then .b256
  else if size ≤ 512 then .b512
  else if size ≤ 1024 then .b1024
  else if size ≤ 2048 then .b2048
  else if size ≤ 4096 then .b4096
  else if size ≤ 8192 then .b8192
  else .dyn

def bEyeChar : ℕ := 0xBE38

def eEyeChar : ℕ := 0xAC52

def headFillLen : ℕ := 8

def eEyeLen : ℕ := 2

def totalFillLen : ℕ := headFillLen + eEyeLen

/-- `UTIL_MEM_SIZE_2_REALSIZE`, stored into a `UINT32`. -/
def size2RealSize (size : ℕ) : ℕ := u32 (size + totalFillLen)

/-- `realSize - UTIL_MEM_TOTAL_FILL_LEN`, stored into a `UINT32`. -/
def realSize2Size (realSize : ℕ) : ℕ := u32 (realSize + 2 ^ 32 - totalFillLen)

/-- `_fillPtr` on a block of `len` bytes.  There is no result when it would write outside. -/
def fillPtr (mem : Mem) (len : ℕ) (type : MemType) (size : ℕ) : Option Mem :=
  if headFillLen ≤ len ∧ eEyeLen ≤ size ∧ size ≤ len then
    some ((((mem.write 0 2 bEyeChar).write (size - eEyeLen) 2 eEyeChar).write 2 4 size).write 6 2
      type.code)
  else none

/-- `_checkAndExtract`: the user's size and the type, if the header is valid. -/
def checkAndExtract (mem : Mem) : Option (ℕ × MemType) :=
  if mem.read 0 2 ≠ bEyeChar then none
  else
    match MemType.ofCode? (mem.read 6 2) with
    | none => none
    | some type =>
      let size := mem.read 2 4
      if size < totalFillLen then none
      else if type ≠ .dyn ∧ size ≠ type.size then none
      else if mem.read (size - eEyeLen) 2 ≠ eEyeChar then none
      else some (size - totalFillLen, type)

/-! ## Headers -/

structure Sealed (mem : Mem) (type : MemType) (size : ℕ) : Prop where
  bEye : mem.read 0 2 = bEyeChar
  size_eq : mem.read 2 4 = size
  type_eq : mem.read 6 2 = type.code
  eEye : mem.read (size - eEyeLen) 2 = eEyeChar
  large : totalFillLen ≤ size
  class_eq : type ≠ .dyn → size = type.size

section Header
variable {mem mem' : Mem} {type : MemType} {size : ℕ}

/-- **What was filled in is extracted.** -/
theorem Sealed.check (h : Sealed mem type size) :
    checkAndExtract mem = some (size - totalFillLen, type) := by
  have hlarge := h.large
  have hclass : ¬(type ≠ .dyn ∧ size ≠ type.size) := fun hc => hc.2 (h.class_eq hc.1)
  simp only [checkAndExtract, h.bEye, h.type_eq, h.size_eq, MemType.ofCode?_code, h.eEye]
  rw [if_neg (by simp), if_neg (by omega), if_neg hclass, if_neg (by simp)]

theorem Sealed.size_lt (h : Sealed mem type size) : size < 2 ^ 32 := by
  have hlt := decode_lt (mem.load 2 4)
  have hsize := h.size_eq
  rw [length_load] at hlt
  unfold Mem.read at hsize
  omega

theorem Sealed.congr (h : Sealed mem type size) (hhead : mem.SameOn mem' 0 headFillLen)
    (htail : mem.SameOn mem' (size - eEyeLen) eEyeLen) : Sealed mem' type size where
  bEye := by
    rw [read_congr (hhead.mono (by decide) (by decide))]
    exact h.bEye
  size_eq := by
    rw [read_congr (hhead.mono (by decide) (by decide))]
    exact h.size_eq
  type_eq := by
    rw [read_congr (hhead.mono (by decide) (by decide))]
    exact h.type_eq
  eEye := (read_congr htail).trans h.eEye
  large := h.large
  class_eq := h.class_eq

theorem Sealed.store (h : Sealed mem type size) {off : ℕ} {bs : List UInt8}
    (hoff : headFillLen ≤ off) (hend : off + bs.length + eEyeLen ≤ size) :
    Sealed (mem.store off bs) type size :=
  h.congr (sameOn_store _) (sameOn_store _)

/-- **Filling in a header** changes nothing of the user's bytes. -/
theorem fillPtr_spec (mem : Mem) {len : ℕ} (hlarge : totalFillLen ≤ size) (hlen : size ≤ len)
    (hlt : size < 2 ^ 32) (hclass : type ≠ .dyn → size = type.size) :
    ∃ mem', fillPtr mem len type size = some mem' ∧ Sealed mem' type size ∧
      mem.SameOn mem' headFillLen (size - totalFillLen) := by
  have htotal : totalFillLen = 10 := rfl
  have heye : eEyeLen = 2 := rfl
  have hhead : headFillLen = 8 := rfl
  refine ⟨_, if_pos ⟨by omega, by omega, hlen⟩, ?_, ?_⟩
  · refine ⟨?_, ?_, ?_, ?_, hlarge, hclass⟩
    · rw [read_write_of_disjoint _ (by omega), read_write_of_disjoint _ (by omega),
        read_write_of_disjoint _ (by omega), read_write_same]
      rfl
    · rw [read_write_of_disjoint _ (by omega), read_write_same]
      exact Nat.mod_eq_of_lt hlt
    · rw [read_write_same]
      exact Nat.mod_eq_of_lt type.code_lt
    · rw [read_write_of_disjoint _ (by omega), read_write_of_disjoint _ (by omega), read_write_same]
      rfl
  · refine Mem.SameOn.trans (sameOn_write _ ?_) (Mem.SameOn.trans (sameOn_write _ ?_)
      (Mem.SameOn.trans (sameOn_write _ ?_) (sameOn_write _ ?_))) <;> omega

end Header

theorem size2RealSize_of_lt {size : ℕ} (h : size + totalFillLen < 2 ^ 32) :
    size2RealSize size = size + totalFillLen := u32_of_lt h

theorem realSize2Size_of_le {realSize : ℕ} (hle : totalFillLen ≤ realSize)
    (hlt : realSize < 2 ^ 32) : realSize2Size realSize = realSize - totalFillLen := by
  unfold realSize2Size u32
  omega

theorem le_size2MemType (size : ℕ) (h : size2MemType size ≠ .dyn) :
    size ≤ (size2MemType size).size := by
  revert h
  fun_cases size2MemType size <;> intro h <;> first | assumption | exact absurd rfl h

end Novachains.Util
