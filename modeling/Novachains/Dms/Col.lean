import Novachains.Dms.Extent

/-!
# The view a collection has of its unit

The functions that work on one collection reach the mapped data pages, the metadata
block of the collection and its statistics record.  `Col` is this part of a storage
unit.
-/

namespace Novachains.Dms

open Lib

/-- The modes of a lock, `SHARED` and `EXCLUSIVE`. -/
inductive Latch
  | shared
  | exclusive
  deriving DecidableEq, Repr

namespace PageSize

/-- `extent2Segment( extID ) - dataStartSegID()`. -/
def segmentOf (p : PageSize) (extID : ℕ) : ℕ := extID >>> p.layout.segmentPagesSquare

/-- `_getFactor()`. -/
def factor (p : PageSize) : ℕ := 16 + 14 - p.square

def mbExSize (p : PageSize) : ℕ := ((p.maxSegmentNum <<< 3) >>> p.square) + 1

section
variable (p : PageSize)
include p

theorem segmentOf_eq (extID : ℕ) : p.segmentOf extID = extID / p.segmentPages := by
  rw [segmentOf, Nat.shiftRight_eq_div_pow, ← p.layout_segmentPages]
  rfl

@[simp] theorem mbExSize_eq : p.mbExSize = 9 := by cases p <;> decide

@[simp] theorem maxSegmentNum_eq : p.maxSegmentNum = p.bytes := by
  cases p <;> decide

theorem le_bytes : 4096 ≤ p.bytes := by cases p <;> decide

theorem bytes_le : p.bytes ≤ 65536 := by cases p <;> decide

theorem segmentOf_lt {extID : ℕ} (h : extID < maxPg) :
    p.segmentOf extID < p.maxSegmentNum := by
  rw [segmentOf_eq, Nat.div_lt_iff_lt_mul p.segmentPages_pos, maxSegmentNum_eq, mul_comm,
    p.segmentPages_mul_bytes]
  exact h

theorem page_apart {e x : ℕ} (h : e ≠ x) :
    e * p.bytes + p.bytes ≤ x * p.bytes ∨ x * p.bytes + p.bytes ≤ e * p.bytes := by
  rcases lt_or_gt_of_ne h with h | h
  · exact .inl (by rw [← Nat.succ_mul]; exact Nat.mul_le_mul_right _ h)
  · exact .inr (by rw [← Nat.succ_mul]; exact Nat.mul_le_mul_right _ h)

end

end PageSize

/-- What the functions on a collection use: the mapped pages, the metadata block and the statistics.
-/
structure Col where
  pageSize : PageSize
  pages : ℕ
  data : Mem
  mb : MB
  stat : MBStatInfo

namespace Col

def addr (c : Col) (extID : ℕ) : ℕ := extID * c.pageSize.bytes

/-- `extentAddr`; `none` is the null address. -/
def extentAddr (c : Col) : Option ℕ → Option ℕ
  | none => none
  | some extID => if extID < c.pages then some (c.addr extID) else none

theorem extentAddr_of_lt (c : Col) {e : ℕ} (h : e < c.pages) :
    c.extentAddr (some e) = some (c.addr e) := if_pos h

def recordAddr (c : Col) (rid : RecordID) : ℕ := c.addr rid.extent + rid.offset

end Col

end Novachains.Dms
