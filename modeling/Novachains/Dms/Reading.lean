import Novachains.Dms.Progress

/-!
# What can be read in a unit

The chain of a collection and the records of an extent, as the links in memory give them, and
what they are in a sound unit.
-/

namespace Novachains.Dms

open Lib Oss

/-- The list of records of the extent at the address `a`, by their offsets. -/
def RecordList (m : Mem) (a : ℕ) (offs : List ℕ) : Prop :=
  Path (fun o => Record.nextOffset m (a + o)) (Extent.firstRecordOffset m a) offs none

theorem BodyOk.recordList {m : Mem} {a id pages size : ℕ} {recs : List Rec} {free taken : List Run}
    (h : BodyOk m a id pages size recs free taken) : RecordList m a (recs.map Rec.off) := by
  rw [RecordList, h.first_eq]
  exact h.linked.forward

namespace BlockData

def addr (bd : BlockData) (extID : ℕ) : ℕ := extID * bd.pageSize.bytes

/-- The extents of the collection in slot `i` are those of `chain`, in this order. -/
def IsChain (bd : BlockData) (i : ℕ) (chain : List ℕ) : Prop :=
  Path (bd.col i).next (bd.mme i).firstExtentID chain none

def chains (bd : BlockData) (owned : ℕ → Owned) (i : ℕ) : List ℕ :=
  Col.chain bd.pageSize (owned i).added

variable {bd : BlockData} {n : ℕ} {owned : ℕ → Owned} {i : ℕ}

section
variable (h : bd.StoreOk n owned)
include h

theorem StoreOk.perm_chains (hi : bd.InUse i) :
    (bd.chains owned i).Perm (owned i).added :=
  perm_buckets fun e he => bd.pageSize.segmentOf_lt
    (((h.slot i hi).col.chain.mapped e he).trans_le h.agrees.mappedPages_le)

theorem StoreOk.mem_chains (hi : bd.InUse i) {e : ℕ} :
    e ∈ bd.chains owned i ↔ e ∈ (owned i).added := (h.perm_chains hi).mem_iff

theorem StoreOk.isChain (hi : bd.InUse i) :
    bd.IsChain i (bd.chains owned i) := by
  have hlinks := (h.slot i hi).col.chain.links
  rw [IsChain, show (bd.mme i).firstExtentID = _ from hlinks.first_eq]
  exact hlinks.linked.forward

theorem StoreOk.firstExtentID_eq_none_iff (hi : bd.InUse i) :
    (bd.mme i).firstExtentID = none ↔ (owned i).added = [] := by
  rw [show (bd.mme i).firstExtentID = _ from (h.slot i hi).col.chain.links.first_eq,
    List.head?_eq_none_iff]
  exact ⟨fun hc => List.nil_perm.mp (hc ▸ h.perm_chains hi),
    fun ha => List.perm_nil.mp (ha ▸ h.perm_chains hi)⟩

theorem StoreOk.body (hi : bd.InUse i) {e : ℕ} (he : e ∈ (owned i).added) :
    BodyOk bd.data (bd.addr e) (bd.mme i).blockID ((owned i).contents.pages e)
      ((owned i).contents.pages e * bd.pageSize.bytes) ((owned i).contents.recs e)
      ((owned i).contents.free e) ((owned i).contents.taken e) :=
  (h.slot i hi).col.body e he

end

end BlockData

end Novachains.Dms
