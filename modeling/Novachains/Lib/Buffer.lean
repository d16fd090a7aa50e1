import Mathlib.Data.List.Basic

/-!
# A buffer that is written in parts
-/

namespace Novachains.Lib

open List

universe u
variable {α : Type u}

def overwrite (buf : List α) (off : ℕ) (bs : List α) : List α :=
  buf.take off ++ bs ++ buf.drop (off + bs.length)

theorem length_overwrite {buf bs : List α} {off : ℕ} (h : off + bs.length ≤ buf.length) :
    (overwrite buf off bs).length = buf.length := by
  simp only [overwrite, List.length_append, length_take, length_drop]
  omega

theorem take_overwrite {buf bs : List α} {off : ℕ} (h : off ≤ buf.length) :
    (overwrite buf off bs).take (off + bs.length) = buf.take off ++ bs := by
  rw [overwrite, take_left' (by simp [h])]

end Novachains.Lib
