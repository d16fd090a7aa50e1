import Mathlib.Algebra.Order.Ring.Nat

/-!
# Return codes and machine integers

Every fallible function of the source returns one of the `SDB_*` codes.  Machine
integers are natural numbers; where the source stores into a narrower type the
model reduces explicitly.
-/

namespace Novachains

/-- The `SDB_*` return codes the modelled functions produce. -/
inductive Rc
  | ok
  | sys
  | oom
  | io
  | perm
  | invalidArg
  | invalidFileType
  | interrupt
  | timeout
  | operationIncompatible
  | dmsNoSpc
  | dmsCorruptedSME
  | dmsCorruptedExtent
  | dmsInvalidSU
  | dmsIncompatibleVersion
  | dmsExist
  | dmsNotExist
  | dmsUniqueIDConflict
  | dmsRecordTooBig
  | dmsEOC
  | ossUpToLimit
  | eof
  | noSpc
  | invalidSize
  | fieldNotExist
  | pdTraceIsStarted
  | pdTraceHasNoBuffer
  | pdTraceFileInvalid
  deriving DecidableEq, Repr, Inhabited

def u16 (n : ℕ) : ℕ := n % 2 ^ 16

def u32 (n : ℕ) : ℕ := n % 2 ^ 32

theorem u16_of_lt {n : ℕ} (h : n < 2 ^ 16) : u16 n = n := Nat.mod_eq_of_lt h
theorem u32_of_lt {n : ℕ} (h : n < 2 ^ 32) : u32 n = n := Nat.mod_eq_of_lt h

theorem ite_error_eq_ok {ε α : Type} {c : Prop} [Decidable c] {e : ε} {x : Except ε α} {a : α} :
    (if c then .error e else x) = .ok a ↔ ¬ c ∧ x = .ok a := by
  by_cases h : c <;> simp [h]

theorem except_map_eq_ok {ε α β : Type} {f : α → β} {x : Except ε α} {b : β} :
    x.map f = .ok b ↔ ∃ a, x = .ok a ∧ f a = b := by
  cases x <;> simp [Except.map]

theorem except_bind_eq_ok {ε α β : Type} {f : α → Except ε β} {x : Except ε α} {b : β} :
    x.bind f = .ok b ↔ ∃ a, x = .ok a ∧ f a = .ok b := by
  cases x <;> simp [Except.bind]

def failIf (c : Prop) [Decidable c] (rc : Rc) : Except Rc Unit := if c then .error rc else .ok ()

/-- `if ( rc ) goto error`. -/
def check (rc : Rc) : Except Rc Unit := failIf (rc ≠ .ok) rc

theorem failIf_eq_ok {c : Prop} [Decidable c] {rc : Rc} {u : Unit} :
    failIf c rc = .ok u ↔ ¬ c := by
  by_cases h : c <;> simp [failIf, h]

theorem check_eq_ok {rc : Rc} {u : Unit} : check rc = .ok u ↔ rc = .ok := by
  rw [check, failIf_eq_ok, ne_eq, Decidable.not_not]

theorem bind_eq_ok {ε α β : Type} {x : Except ε α} {f : α → Except ε β} {b : β} :
    (x >>= f) = .ok b ↔ ∃ a, x = .ok a ∧ f a = .ok b := by
  cases x with
  | error e => simp [bind, Except.bind]
  | ok a => simp [bind, Except.bind]

end Novachains
