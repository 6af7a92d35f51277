import Mathlib.Algebra.Group.Nat.Defs
import Mathlib.Logic.Function.Basic

/-!
# Definitions every part of the kernel shares

`common.h`, and the ways a kernel function can fail to return.
-/

namespace OmegaOS

/-- Why a kernel function does not return: a failed `assert`, a `panic`, a spin on a lock that its own processor holds, or an access
through a null pointer. -/
inductive Halt where
  | assertion (expr : String)
  | panic (message : String)
  | spin
  | nullAccess
deriving DecidableEq, Repr

/-- `NULL`. -/
def null : Nat := 0

/-- `PAGE_SIZE`. -/
def pageSize : Nat := 4096

/-- `RNDUP(num, nm)`, as the macro is written: it rounds down, except below `nm`. -/
def rndup (num nm : Nat) : Nat := if num < nm then nm else num / nm * nm

/-- `RNDWN(num, nm)` on 64-bit operands, as the macro is written: it rounds up. -/
def rndwn (num nm : Nat) : Nat := (num + nm - 1) % 2 ^ 64 / nm * nm

/-- `ROOT_PID`. -/
def rootPid : Int := 1

/-- `assert(expr)`. -/
def assert (b : Bool) (expr : String) : Except Halt Unit := if b then .ok () else .error (.assertion expr)

@[simp] theorem assert_true (expr : String) : assert true expr = .ok () := rfl

@[simp] theorem assert_false (expr : String) : assert false expr = .error (.assertion expr) := rfl

theorem getLsbD_bit (b : Nat) (hc : c < w) : (1#w <<< b).getLsbD c = decide (c = b) := by
  rw [BitVec.getLsbD_shiftLeft, BitVec.getLsbD_one]
  by_cases h : c = b
  · subst h
    simp [hc, Nat.zero_lt_of_lt hc]
  · simp only [h, decide_false]
    simp only [Bool.and_eq_false_iff, decide_eq_false_iff_not, Bool.not_eq_false', decide_eq_true_eq]
    omega

/-- A computation that returns has returned at each of its steps. -/
theorem bind_eq_ok {ε α β : Type} {x : Except ε α} {f : α → Except ε β} {b : β} : x >>= f = .ok b ↔ ∃ a, x = .ok a ∧ f a = .ok b := by
  cases x with
  | error e =>
    constructor
    · intro h
      cases h
    · rintro ⟨_, h, _⟩
      cases h
  | ok a =>
    constructor
    · intro h
      exact ⟨a, rfl, h⟩
    · rintro ⟨_, h, h'⟩
      cases h
      exact h'

/-- What is read off a result was read off one that was returned. -/
theorem map_eq_ok {ε α β : Type} {x : Except ε α} {f : α → β} {b : β} (h : x.map f = .ok b) : ∃ a, x = .ok a ∧ f a = b := by
  cases x with
  | error e => cases h
  | ok a => exact ⟨a, rfl, Except.ok.inj h⟩

theorem ok_of_toBool {ε α : Type} {x : Except ε α} (h : x.toBool = true) : ∃ a, x = .ok a := by
  cases x with
  | error e => cases h
  | ok a => exact ⟨a, rfl⟩

/-- A run that succeeds has a result, with all that holds of its results. -/
theorem exists_ok {ε α : Type} {x : Except ε α} {P : α → Prop} (hrun : x.toBool = true) (h : ∀ a, x = .ok a → P a) : ∃ a, x = .ok a ∧ P a := by
  obtain ⟨a, ha⟩ := ok_of_toBool hrun
  exact ⟨a, ha, h a ha⟩

theorem exists_ok_pair {ε α β : Type} {x : Except ε (α × β)} {P : α → β → Prop} (hrun : x.toBool = true)
    (h : ∀ a b, x = .ok (a, b) → P a b) : ∃ a b, x = .ok (a, b) ∧ P a b := by
  obtain ⟨⟨a, b⟩, hab⟩ := ok_of_toBool hrun
  exact ⟨a, b, hab, h a b hab⟩

theorem exists_ok_fst {ε α β : Type} {x : Except ε (α × β)} {a : α} {P : β → Prop} (hret : x.map (·.1) = .ok a)
    (h : ∀ b, x = .ok (a, b) → P b) : ∃ b, x = .ok (a, b) ∧ P b := by
  obtain ⟨⟨_, b⟩, hb, rfl⟩ := map_eq_ok hret
  exact ⟨b, hb, h b hb⟩

theorem ok_of_toOption {α : Type} {r : Except Halt α} {a : α} (h : r.toOption = some a) : r = .ok a := by
  cases r with
  | error e => cases h
  | ok b => rw [Option.some.inj h]

end OmegaOS
