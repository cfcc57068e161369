import Mathlib.Tactic

/-!
# Machine words and abnormal ends of kernel code

Unsigned machine words are natural numbers with explicit reduction.  Kernel
code that does not return (a failed assertion, a panic, an access through a
null pointer) ends in a {lit}`Halt`.
-/

namespace Micael

/-- Reduction to an `unsigned long` (64 bits). -/
def u64 (n : Nat) : Nat := n % 2 ^ 64

/-- Reduction to an `unsigned` (32 bits). -/
def u32 (n : Nat) : Nat := n % 2 ^ 32

/-- Reduction to an `unsigned short` (16 bits). -/
def u16 (n : Nat) : Nat := n % 2 ^ 16

/-- Conversion of an `int` to an `unsigned short`. -/
def u16OfInt (z : Int) : Nat := (z % 2 ^ 16).toNat

/-- Conversion to a `short`. -/
def shortOfInt (z : Int) : Int := z.bmod (2 ^ 16)

/-- Conversion of a 64-bit word to an `ssize_t`. -/
def ssizeOfInt (z : Int) : Int := z.bmod (2 ^ 64)

theorem u64_eq_of_lt {n : Nat} (h : n < 2 ^ 64) : u64 n = n :=
  Nat.mod_eq_of_lt h

theorem u32_eq_of_lt {n : Nat} (h : n < 2 ^ 32) : u32 n = n :=
  Nat.mod_eq_of_lt h

theorem u16_eq_of_lt {n : Nat} (h : n < 2 ^ 16) : u16 n = n :=
  Nat.mod_eq_of_lt h

theorem u64_lt (n : Nat) : u64 n < 2 ^ 64 :=
  Nat.mod_lt _ (by norm_num)

/-- How a kernel call can end without returning to its caller. -/
inductive Halt where
  /-- `kassert` failed: the kernel prints a trace and loops. -/
  | kassert
  /-- `kpanic` with its message. -/
  | kpanic (error : String)
  /-- An access through a null or invalid pointer. -/
  | fault
  /-- The call loops for ever (a lock that is never released, a cyclic list). -/
  | hang
deriving DecidableEq, Repr

/-- A sequence of two calls succeeds when both do. -/
theorem Halt.bind_eq_ok {α β : Type} {x : Except Halt α} {f : α → Except Halt β} {b : β} :
    x >>= f = .ok b ↔ ∃ a, x = .ok a ∧ f a = .ok b := by
  cases x with
  | error e => simp [bind, Except.bind]
  | ok a => simp [bind, Except.bind]

theorem Halt.map_eq_ok {α β : Type} {x : Except Halt α} {f : α → β} {b : β} :
    x.map f = .ok b ↔ ∃ a, x = .ok a ∧ f a = b := by
  cases x with
  | error e => simp [Except.map]
  | ok a => simp [Except.map]

@[simp]
theorem Halt.ok_bind {α β : Type} (a : α) (f : α → Except Halt β) :
    (Except.ok a >>= f) = f a :=
  rfl

@[simp]
theorem Halt.pure_eq_ok {α : Type} (a : α) : (pure a : Except Halt α) = .ok a :=
  rfl

/-- A call that ends without a fault and with a result that passes the check. -/
theorem Halt.exists_ok {α : Type} (x : Except Halt α) (check : α → Bool)
    (h : (match x with | .ok a => check a | .error _ => false) = true) :
    ∃ a, x = .ok a ∧ check a = true := by
  cases x with
  | error e => cases h
  | ok a => exact ⟨a, rfl, h⟩

/-- A guarded call succeeds when the guard does not fire and the call does. -/
theorem guard_eq_ok {ε α : Type} {p : Prop} [Decidable p] {e : ε} {x : Except ε α} {a : α} :
    (if p then .error e else x) = .ok a ↔ ¬ p ∧ x = .ok a := by
  by_cases hp : p <;> simp [hp]

/-- The positive error numbers of `errno.h`; the kernel returns them negated. -/
inductive Errno where
  | enospc | enoent | einval | eexist | enomem | ebusy | e2big | espipe | enosys
  | enotdir | enotsup | enxio | eagain | efault | einprogress
deriving DecidableEq, Repr

/-- The number `errno.h` gives an error. -/
def Errno.toInt : Errno → Int
  | enospc => 1
  | enoent => 2
  | einval => 3
  | eexist => 4
  | enomem => 5
  | ebusy => 6
  | e2big => 7
  | espipe => 8
  | enosys => 9
  | enotdir => 10
  | enotsup => 11
  | enxio => 12
  | eagain => 13
  | efault => 14
  | einprogress => 115

theorem Errno.toInt_pos (e : Errno) : 0 < e.toInt := by
  cases e <;> decide

end Micael
