/-
  Crash.lean --- the ways kernel code stops.

  The kernel is built and booted in the debug profile, so integer overflow and
  an index past the end of an array panic like a failed `assert!` or `expect`.
  Every function of the model that can do any of these returns in `Except
  Crash`.  The last four constructors are not panics of the source: they mark an
  access at EL1 that the translation tables refuse, two calls that break the
  contract of a core routine, and a loop that does not end.
-/
import Mathlib.Algebra.Group.Nat.Defs
import Mathlib.Tactic.Basic

set_option autoImplicit false

namespace TheRack

/-- Why the kernel could not carry on. -/
inductive Crash
  /-- overflow of plain arithmetic under overflow checks -/
  | overflow
  /-- an array or slice index out of range -/
  | indexOutOfRange
  /-- `free`: "freeing a frame outside RAM" -/
  | freeOutsideRam
  /-- `free`: "freeing a misaligned frame" -/
  | freeMisaligned
  /-- `free`: "double free of frame" -/
  | doubleFree
  /-- `alloc_contiguous`: `assert!(count > 0)` -/
  | zeroCount
  /-- an `expect` on an allocation that found no frame -/
  | outOfFrames
  /-- `next_table`: "wanted a table but found a block descriptor" -/
  | blockInTheWay
  /-- `free_table`: "a level 0 descriptor cannot be a leaf" -/
  | leafAtRoot
  /-- `AddressSpace::map`: "an address space only covers the low half" -/
  | notLowHalf
  /-- `build_user_space`: "user program does not fit in a page" -/
  | programTooLarge
  /-- `spawn_in`: "task table is full" -/
  | taskTableFull
  /-- `switch_to_next`: "every task is blocked; nothing can run" -/
  | nothingRunnable
  /-- `switch_to_next`: "address spaces not initialised" -/
  | noEmptySpace
  /-- `recv`: "best_sender returned a task that is not sending" -/
  | notSending
  /-- `fault_current`: "a fault arrived with no current task" -/
  | noCurrentTask
  /-- `route`: "interrupt routing table is full" -/
  | routesFull
  /-- `map_device`: "straddles the bootstrap device window" -/
  | straddlesWindow
  /-- `adopt_memory_map`: "the device tree was not reserved", at either end -/
  | treeNotReserved
  /-- an EL1 access that does not translate, for EL0 where `TTBR0_EL1` does it -/
  | dataAbort (va : Nat)
  /-- `slice::from_raw_parts` handed a null pointer -/
  | nullSlice
  /-- `copy_nonoverlapping` handed two ranges that overlap -/
  | overlappingCopy
  /-- a loop that takes more turns than the model gives it -/
  | hang
  deriving DecidableEq, Repr

/-- Kernel code over the state `σ`: it returns a value and a new state, or it
stops in a crash. -/
abbrev Code (σ α : Type) : Type := StateT σ (Except Crash) α

namespace Code

variable {σ α β : Type}

/-- Stop in a crash. -/
def crash (c : Crash) : Code σ α := fun _ => .error c

/-- `Option::expect`: the value, or a crash. -/
def expect (c : Crash) : Option α → Code σ α
  | some a => fun s => .ok (a, s)
  | none => fun _ => .error c

/-- `assert!`. -/
def assert (c : Crash) (p : Prop) [Decidable p] : Code σ Unit := fun s =>
  if p then .ok ((), s) else .error c

/-- A computation that can crash and has no state of its own. -/
def lift (x : Except Crash α) : Code σ α := fun s => x.map fun a => (a, s)

theorem bind_ok {x : Code σ α} {f : α → Code σ β} {s s' : σ} {a : α}
    (h : x s = .ok (a, s')) : (x >>= f) s = f a s' := by
  show StateT.bind x f s = _
  simp only [StateT.bind, h]
  rfl

theorem bind_error {x : Code σ α} {f : α → Code σ β} {s : σ} {c : Crash}
    (h : x s = .error c) : (x >>= f) s = .error c := by
  show StateT.bind x f s = _
  simp only [StateT.bind, h]
  rfl

/-- What a sequence of two computations did, when it did not crash. -/
theorem of_bind_ok {x : Code σ α} {f : α → Code σ β} {s s'' : σ} {b : β}
    (h : (x >>= f) s = .ok (b, s'')) :
    ∃ a s', x s = .ok (a, s') ∧ f a s' = .ok (b, s'') := by
  cases hx : x s with
  | error c => rw [bind_error hx] at h; exact absurd h (by simp)
  | ok r => exact ⟨r.1, r.2, rfl, by rwa [bind_ok hx] at h⟩

@[simp] theorem pure_apply (a : α) (s : σ) : (pure a : Code σ α) s = .ok (a, s) := rfl

@[simp] theorem get_apply (s : σ) : (get : Code σ σ) s = .ok (s, s) := rfl

@[simp] theorem set_apply (s s' : σ) : (set s' : Code σ PUnit) s = .ok ((), s') := rfl

@[simp] theorem modify_apply (f : σ → σ) (s : σ) :
    (modify f : Code σ PUnit) s = .ok ((), f s) := rfl

theorem lift_ok {x : Except Crash α} {a : α} (h : x = .ok a) (s : σ) :
    (lift x : Code σ α) s = .ok (a, s) := by subst h; rfl

theorem lift_error {x : Except Crash α} {c : Crash} (h : x = .error c) (s : σ) :
    (lift x : Code σ α) s = .error c := by subst h; rfl

theorem lift_pure (a : α) : (lift (.ok a) : Code σ α) = pure a := rfl

/-- A computation without a state of its own, then another. -/
theorem of_lift_bind_ok {x : Except Crash α} {f : α → Code σ β} {s s' : σ} {b : β}
    (h : (lift x >>= f) s = .ok (b, s')) : ∃ a, x = .ok a ∧ f a s = .ok (b, s') := by
  cases x with
  | error c => rw [bind_error (lift_error rfl s)] at h; exact absurd h (by simp)
  | ok a => exact ⟨a, rfl, by rwa [bind_ok (lift_ok rfl s)] at h⟩

/-- Two sequences whose parts do the same from where they start. -/
theorem bind_congr {x y : Code σ α} {f g : α → Code σ β} {s : σ} (hx : x s = y s)
    (hfg : ∀ a s', y s = .ok (a, s') → f a s' = g a s') : (x >>= f) s = (y >>= g) s := by
  cases hy : y s with
  | error c => rw [bind_error (hx.trans hy), bind_error hy]
  | ok r => rw [bind_ok (hx.trans hy), bind_ok hy, hfg r.1 r.2 hy]

theorem assert_ok {c : Crash} {p : Prop} [Decidable p] (h : p) (s : σ) :
    (assert c p : Code σ Unit) s = .ok ((), s) := if_pos h

theorem assert_error {c : Crash} {p : Prop} [Decidable p] (h : ¬ p) (s : σ) :
    (assert c p : Code σ Unit) s = .error c := if_neg h

/-- An assertion that held, then a computation. -/
theorem of_assert_bind_ok {c : Crash} {p : Prop} [Decidable p] {f : Unit → Code σ β} {s s' : σ}
    {b : β} (h : (assert c p >>= f) s = .ok (b, s')) : p ∧ f () s = .ok (b, s') := by
  by_cases hp : p
  · exact ⟨hp, by rwa [bind_ok (assert_ok hp s)] at h⟩
  · rw [bind_error (assert_error hp s)] at h
    exact absurd h (by simp)

end Code

/-! ## Checked arithmetic

`u64` and `usize` are both 64 bits wide on this machine.  Plain `+`, `-` and `*`
of the source are these wherever their operands are not bounded already. -/

/-- One past `u64::MAX`. -/
def u64Size : Nat := 2 ^ 64

/-- Plain `+`. -/
def add64 (a b : Nat) : Except Crash Nat :=
  if a + b < u64Size then .ok (a + b) else .error .overflow

/-- Plain `-`. -/
def sub64 (a b : Nat) : Except Crash Nat :=
  if b ≤ a then .ok (a - b) else .error .overflow

/-- Plain `*`. -/
def mul64 (a b : Nat) : Except Crash Nat :=
  if a * b < u64Size then .ok (a * b) else .error .overflow

/-- `checked_add`. -/
def checkedAdd (a b : Nat) : Option Nat :=
  if a + b < u64Size then some (a + b) else none

theorem u64Size_eq : u64Size = 18446744073709551616 := by decide

theorem add64_ok {a b : Nat} (h : a + b < u64Size) : add64 a b = .ok (a + b) := if_pos h

theorem sub64_ok {a b : Nat} (h : b ≤ a) : sub64 a b = .ok (a - b) := if_pos h

theorem mul64_ok {a b : Nat} (h : a * b < u64Size) : mul64 a b = .ok (a * b) := if_pos h

theorem sub64_eq_ok {a b c : Nat} (h : sub64 a b = .ok c) : b ≤ a ∧ c = a - b := by
  unfold sub64 at h
  split at h
  · exact ⟨‹_›, (Except.ok.inj h).symm⟩
  · exact absurd h (by simp)

theorem mul64_eq_ok {a b c : Nat} (h : mul64 a b = .ok c) : c = a * b := by
  unfold mul64 at h
  split at h
  · exact (Except.ok.inj h).symm
  · exact absurd h (by simp)

theorem checkedAdd_eq_some {a b c : Nat} :
    checkedAdd a b = some c ↔ a + b < u64Size ∧ c = a + b := by
  unfold checkedAdd
  split
  · simp_all [eq_comm]
  · simp; omega

end TheRack
