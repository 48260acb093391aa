/-
  Lib/A64/Cores.lean --- several cores on one memory.

  Each core has registers of its own, and the cores make their steps one at a time, in
  any order.  A core that never writes to memory is not noticed by the others: where all
  but one are such, that one runs as if it were alone.
-/
import TheRack.Lib.A64.Rules

set_option autoImplicit false

namespace Lib.A64

variable {ι : Type} [DecidableEq ι]

/-- The registers of each core, and the memory of all. -/
structure Cores (ι : Type) where
  cpu : ι → Machine
  mem : Mem

namespace Cores

/-- One core, with the memory. -/
def core (s : Cores ι) (i : ι) : Machine := (s.cpu i).withMem s.mem

/-- The core has got to `m`. -/
def put (s : Cores ι) (i : ι) (m : Machine) : Cores ι := ⟨Function.update s.cpu i m, m.mem⟩

/-- The cores make a step each time it is their turn. -/
def run (c : Text) : List ι → Cores ι → Option (Cores ι)
  | [], s => some s
  | i :: l, s => (step c (s.core i)).bind fun m => run c l (s.put i m)

variable {c : Text} {s s' : Cores ι} {i j p : ι} {l : List ι} {m : Machine}

@[simp] theorem core_put (s : Cores ι) (i : ι) (m : Machine) : (s.put i m).core i = m := by
  unfold core put
  dsimp only
  rw [Function.update_self]
  rfl

theorem core_put_of_ne (h : j ≠ i) : (s.put i m).core j = (s.core j).withMem m.mem := by
  unfold core put
  dsimp only
  rw [Function.update_of_ne h]
  rfl

/-- A core that has left memory alone has not been noticed. -/
theorem core_put_of_mem (h : j ≠ i) (hm : m.mem = s.mem) : (s.put i m).core j = s.core j := by
  rw [core_put_of_ne h, hm]
  rfl

/-- Of a core in such a state it can be told that it stays in one, and leaves memory alone,
whatever the others make of memory. -/
structure Idles (c : Text) (Q : Machine → Prop) : Prop where
  step : ∀ m m', Q m → step c m = some m' → Q m' ∧ m'.mem = m.mem
  withMem : ∀ m mem, Q m → Q (m.withMem mem)

namespace Idles

variable {Q : Machine → Prop}

/-- A step of the one core leaves the others idle. -/
theorem put_self (hQ : Idles c Q) (h : ∀ i, i ≠ p → Q (s.core i)) (m : Machine) (i : ι) (hi : i ≠ p) :
    Q ((s.put p m).core i) := by
  rw [core_put_of_ne hi]
  exact hQ.withMem _ _ (h i hi)

/-- A step of one of the others does too, and the one core does not notice. -/
theorem put_other (hQ : Idles c Q) (h : ∀ i, i ≠ p → Q (s.core i)) (hi : i ≠ p)
    (hstep : A64.step c (s.core i) = some m) :
    (∀ j, j ≠ p → Q ((s.put i m).core j)) ∧ (s.put i m).core p = s.core p := by
  obtain ⟨hm, hmem⟩ := hQ.step _ _ (h i hi) hstep
  refine ⟨fun j hj => ?_, core_put_of_mem (Ne.symm hi) hmem⟩
  by_cases hji : j = i
  · rw [hji, core_put]
    exact hm
  · rw [core_put_of_mem hji hmem]
    exact h j hj

/-- Where the others idle, one core runs as if it were alone. -/
theorem alone (hQ : Idles c Q) (h : ∀ i, i ≠ p → Q (s.core i)) (hrun : run c l s = some s') :
    steps c (l.count p) (s.core p) = some (s'.core p) ∧ ∀ i, i ≠ p → Q (s'.core i) := by
  induction l generalizing s with
  | nil =>
    obtain rfl := Option.some.inj hrun
    exact ⟨rfl, h⟩
  | cons i l ih =>
    obtain ⟨m, hstep, hrest⟩ := Option.bind_eq_some_iff.mp hrun
    by_cases hi : i = p
    · subst hi
      obtain ⟨hsteps, hidle⟩ := ih (hQ.put_self h m) hrest
      rw [core_put] at hsteps
      rw [List.count_cons_self, steps_succ hstep]
      exact ⟨hsteps, hidle⟩
    · obtain ⟨hothers, hsame⟩ := hQ.put_other h hi hstep
      obtain ⟨hsteps, hidle⟩ := ih hothers hrest
      rw [hsame] at hsteps
      rw [List.count_cons_of_ne hi]
      exact ⟨hsteps, hidle⟩

/-- And where they can always go on, they do not keep it from running. -/
theorem runs (hQ : Idles c Q) (hgo : ∀ m, Q m → A64.step c m ≠ none) (h : ∀ i, i ≠ p → Q (s.core i))
    (hsteps : steps c (l.count p) (s.core p) = some m) : ∃ s', run c l s = some s' ∧ s'.core p = m := by
  induction l generalizing s with
  | nil => exact ⟨s, rfl, Option.some.inj hsteps⟩
  | cons i l ih =>
    by_cases hi : i = p
    · subst hi
      rw [List.count_cons_self] at hsteps
      obtain ⟨m₁, hstep, hrest⟩ := Option.bind_eq_some_iff.mp hsteps
      obtain ⟨s', hrun, hcore⟩ := ih (hQ.put_self h m₁) (by rw [core_put]; exact hrest)
      refine ⟨s', ?_, hcore⟩
      rw [run, hstep]
      exact hrun
    · obtain ⟨m₁, hstep⟩ := Option.ne_none_iff_exists'.mp (hgo _ (h i hi))
      obtain ⟨hothers, hsame⟩ := hQ.put_other h hi hstep
      rw [List.count_cons_of_ne hi, ← hsame] at hsteps
      obtain ⟨s', hrun, hcore⟩ := ih hothers hsteps
      refine ⟨s', ?_, hcore⟩
      rw [run, hstep]
      exact hrun

end Idles

end Cores

end Lib.A64
