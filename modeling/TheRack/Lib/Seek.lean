/-
  Lib/Seek.lean --- computations that may find nothing, and may fail.

  A `Seek` returns a value or nothing, unless it fails.  `Finds x Q` says that `x`
  does not fail, and that `Q` holds of what it finds; whether it finds anything is
  left open.  `Gives x a` says that it finds `a`.  Both are proved along the
  structure of the computation.
-/
import Mathlib.Init
import Mathlib.Tactic.Basic

set_option autoImplicit false

namespace Lib

variable {ε α β : Type}

/-- A computation that finds a value or nothing, or fails. -/
abbrev Seek (ε α : Type) : Type := OptionT (Except ε) α

namespace Seek

/-- What cannot come back empty-handed. -/
def lift (x : Except ε α) : Seek ε α := OptionT.mk (x.map some)

/-- What cannot fail. -/
def ofOption (o : Option α) : Seek ε α := OptionT.mk (.ok o)

end Seek

/-- `y` does not fail, and `Q` holds of its result. -/
def Succeeds (y : Except ε α) (Q : α → Prop) : Prop := ∃ a, y = .ok a ∧ Q a

/-- `x` does not fail, and `Q` holds of what it finds. -/
def Finds (x : Seek ε α) (Q : α → Prop) : Prop := ∃ o, x.run = .ok o ∧ ∀ a, o = some a → Q a

/-- `x` finds `a`. -/
def Gives (x : Seek ε α) (a : α) : Prop := x.run = .ok (some a)

/-- `x` finds nothing. -/
def Misses (x : Seek ε α) : Prop := x.run = .ok none

variable {x : Seek ε α} {f : α → Seek ε β} {a : α} {b : β} {o : Option α} {y : Except ε α}
variable {P Q : α → Prop} {R : β → Prop}

/-- What a sequence of two computations did, when it did not fail. -/
theorem of_bind_ok {g : α → Except ε β} (h : y >>= g = .ok b) : ∃ a, y = .ok a ∧ g a = .ok b := by
  cases y with
  | error e => exact nomatch h
  | ok a => exact ⟨a, rfl, h⟩

/-- A sequence whose first part finds nothing. -/
theorem run_bind_none (h : x.run = .ok none) : (x >>= f).run = .ok none := by
  rw [OptionT.run_bind, h]
  rfl

/-- A sequence whose first part finds `a`. -/
theorem run_bind_some (h : x.run = .ok (some a)) : (x >>= f).run = (f a).run := by
  rw [OptionT.run_bind, h]
  rfl

namespace Succeeds

theorem ok (h : Q a) : Succeeds (.ok a : Except ε α) Q := ⟨a, rfl, h⟩

/-- Sequencing. -/
theorem bind {g : α → Except ε β} (h : Succeeds y P) (hg : ∀ a, P a → Succeeds (g a) R) :
    Succeeds (y >>= g) R := by
  obtain ⟨a, rfl, ha⟩ := h
  exact hg a ha

/-- After something whose result is known. -/
theorem step {g : α → Except ε β} (h : y = .ok a) (hg : Succeeds (g a) R) :
    Succeeds (y >>= g) R := by
  subst h
  exact hg

theorem mono (h : Succeeds y P) (hQ : ∀ a, P a → Q a) : Succeeds y Q := by
  obtain ⟨a, ha, hP⟩ := h
  exact ⟨a, ha, hQ a hP⟩

end Succeeds

namespace Finds

/-- To find something or nothing is to end well. -/
theorem run (h : Finds x Q) : Succeeds x.run fun o => ∀ a, o = some a → Q a := h

theorem pure (h : Q a) : Finds (Pure.pure a : Seek ε α) Q :=
  ⟨some a, rfl, fun _ heq => Option.some.inj heq ▸ h⟩

theorem failure : Finds (Alternative.failure : Seek ε α) Q := ⟨none, rfl, nofun⟩

/-- Sequencing. -/
theorem bind (h : Finds x P) (hf : ∀ a, P a → Finds (f a) R) : Finds (x >>= f) R := by
  obtain ⟨o, ho, hP⟩ := h
  unfold Finds at *
  cases o with
  | none => exact ⟨none, run_bind_none ho, nofun⟩
  | some a =>
    rw [run_bind_some ho]
    exact hf a (hP a rfl)

/-- After something that cannot fail. -/
theorem option (hf : ∀ a, o = some a → Finds (f a) R) : Finds (Seek.ofOption o >>= f) R :=
  bind (P := fun a => o = some a) ⟨o, rfl, fun _ h => h⟩ hf

/-- After something that cannot come back empty-handed. -/
theorem lift (h : y = .ok a) (hf : Finds (f a) R) : Finds (Seek.lift y >>= f) R :=
  bind (P := (· = a)) (by subst h; exact ⟨some a, rfl, fun _ heq => (Option.some.inj heq).symm⟩)
    fun _ heq => heq ▸ hf

theorem lifted (h : Succeeds y P) (hf : ∀ a, P a → Finds (f a) R) :
    Finds (Seek.lift y >>= f) R := by
  obtain ⟨a, ha, hP⟩ := h
  exact lift ha (hf a hP)

/-- A result that is there. -/
theorem ofSucceeds (h : Succeeds y Q) : Finds (Seek.lift y : Seek ε α) Q := by
  obtain ⟨a, rfl, ha⟩ := h
  exact ⟨some a, rfl, fun _ heq => Option.some.inj heq ▸ ha⟩

/-- A condition under which the search ends. -/
theorem checked {p : Prop} [Decidable p] {g : PUnit → Seek ε β} (h : ¬ p → Finds (g ⟨⟩) R) :
    Finds (if p then Alternative.failure >>= g else g ⟨⟩) R := by
  split
  · exact bind (P := fun _ => False) failure fun _ h => h.elim
  · exact h ‹_›

theorem mono (h : Finds x P) (hQ : ∀ a, P a → Q a) : Finds x Q := by
  obtain ⟨o, ho, hP⟩ := h
  exact ⟨o, ho, fun a ha => hQ a (hP a ha)⟩

/-- It finds something, or nothing. -/
theorem cases (h : Finds x Q) : (∃ a, Gives x a ∧ Q a) ∨ Misses x := by
  obtain ⟨o, ho, hQ⟩ := h
  cases o with
  | none => exact .inr ho
  | some a => exact .inl ⟨a, ho, hQ a rfl⟩

/-- What holds of what was found. -/
theorem of_gives (h : Finds x Q) (hx : Gives x a) : Q a := by
  obtain ⟨o, ho, hQ⟩ := h
  exact hQ a (Except.ok.inj (ho.symm.trans hx))

end Finds

namespace Gives

theorem pure : Gives (Pure.pure a : Seek ε α) a := rfl

/-- Sequencing. -/
theorem bind (h : Gives x a) (hf : Gives (f a) b) : Gives (x >>= f) b :=
  (run_bind_some h).trans hf

theorem option (h : o = some a) (hf : Gives (f a) b) : Gives (Seek.ofOption o >>= f) b :=
  bind (by rw [h]; rfl) hf

theorem lift (h : y = .ok a) (hf : Gives (f a) b) : Gives (Seek.lift y >>= f) b :=
  bind (by rw [h]; rfl) hf

theorem checked {p : Prop} [Decidable p] {g : PUnit → Seek ε β} (hp : ¬ p) (hg : Gives (g ⟨⟩) b) :
    Gives (if p then Alternative.failure >>= g else g ⟨⟩) b := by
  rwa [if_neg hp]

theorem unique {a' : α} (h : Gives x a) (h' : Gives x a') : a = a' :=
  Option.some.inj (Except.ok.inj (h.symm.trans h'))

theorem of_pure {a' : α} (h : Gives (Pure.pure a : Seek ε α) a') : a = a' := pure.unique h

theorem of_failure (h : Gives (Alternative.failure : Seek ε α) a) : False := nomatch Except.ok.inj h

/-- What a sequence of two computations found. -/
theorem of_bind (h : Gives (x >>= f) b) : ∃ a, Gives x a ∧ Gives (f a) b := by
  obtain ⟨o, ho, -⟩ := of_bind_ok h
  cases o with
  | none =>
    have hnone : (x >>= f).run = .ok none := run_bind_none ho
    have hsome : (x >>= f).run = .ok (some b) := h
    exact nomatch Except.ok.inj (hnone.symm.trans hsome)
  | some a => exact ⟨a, ho, (run_bind_some ho).symm.trans h⟩

theorem of_option (h : Gives (Seek.ofOption o >>= f) b) : ∃ a, o = some a ∧ Gives (f a) b := by
  obtain ⟨a, ha, h⟩ := of_bind h
  exact ⟨a, Except.ok.inj ha, h⟩

theorem of_lift (h : Gives (Seek.lift y >>= f) b) : ∃ a, y = .ok a ∧ Gives (f a) b := by
  obtain ⟨a, ha, hf⟩ := of_bind h
  cases y with
  | error e => exact nomatch ha
  | ok a' => exact ⟨a, congrArg Except.ok (Option.some.inj (Except.ok.inj ha)), hf⟩

theorem of_checked {p : Prop} [Decidable p] {g : PUnit → Seek ε β}
    (h : Gives (if p then Alternative.failure >>= g else g ⟨⟩) b) : ¬ p ∧ Gives (g ⟨⟩) b := by
  split at h
  · obtain ⟨_, hfail, -⟩ := of_bind h
    exact (of_failure hfail).elim
  · exact ⟨‹_›, h⟩

end Gives

namespace Misses

theorem failure : Misses (Alternative.failure : Seek ε α) := rfl

theorem bind (h : Misses x) : Misses (x >>= f) := run_bind_none h

/-- After something was found. -/
theorem after (h : Gives x a) (hf : Misses (f a)) : Misses (x >>= f) :=
  (run_bind_some h).trans hf

theorem lift (h : y = .ok a) (hf : Misses (f a)) : Misses (Seek.lift y >>= f) :=
  after (by rw [h]; rfl) hf

theorem option (hf : ∀ a, o = some a → Misses (f a)) : Misses (Seek.ofOption o >>= f) := by
  cases o with
  | none => exact bind rfl
  | some a => exact after rfl (hf a rfl)

theorem checked {p : Prop} [Decidable p] {g : PUnit → Seek ε β} (h : ¬ p → Misses (g ⟨⟩)) :
    Misses (if p then Alternative.failure >>= g else g ⟨⟩) := by
  split
  · exact bind failure
  · exact h ‹_›

end Misses

end Lib
