/-
  Lib/Refines.lean --- paths of a labelled transition system, and simulation.

  A path is what happens from one state on, under a list of actions.  If every step
  of one system from a state related to a state of another is matched by a step of
  the other under the same action, then so is every path.
-/
import Mathlib.Data.List.Basic

set_option autoImplicit false

namespace Lib

variable {σ τ α : Type}

/-- The actions lead from the one state to the other. -/
inductive Path (step : σ → α → σ → Prop) : σ → List α → σ → Prop
  | nil (s : σ) : Path step s [] s
  | cons {s s' s'' : σ} {a : α} {l : List α} (h : step s a s') (hrest : Path step s' l s'') :
      Path step s (a :: l) s''

namespace Path

variable {step : σ → α → σ → Prop} {step' : τ → α → τ → Prop} {s s' s'' : σ} {l l' : List α}

theorem append (h : Path step s l s') (h' : Path step s' l' s'') : Path step s (l ++ l') s'' := by
  induction h with
  | nil => exact h'
  | cons hstep _ ih => exact .cons hstep (ih h')

/-- A path comes past every point of its list of actions. -/
theorem split (h : Path step s (l ++ l') s'') : ∃ s', Path step s l s' ∧ Path step s' l' s'' := by
  induction l generalizing s with
  | nil => exact ⟨s, .nil s, h⟩
  | cons a l ih =>
    cases h with
    | cons hstep hrest =>
      obtain ⟨s', hl, hl'⟩ := ih hrest
      exact ⟨s', .cons hstep hl, hl'⟩

/-- What every step under the actions of the path keeps is kept. -/
theorem keeps {P : σ → Prop} (h : Path step s l s')
    (hstep : ∀ s a s', a ∈ l → P s → step s a s' → P s') (hs : P s) : P s' := by
  induction h with
  | nil => exact hs
  | cons hst _ ih =>
    exact ih (fun s a s' ha => hstep s a s' (List.mem_cons_of_mem _ ha))
      (hstep _ _ _ List.mem_cons_self hs hst)

/-- A system whose every step is matched is matched on every path. -/
theorem simulates {R : σ → τ → Prop}
    (hstep : ∀ s a s' t, R s t → step s a s' → ∃ t', step' t a t' ∧ R s' t')
    (h : Path step s l s') {t : τ} (hR : R s t) : ∃ t', Path step' t l t' ∧ R s' t' := by
  induction h generalizing t with
  | nil => exact ⟨t, .nil t, hR⟩
  | cons hst _ ih =>
    obtain ⟨t1, ht1, hR1⟩ := hstep _ _ _ _ hR hst
    obtain ⟨t2, ht2, hR2⟩ := ih hR1
    exact ⟨t2, .cons ht1 ht2, hR2⟩

end Path

end Lib
