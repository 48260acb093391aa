/-
  Lib/Iterator.lean --- what an iterator yields.

  `next` is a function on states that may fail.  `Yields next s l` says that calling
  it again and again from `s` returns the values of `l` and then `none`.  Often
  `next` is itself a loop, each turn of which ends the iteration, has a value to
  return, or goes round again; `Turns` follows the turns.  When a measure bounds the
  turns, the two describe the same lists, and one exists.
-/
import Mathlib.Init
import Mathlib.Tactic.Basic

set_option autoImplicit false

namespace Lib

variable {ε σ τ : Type}

/-- The values that `next` returns from a state on, up to its first `none`. -/
inductive Yields (next : σ → Except ε (Option τ × σ)) : σ → List τ → Prop
  | nil {s s' : σ} (h : next s = .ok (none, s')) : Yields next s []
  | cons {s s' : σ} {t : τ} {l : List τ} (h : next s = .ok (some t, s'))
      (hrest : Yields next s' l) : Yields next s (t :: l)

/-- The values that turns of a loop return from a state on, up to a turn that ends it. -/
inductive Turns (turn : σ → Except ε (Option (Option τ × σ))) : σ → List τ → Prop
  | stop {s : σ} (h : turn s = .ok none) : Turns turn s []
  | skip {s s' : σ} {l : List τ} (h : turn s = .ok (some (none, s')))
      (hrest : Turns turn s' l) : Turns turn s l
  | give {s s' : σ} {t : τ} {l : List τ} (h : turn s = .ok (some (some t, s')))
      (hrest : Turns turn s' l) : Turns turn s (t :: l)

/-- The loop of such a `next`, at most `n` turns. -/
def turnUpTo (turn : σ → Except ε (Option (Option τ × σ))) (hang : ε) :
    Nat → σ → Except ε (Option τ × σ)
  | 0, _ => .error hang
  | n + 1, s => do
      match ← turn s with
      | none => return (none, s)
      | some (some t, s') => return (some t, s')
      | some (none, s') => turnUpTo turn hang n s'

namespace Yields

variable {next : σ → Except ε (Option τ × σ)} {s : σ} {l l' : List τ}

theorem unique (h : Yields next s l) (h' : Yields next s l') : l = l' := by
  induction h generalizing l' with
  | nil h =>
    cases h' with
    | nil _ => rfl
    | cons h₁ _ => exact nomatch h.symm.trans h₁
  | cons h _ ih =>
    cases h' with
    | nil h₁ => exact nomatch h.symm.trans h₁
    | cons h₁ hrest₁ =>
      cases h.symm.trans h₁
      rw [ih hrest₁]

/-- A value that starts a run of the same state starts the same list. -/
theorem congr {s' : σ} (h : Yields next s l) (heq : next s' = next s) : Yields next s' l := by
  cases h with
  | nil h => exact .nil (heq.trans h)
  | cons h hrest => exact .cons (heq.trans h) hrest

end Yields

namespace Turns

variable {turn : σ → Except ε (Option (Option τ × σ))} {s : σ} {l l' : List τ}

theorem of_skip {s' : σ} (hturn : turn s = .ok (some (none, s'))) (h : Turns turn s l) :
    Turns turn s' l := by
  cases h with
  | stop h₁ => exact nomatch hturn.symm.trans h₁
  | skip h₁ hrest =>
    cases hturn.symm.trans h₁
    exact hrest
  | give h₁ _ => exact nomatch hturn.symm.trans h₁

theorem of_give {s' : σ} {t : τ} (hturn : turn s = .ok (some (some t, s')))
    (h : Turns turn s l) : ∃ rest, l = t :: rest ∧ Turns turn s' rest := by
  cases h with
  | stop h₁ => exact nomatch hturn.symm.trans h₁
  | skip h₁ _ => exact nomatch hturn.symm.trans h₁
  | give h₁ hrest =>
    cases hturn.symm.trans h₁
    exact ⟨_, rfl, hrest⟩

/-- Where a value was given, and what comes after it.  `P` is what the turns keep. -/
theorem of_append {P : σ → Prop} {l₁ l₂ : List τ} {t : τ}
    (hkeep : ∀ s r, P s → turn s = .ok (some r) → P r.2) (hs : P s)
    (h : Turns turn s (l₁ ++ t :: l₂)) :
    ∃ s₁ s₂, P s₁ ∧ turn s₁ = .ok (some (some t, s₂)) ∧ Turns turn s₂ l₂ := by
  generalize hl : l₁ ++ t :: l₂ = l at h
  induction h generalizing l₁ with
  | stop h => exact absurd hl (by simp)
  | skip h _ ih => exact ih (hkeep _ _ hs h) hl
  | @give s s' t' l h hrest ih =>
    cases l₁ with
    | nil =>
      obtain ⟨rfl, rfl⟩ := List.cons.inj hl
      exact ⟨s, s', hs, h, hrest⟩
    | cons t₁ l₁ => exact ih (hkeep _ _ hs h) (List.cons.inj hl).2

end Turns

section Bounded

/-! A `next` that takes turns until one has a value: `Inv` is what holds between turns, and
`measure` goes down with every turn that does not end the iteration. -/

variable {turn : σ → Except ε (Option (Option τ × σ))} {hang : ε} (Inv : σ → Prop)
  (measure : σ → Nat) {s : σ} {l : List τ}

/-- With enough turns, one more makes no difference. -/
theorem turnUpTo_fuel
    (hturn : ∀ s r, Inv s → turn s = .ok (some r) → Inv r.2 ∧ measure r.2 < measure s) (n k : Nat)
    (hs : Inv s) (hn : measure s < n) (hk : measure s < k) :
    turnUpTo turn hang n s = turnUpTo turn hang k s := by
  induction n generalizing s k with
  | zero => exact absurd hn (Nat.not_lt_zero _)
  | succ n ih =>
    match k with
    | 0 => exact absurd hk (Nat.not_lt_zero _)
    | k + 1 =>
      unfold turnUpTo
      match hr : turn s with
      | .error e => rfl
      | .ok none => rfl
      | .ok (some (some t, s')) => rfl
      | .ok (some (none, s')) =>
        obtain ⟨hinv, hlt⟩ := hturn s _ hs hr
        have hlt : measure s' < measure s := hlt
        exact ih k hinv (by omega) (by omega)

/-- What the turns return is what `next` yields. -/
theorem Turns.yields {next : σ → Except ε (Option τ × σ)}
    (hturn : ∀ s r, Inv s → turn s = .ok (some r) → Inv r.2 ∧ measure r.2 < measure s)
    (hnext : ∀ s, Inv s → next s = turnUpTo turn hang (measure s + 1) s) (hs : Inv s)
    (h : Turns turn s l) : Yields next s l := by
  induction h with
  | @stop s h =>
    have hend : next s = .ok (none, s) := by
      rw [hnext _ hs, turnUpTo, h]
      rfl
    exact .nil hend
  | @give s s' t l h _ ih =>
    have hfound : next s = .ok (some t, s') := by
      rw [hnext _ hs, turnUpTo, h]
      rfl
    exact .cons hfound (ih (hturn _ _ hs h).1)
  | @skip s s' l h _ ih =>
    obtain ⟨hinv, hlt⟩ := hturn _ _ hs h
    refine (ih hinv).congr ?_
    rw [hnext _ hs, hnext _ hinv, turnUpTo, h]
    exact turnUpTo_fuel Inv measure hturn _ _ hinv hlt (Nat.lt_succ_self _)

/-- The turns come to an end when none of them fails. -/
theorem Turns.exists
    (hturn : ∀ s, Inv s → ∃ r, turn s = .ok r ∧
      ∀ r', r = some r' → Inv r'.2 ∧ measure r'.2 < measure s) (hs : Inv s) :
    ∃ l, Turns turn s l ∧ l.length ≤ measure s := by
  induction hk : measure s using Nat.strongRecOn generalizing s with
  | ind k ih =>
    obtain ⟨r, hr, hnext⟩ := hturn s hs
    match r with
    | none => exact ⟨[], .stop hr, Nat.zero_le _⟩
    | some (some t, s') =>
      obtain ⟨hinv, hlt⟩ := hnext _ rfl
      have hlt : measure s' < measure s := hlt
      obtain ⟨l, hl, hlen⟩ := ih (measure s') (by omega) hinv rfl
      refine ⟨t :: l, .give hr hl, ?_⟩
      rw [List.length_cons]
      omega
    | some (none, s') =>
      obtain ⟨hinv, hlt⟩ := hnext _ rfl
      have hlt : measure s' < measure s := hlt
      obtain ⟨l, hl, hlen⟩ := ih (measure s') (by omega) hinv rfl
      exact ⟨l, .skip hr hl, by omega⟩

end Bounded

/-! ## Asking for the next one -/

section After

variable {l rest : List τ} {key : τ → Nat} {p : τ → Bool} {x : τ} {k : Nat}

/-- The elements past a position that satisfy `p`. -/
def after (key : τ → Nat) (p : τ → Bool) (l : List τ) (k : Nat) : List τ :=
  l.filter fun x => decide (k < key x) && p x

theorem after_head (hsorted : l.Pairwise fun x y => key x < key y)
    (h : after key p l k = x :: rest) : after key p l (key x) = rest := by
  have hx : k < key x := by
    have hmem : x ∈ after key p l k := by
      rw [h]
      exact List.mem_cons_self
    simpa using (Bool.and_eq_true_iff.mp (List.mem_filter.mp hmem).2).1
  have htail : ∀ y ∈ rest, key x < key y := by
    have hpair : (after key p l k).Pairwise fun x y => key x < key y := hsorted.filter _
    rw [h, List.pairwise_cons] at hpair
    exact hpair.1
  calc after key p l (key x)
      = (after key p l k).filter fun y => decide (key x < key y) := by
        unfold after
        rw [List.filter_filter]
        refine List.filter_congr fun y _ => ?_
        by_cases hy : key x < key y
        · simp [hy, Nat.lt_trans hx hy]
        · simp [hy]
    _ = rest := by
        rw [h, List.filter_cons_of_neg (by simp)]
        exact List.filter_eq_self.mpr fun y hy => by simpa using htail y hy

/-- To ask again and again for the first element past the last answer is to go through all
of them in order, when the keys go up. -/
theorem Yields.after {next : Nat → Except ε (Option τ × Nat)}
    (hsorted : l.Pairwise fun x y => key x < key y)
    (hsome : ∀ k x, l.find? (fun x => decide (k < key x) && p x) = some x →
      next k = .ok (some x, key x))
    (hnone : ∀ k, l.find? (fun x => decide (k < key x) && p x) = none → next k = .ok (none, k))
    (k : Nat) : Yields next k (Lib.after key p l k) := by
  induction hl : Lib.after key p l k generalizing k with
  | nil =>
    refine .nil (hnone k ?_)
    rw [← List.head?_filter]
    exact congrArg List.head? hl
  | cons x rest ih =>
    refine .cons (hsome k x ?_) (ih (key x) (after_head hsorted hl))
    rw [← List.head?_filter]
    exact congrArg List.head? hl

end After

end Lib
