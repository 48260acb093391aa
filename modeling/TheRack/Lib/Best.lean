/-
  Lib/Best.lean --- the first of the best of a list.

  A scan keeps a candidate and its rank, and replaces it only by one of strictly
  smaller rank.  It ends with the first of those whose rank is the smallest.
-/
import Mathlib.Data.List.Basic

set_option autoImplicit false

namespace Lib

variable {α : Type}

/-- One step of the scan; `rank` says who is a candidate. -/
def better (rank : α → Option Nat) (best : Option (α × Nat)) (a : α) : Option (α × Nat) :=
  match rank a with
  | none => best
  | some r =>
    match best with
    | none => some (a, r)
    | some (b, s) => if r < s then some (a, r) else some (b, s)

/-- `a`, of rank `r`, is the first of the best of `l`. -/
structure IsBest (rank : α → Option Nat) (l : List α) (a : α) (r : Nat) : Prop where
  rank_eq : rank a = some r
  le : ∀ b ∈ l, ∀ s, rank b = some s → r ≤ s
  first : ∃ before after, l = before ++ a :: after ∧ ∀ b ∈ before, ∀ s, rank b = some s → r < s

variable {rank : α → Option Nat} {l : List α} {a b : α} {r s : Nat}

theorem IsBest.mem (h : IsBest rank l a r) : a ∈ l := by
  obtain ⟨before, after, rfl, -⟩ := h.first
  exact List.mem_append_right _ List.mem_cons_self

/-- What the scan has found in `l`. -/
def Found (rank : α → Option Nat) (l : List α) : Option (α × Nat) → Prop
  | none => ∀ b ∈ l, rank b = none
  | some (a, r) => IsBest rank l a r

theorem IsBest.concat (h : IsBest rank l a r) (hb : ∀ s, rank b = some s → r ≤ s) :
    IsBest rank (l ++ [b]) a r := by
  obtain ⟨before, after, rfl, hfirst⟩ := h.first
  refine ⟨h.rank_eq, fun x hx s hs => ?_, before, after ++ [b], by simp, hfirst⟩
  rcases List.mem_append.mp hx with hx | hx
  · exact h.le x hx s hs
  · obtain rfl := List.mem_singleton.mp hx
    exact hb s hs

theorem IsBest.new (hb : rank b = some s) (h : ∀ x ∈ l, ∀ r, rank x = some r → s < r) :
    IsBest rank (l ++ [b]) b s := by
  refine ⟨hb, fun x hx r hr => ?_, l, [], rfl, h⟩
  rcases List.mem_append.mp hx with hx | hx
  · exact Nat.le_of_lt (h x hx r hr)
  · obtain rfl := List.mem_singleton.mp hx
    exact Nat.le_of_eq (Option.some.inj (hb.symm.trans hr))

/-- One step. -/
theorem Found.better {best : Option (α × Nat)} (h : Found rank l best) (b : α) :
    Found rank (l ++ [b]) (better rank best b) := by
  unfold Lib.better
  cases hb : rank b with
  | none =>
    match best, h with
    | none, h =>
      intro x hx
      rcases List.mem_append.mp hx with hx | hx
      · exact h x hx
      · exact List.mem_singleton.mp hx ▸ hb
    | some (a, r), h => exact IsBest.concat h fun s hs => nomatch hb.symm.trans hs
  | some s =>
    match best, h with
    | none, h => exact IsBest.new hb fun x hx r hr => nomatch (h x hx).symm.trans hr
    | some (a, r), h =>
      simp only
      split
      · rename_i hlt
        exact IsBest.new hb fun x hx q hq => Nat.lt_of_lt_of_le hlt (IsBest.le h x hx q hq)
      · rename_i hle
        refine IsBest.concat h fun q hq => ?_
        obtain rfl := Option.some.inj (hb.symm.trans hq)
        exact Nat.le_of_not_lt hle

theorem Found.foldl : ∀ (l' : List α) {l : List α} {best : Option (α × Nat)},
    Found rank l best → Found rank (l ++ l') (l'.foldl (Lib.better rank) best) := by
  intro l'
  induction l' with
  | nil =>
    intro l best h
    rw [List.append_nil]
    exact h
  | cons b l' ih =>
    intro l best h
    have hstep := ih (h.better b)
    rwa [List.append_assoc] at hstep

/-- The whole scan. -/
theorem found_foldl (rank : α → Option Nat) (l : List α) :
    Found rank l (l.foldl (better rank) none) :=
  Found.foldl (l := []) l (fun _ h => absurd h List.not_mem_nil : Found _ [] none)

end Lib
