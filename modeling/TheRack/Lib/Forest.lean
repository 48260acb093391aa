/-
  Lib/Forest.lean --- ordered forests, and what the nodes above hand down.

  A forest is gone through in pre-order.  On the way down every node adds to a
  context, so a visit is a node together with what it inherits; with `down` a
  constructor of paths, say, the context is the path to the node.  A forest that is
  gone through in this order comes apart around any visit: what is visited below it
  follows at once, and then comes something that lies no deeper.
-/
import Mathlib.Init
import Mathlib.Tactic.Basic

set_option autoImplicit false

namespace Lib

/-- Trees side by side: the first one's label, its children, and the other trees. -/
inductive Forest (α : Type) : Type
  | nil : Forest α
  | tree (label : α) (children rest : Forest α) : Forest α

/-- A node that is visited, with what the nodes above it hand down. -/
structure Visit (γ α : Type) where
  context : γ
  label : α
  children : Forest α

namespace Forest

variable {α β γ : Type}

/-- How many nodes lie one above the other. -/
def height : Forest α → Nat
  | nil => 0
  | tree _ children rest => max (children.height + 1) rest.height

/-- The nodes in pre-order. -/
def visits (down : γ → α → γ) (c : γ) : Forest α → List (Visit γ α)
  | nil => []
  | tree label children rest =>
      ⟨c, label, children⟩ :: (children.visits down (down c label) ++ rest.visits down c)

/-- What the nodes are labelled with, in pre-order. -/
def labels : Forest α → List α
  | nil => []
  | tree label children rest => label :: (children.labels ++ rest.labels)

/-- The roots of the trees. -/
def tops (c : γ) : Forest α → List (Visit γ α)
  | nil => []
  | tree label children rest => ⟨c, label, children⟩ :: rest.tops c

end Forest

/-- The nodes below a visited node. -/
def Visit.below {γ α : Type} (down : γ → α → γ) (v : Visit γ α) : List (Visit γ α) :=
  v.children.visits down (down v.context v.label)

/-- The nodes right below a visited node. -/
def Visit.tops {γ α : Type} (down : γ → α → γ) (v : Visit γ α) : List (Visit γ α) :=
  v.children.tops (down v.context v.label)

namespace Forest

variable {α γ : Type} {down : γ → α → γ} {c : γ} {f : Forest α} {v : Visit γ α}

@[simp]
theorem visits_nil : (nil : Forest α).visits down c = [] := rfl

@[simp]
theorem visits_tree (label : α) (children rest : Forest α) :
    (tree label children rest).visits down c =
      ⟨c, label, children⟩ :: (children.visits down (down c label) ++ rest.visits down c) := rfl

section Level

variable {level : γ → Nat} (hdown : ∀ c label, level (down c label) = level c + 1)

include hdown

theorem level_le (h : v ∈ f.visits down c) : level c ≤ level v.context := by
  induction f generalizing c with
  | nil => exact absurd h List.not_mem_nil
  | tree label children rest ihc ihr =>
    rcases List.mem_cons.mp h with rfl | h
    · exact Nat.le_refl _
    · rcases List.mem_append.mp h with h | h
      · have hle := ihc h
        rw [hdown] at hle
        exact Nat.le_of_succ_le hle
      · exact ihr h

/-- Around a visit: what lies below it comes next, and then something no deeper. -/
theorem visits_split {before after : List (Visit γ α)}
    (h : f.visits down c = before ++ v :: after) :
    ∃ later, after = v.below down ++ later ∧
      ∀ w, later.head? = some w → level w.context ≤ level v.context := by
  induction f generalizing c before after with
  | nil => exact absurd h (by simp)
  | tree label children rest ihc ihr =>
    have hrest : ∀ w, (rest.visits down c).head? = some w → level w.context = level c := by
      intro w hw
      cases rest with
      | nil => exact nomatch hw
      | tree _ _ _ => rw [← Option.some.inj hw]
    rw [visits_tree] at h
    cases before with
    | nil =>
      obtain ⟨rfl, rfl⟩ := List.cons.inj h
      exact ⟨_, rfl, fun w hw => Nat.le_of_eq (hrest w hw)⟩
    | cons first before =>
      have hle : level c ≤ level v.context := by
        refine level_le hdown (?_ : v ∈ (tree label children rest).visits down c)
        rw [visits_tree, h]
        exact List.mem_append_right _ List.mem_cons_self
      replace h := (List.cons.inj h).2
      rcases List.append_eq_append_iff.mp h with ⟨_, _, hrest'⟩ | ⟨after', hchildren, hafter⟩
      · exact ihr hrest'
      cases after' with
      | nil => exact @ihr c [] after hafter.symm
      | cons _ after' =>
        obtain ⟨rfl, rfl⟩ := List.cons.inj hafter
        obtain ⟨later, rfl, hlater⟩ := ihc hchildren
        refine ⟨later ++ rest.visits down c, List.append_assoc _ _ _, fun w hw => ?_⟩
        cases later with
        | nil => exact Nat.le_trans (Nat.le_of_eq (hrest w hw)) hle
        | cons _ _ => exact hlater w hw

end Level

end Forest

end Lib
