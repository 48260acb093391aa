/-
  Lib/Trace.lean --- what happened since the last event of a kind.

  A trace is a list of events, the newest one first.  `Since p q l` says that
  some event of `l`, together with what came before it, satisfies `p`, and that
  no event after it satisfies `q`.
-/
import Mathlib.Data.List.Basic

set_option autoImplicit false

namespace Lib

variable {α : Type} {p p' : α → List α → Prop} {q q' : α → Prop} {e : α} {l : List α}

/-- Some event satisfies `p`, and none after it satisfies `q`. -/
def Since (p : α → List α → Prop) (q : α → Prop) (l : List α) : Prop :=
  ∃ post e pre, l = post ++ e :: pre ∧ p e pre ∧ ∀ x ∈ post, ¬ q x

namespace Since

/-- An event of the kind starts a new stretch. -/
theorem now (h : p e l) : Since p q (e :: l) :=
  ⟨[], e, l, rfl, h, fun _ hx => absurd hx List.not_mem_nil⟩

/-- Any other event prolongs the stretch. -/
theorem cons (h : Since p q l) (he : ¬ q e) : Since p q (e :: l) := by
  obtain ⟨post, x, pre, rfl, hp, hq⟩ := h
  refine ⟨e :: post, x, pre, rfl, hp, fun y hy => ?_⟩
  rcases List.mem_cons.mp hy with rfl | hy
  · exact he
  · exact hq y hy

/-- And so do several. -/
theorem append {late : List α} (h : Since p q l) (hlate : ∀ e ∈ late, ¬ q e) : Since p q (late ++ l) := by
  induction late with
  | nil => exact h
  | cons e late ih =>
    exact .cons (ih fun x hx => hlate x (List.mem_cons_of_mem _ hx)) (hlate e List.mem_cons_self)

theorem mono (h : Since p q l) (hp : ∀ e pre, p e pre → p' e pre) (hq : ∀ e, q' e → q e) :
    Since p' q' l := by
  obtain ⟨post, x, pre, rfl, hpx, hqx⟩ := h
  exact ⟨post, x, pre, rfl, hp x pre hpx, fun y hy h => hqx y hy (hq y h)⟩

theorem not_nil : ¬ Since p q [] := by
  rintro ⟨post, e, pre, h, -⟩
  cases post <;> exact absurd h (by simp)

theorem iff_cons : Since p q (e :: l) ↔ p e l ∨ ¬ q e ∧ Since p q l := by
  constructor
  · rintro ⟨post, x, pre, h, hp, hq⟩
    cases post with
    | nil =>
      obtain ⟨rfl, rfl⟩ := List.cons.inj h
      exact .inl hp
    | cons y post =>
      obtain ⟨rfl, rfl⟩ := List.cons.inj h
      exact .inr ⟨hq _ List.mem_cons_self, post, x, pre, rfl, hp,
        fun z hz => hq z (List.mem_cons_of_mem _ hz)⟩
  · rintro (h | ⟨he, h⟩)
    · exact .now h
    · exact h.cons he

/-- The trace is searched from its newest event on. -/
instance decidable [∀ e l, Decidable (p e l)] [DecidablePred q] (l : List α) : Decidable (Since p q l) :=
  match l with
  | [] => .isFalse not_nil
  | _ :: l =>
    have := decidable l
    decidable_of_iff _ iff_cons.symm

/-- Between an event that ends stretches and a later one whose stretch is
unbroken lies the start of that stretch. -/
theorem between {mid pre : List α} (h : Since p q (mid ++ e :: pre)) (he : q e)
    (hne : ∀ pre, ¬ p e pre) : ∃ post x pre', mid = post ++ x :: pre' ∧ p x (pre' ++ e :: pre) := by
  obtain ⟨post, x, before, heq, hp, hq⟩ := h
  rcases List.append_eq_append_iff.mp heq with ⟨as, rfl, hx⟩ | ⟨bs, rfl, hx⟩
  · cases as with
    | nil =>
      obtain ⟨rfl, rfl⟩ := List.cons.inj (hx : e :: pre = x :: before)
      exact absurd hp (hne _)
    | cons a as =>
      obtain ⟨rfl, -⟩ := List.cons.inj (hx : e :: pre = a :: (as ++ x :: before))
      exact absurd he (hq e (List.mem_append_right _ List.mem_cons_self))
  · cases bs with
    | nil =>
      obtain ⟨rfl, rfl⟩ := List.cons.inj (hx : x :: before = e :: pre)
      exact absurd hp (hne _)
    | cons b bs =>
      obtain ⟨rfl, rfl⟩ := List.cons.inj (hx : x :: before = b :: (bs ++ e :: pre))
      exact ⟨post, x, bs, rfl, hp⟩

end Since

/-- Every event satisfies `p`, together with what came before it. -/
def Throughout (p : α → List α → Prop) (l : List α) : Prop :=
  ∀ post e pre, l = post ++ e :: pre → p e pre

namespace Throughout

theorem nil : Throughout p [] := fun post _ _ h => by cases post <;> exact nomatch h

theorem cons (h : Throughout p l) (he : p e l) : Throughout p (e :: l) := by
  intro post x pre heq
  cases post with
  | nil =>
    obtain ⟨rfl, rfl⟩ := List.cons.inj heq
    exact he
  | cons y post =>
    obtain ⟨-, rfl⟩ := List.cons.inj heq
    exact h post x pre rfl

end Throughout

end Lib
