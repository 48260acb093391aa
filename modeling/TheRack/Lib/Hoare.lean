/-
  Lib/Hoare.lean --- what a state-passing computation that can fail guarantees.

  `Meets x s Q E`: run from `s`, the computation `x` either returns and then `Q`
  holds of its result and its state, or it fails and then `E` holds of the
  failure.  With `E` false this is total correctness, with `E` true partial.
  `Keeps I x` is the invariant rule for one computation: where `I` holds before
  `x` it holds after.
-/
import Mathlib.Init
import Mathlib.Tactic.Basic

set_option autoImplicit false

namespace Lib

variable {σ ε α β : Type}

/-- What `x` does from `s`. -/
def Meets (x : StateT σ (Except ε) α) (s : σ) (Q : α → σ → Prop) (E : ε → Prop) : Prop :=
  match x s with
  | .ok (a, t) => Q a t
  | .error e => E e

namespace Meets

variable {x : StateT σ (Except ε) α} {f : α → StateT σ (Except ε) β} {s t : σ} {a : α}
variable {Q P : α → σ → Prop} {R : β → σ → Prop} {E E' : ε → Prop}

/-- Only the run from `s` counts. -/
theorem of_run {y : StateT σ (Except ε) α} (h : x s = y s) (hy : Meets y s Q E) : Meets x s Q E := by
  unfold Meets
  rw [h]
  exact hy

theorem of_ok (h : x s = .ok (a, t)) (hQ : Q a t) : Meets x s Q E := by
  unfold Meets
  rw [h]
  exact hQ

theorem of_error {e : ε} (h : x s = .error e) (hE : E e) : Meets x s Q E := by
  unfold Meets
  rw [h]
  exact hE

/-- Partial correctness from what is known of every return. -/
theorem of_returns (h : ∀ a t, x s = .ok (a, t) → Q a t) : Meets x s Q fun _ => True := by
  unfold Meets
  split
  · exact h _ _ ‹_›
  · trivial

/-- What does the same meets the same. -/
theorem of_eq {y : StateT σ (Except ε) α} (h : x s = y s) (hy : Meets y s Q E) : Meets x s Q E := by
  unfold Meets
  rw [h]
  exact hy

/-- What holds when it returned. -/
theorem ok (h : Meets x s Q E) (hx : x s = .ok (a, t)) : Q a t := by
  unfold Meets at h
  rwa [hx] at h

/-- What holds when it failed. -/
theorem error {e : ε} (h : Meets x s Q E) (hx : x s = .error e) : E e := by
  unfold Meets at h
  rwa [hx] at h

/-- It returned, or it failed. -/
theorem cases (h : Meets x s Q E) :
    (∃ a t, x s = .ok (a, t) ∧ Q a t) ∨ ∃ e, x s = .error e ∧ E e := by
  unfold Meets at h
  cases hx : x s with
  | ok r => rw [hx] at h; exact .inl ⟨r.1, r.2, rfl, h⟩
  | error e => rw [hx] at h; exact .inr ⟨e, rfl, h⟩

/-- What cannot fail returns. -/
theorem returns (h : Meets x s Q fun _ => False) : ∃ a t, x s = .ok (a, t) ∧ Q a t := by
  rcases h.cases with h | ⟨_, _, h⟩
  · exact h
  · exact h.elim

theorem mono (h : Meets x s P E) (hQ : ∀ a t, P a t → Q a t) (hE : ∀ e, E e → E' e) :
    Meets x s Q E' := by
  rcases h.cases with ⟨a, t, hx, hP⟩ | ⟨e, hx, he⟩
  · exact of_ok hx (hQ a t hP)
  · exact of_error hx (hE e he)

/-- The rule of consequence for what holds on return. -/
theorem imp (h : Meets x s P E) (hQ : ∀ a t, P a t → Q a t) : Meets x s Q E :=
  h.mono hQ fun _ he => he

/-- The rule of conjunction. -/
theorem and (h : Meets x s P E) (h' : Meets x s Q E') :
    Meets x s (fun a t => P a t ∧ Q a t) fun e => E e ∧ E' e := by
  rcases h.cases with ⟨a, t, hx, hP⟩ | ⟨e, hx, he⟩
  · exact of_ok hx ⟨hP, h'.ok hx⟩
  · exact of_error hx ⟨he, h'.error hx⟩

theorem pure (h : Q a s) : Meets (Pure.pure a : StateT σ (Except ε) α) s Q E := h

/-- Sequencing. -/
theorem bind (h : Meets x s P E) (hf : ∀ a t, P a t → Meets (f a) t R E) :
    Meets (x >>= f) s R E := by
  rcases h.cases with ⟨a, t, hx, hP⟩ | ⟨e, hx, he⟩
  · have hstep : (x >>= f) s = f a t := by
      show StateT.bind x f s = _
      simp only [StateT.bind, hx]
      rfl
    unfold Meets
    rw [hstep]
    exact hf a t hP
  · have hstep : (x >>= f) s = .error e := by
      show StateT.bind x f s = _
      simp only [StateT.bind, hx]
      rfl
    exact of_error hstep he

/-- Sequencing after a step whose outcome is known. -/
theorem step (hx : x s = .ok (a, t)) (hf : Meets (f a) t R E) : Meets (x >>= f) s R E :=
  bind (of_ok (Q := fun b u => b = a ∧ u = t) hx ⟨rfl, rfl⟩) fun _ _ h => by
    rw [h.1, h.2]
    exact hf

/-- Sequencing after reading the state. -/
theorem get {f : σ → StateT σ (Except ε) β} (hf : Meets (f s) s R E) :
    Meets (get >>= f) s R E := step rfl hf

/-- Sequencing after an update. -/
theorem modify {g : σ → σ} {f : PUnit → StateT σ (Except ε) β} (hf : Meets (f ⟨⟩) (g s) R E) :
    Meets (modify g >>= f) s R E := step rfl hf

/-- Dropping the result. -/
theorem discard {R : Unit → σ → Prop} (h : Meets x s (fun _ => R ()) E) :
    Meets (discard x) s R E := by
  rcases h.cases with ⟨a, t, hx, hR⟩ | ⟨e, hx, he⟩
  · refine of_ok (a := ()) (t := t) ?_ hR
    show StateT.map _ x s = _
    simp only [StateT.map, hx]
    rfl
  · refine of_error (e := e) ?_ he
    show StateT.map _ x s = _
    simp only [StateT.map, hx]
    rfl

end Meets

/-- Whether `x` returns from `s`, with a result and a state that `p` accepts. -/
def returnsWith (p : α → σ → Bool) (x : StateT σ (Except ε) α) (s : σ) : Bool :=
  match x s with
  | .ok (a, t) => p a t
  | .error _ => false

theorem of_returnsWith {p : α → σ → Bool} {x : StateT σ (Except ε) α} {s : σ}
    (h : returnsWith p x s = true) : ∃ a t, x s = .ok (a, t) ∧ p a t = true := by
  unfold returnsWith at h
  split at h
  · rename_i a t hx
    exact ⟨a, t, hx, h⟩
  · exact nomatch h

/-- Wherever `x` runs from a state of which `I` holds and returns, `I` holds again. -/
def Keeps (I : σ → Prop) (x : StateT σ (Except ε) α) : Prop :=
  ∀ s, I s → Meets x s (fun _ => I) fun _ => True

namespace Keeps

variable {I : σ → Prop} {x : StateT σ (Except ε) α} {f : α → StateT σ (Except ε) β} {s t : σ} {a : α}

theorem ok (h : Keeps I x) (hs : I s) (hx : x s = .ok (a, t)) : I t := (h s hs).ok hx

theorem pure (a : α) : Keeps I (Pure.pure a : StateT σ (Except ε) α) := fun _ hs => hs

theorem bind (hx : Keeps I x) (hf : ∀ a, Keeps I (f a)) : Keeps I (x >>= f) := fun s hs =>
  (hx s hs).bind fun a t ht => hf a t ht

/-- Reading the state, for what follows and is true of every state read. -/
theorem get {f : σ → StateT σ (Except ε) β} (hf : ∀ s, I s → Keeps I (f s)) :
    Keeps I (get >>= f) := fun s hs => Meets.get (hf s hs s hs)

/-- Reading the state and then putting another. -/
theorem change {f : σ → StateT σ (Except ε) β}
    (hf : ∀ s, I s → Meets (f s) s (fun _ => I) fun _ => True) :
    Keeps I (MonadState.get >>= f) := fun s hs => Meets.get (hf s hs)

theorem modify {g : σ → σ} (hg : ∀ s, I s → I (g s)) :
    Keeps I (modify g : StateT σ (Except ε) PUnit) := fun s hs => hg s hs

theorem discard (hx : Keeps I x) : Keeps I (discard x) := fun s hs => (hx s hs).discard

end Keeps

end Lib
