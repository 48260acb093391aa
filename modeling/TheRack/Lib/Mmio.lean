/-
  Lib/Mmio.lean --- programs that drive a device through its registers.

  A program reads and writes registers, and polls one until it shows what the program
  waits for.  What a register reads as is the device's to say: a program runs along a
  list of accesses, and a device is a relation that says which accesses it answers.
  What is proved of all runs then holds whatever the device does.
-/
import Mathlib
import TheRack.Lib.Refines

set_option autoImplicit false

namespace Lib.Mmio

/-- An access to the register at an offset. -/
inductive Access
  | read (offset : Nat) (value : BitVec 32)
  | write (offset : Nat) (value : BitVec 32)
  | writeByte (offset : Nat) (value : BitVec 8)
  deriving DecidableEq

/-- A program that drives a device. -/
inductive Driver (α : Type)
  | done (a : α)
  | read (offset : Nat) (k : BitVec 32 → Driver α)
  | write (offset : Nat) (value : BitVec 32) (k : Driver α)
  | writeByte (offset : Nat) (value : BitVec 8) (k : Driver α)
  | poll (offset : Nat) (ready : BitVec 32 → Bool) (k : Driver α)

namespace Driver

variable {α β : Type}

/-- One program after the other. -/
def bind : Driver α → (α → Driver β) → Driver β
  | done a, f => f a
  | read offset k, f => read offset fun v => (k v).bind f
  | write offset value k, f => write offset value (k.bind f)
  | writeByte offset value k, f => writeByte offset value (k.bind f)
  | poll offset ready k, f => poll offset ready (k.bind f)

instance : Monad Driver where
  pure := done
  bind := bind

/-- Read a register. -/
def get (offset : Nat) : Driver (BitVec 32) := read offset done

/-- Write a register. -/
def put (offset : Nat) (value : BitVec 32) : Driver Unit := write offset value (done ())

/-- Write a byte of a register. -/
def putByte (offset : Nat) (value : BitVec 8) : Driver Unit := writeByte offset value (done ())

/-- Read a register until it is ready. -/
def await (offset : Nat) (ready : BitVec 32 → Bool) : Driver Unit := poll offset ready (done ())

/-- What is left of the program after an access, if that is the one it makes. -/
def step : Driver α → Access → Option (Driver α)
  | read offset k, .read o v => if o = offset then some (k v) else none
  | write offset value k, .write o v => if o = offset ∧ v = value then some k else none
  | writeByte offset value k, .writeByte o v => if o = offset ∧ v = value then some k else none
  | poll offset ready k, .read o v =>
    if o = offset then some (if ready v then k else poll offset ready k) else none
  | _, _ => none

/-- What is left of it after some accesses. -/
def run : Driver α → List Access → Option (Driver α)
  | p, [] => some p
  | p, e :: t => (p.step e).bind fun q => q.run t

variable {p q : Driver α} {f : α → Driver β} {t t' : List Access} {e : Access} {a : α} {b : β}

theorem step_done (a : α) (e : Access) : (done a).step e = none := by cases e <;> rfl

theorem step_read {offset : Nat} {k : BitVec 32 → Driver α} (h : (read offset k).step e = some q) :
    ∃ v, e = .read offset v ∧ q = k v := by
  cases e with
  | read o v =>
    simp only [step, Option.ite_none_right_eq_some, Option.some.injEq] at h
    exact ⟨v, by rw [h.1], h.2.symm⟩
  | write => exact nomatch h
  | writeByte => exact nomatch h

theorem step_write {offset : Nat} {value : BitVec 32} {k : Driver α}
    (h : (write offset value k).step e = some q) : e = .write offset value ∧ q = k := by
  cases e with
  | read => exact nomatch h
  | write o v =>
    simp only [step, Option.ite_none_right_eq_some, Option.some.injEq] at h
    exact ⟨by rw [h.1.1, h.1.2], h.2.symm⟩
  | writeByte => exact nomatch h

theorem step_writeByte {offset : Nat} {value : BitVec 8} {k : Driver α}
    (h : (writeByte offset value k).step e = some q) : e = .writeByte offset value ∧ q = k := by
  cases e with
  | read => exact nomatch h
  | write => exact nomatch h
  | writeByte o v =>
    simp only [step, Option.ite_none_right_eq_some, Option.some.injEq] at h
    exact ⟨by rw [h.1.1, h.1.2], h.2.symm⟩

theorem step_poll {offset : Nat} {ready : BitVec 32 → Bool} {k : Driver α}
    (h : (poll offset ready k).step e = some q) :
    ∃ v, e = .read offset v ∧ q = if ready v then k else poll offset ready k := by
  cases e with
  | read o v =>
    simp only [step, Option.ite_none_right_eq_some, Option.some.injEq] at h
    exact ⟨v, by rw [h.1], h.2.symm⟩
  | write => exact nomatch h
  | writeByte => exact nomatch h

@[simp] theorem run_nil (p : Driver α) : p.run [] = some p := rfl

@[simp] theorem bind_done (a : α) (f : α → Driver β) : (done a >>= f) = f a := rfl

@[simp] theorem pure_eq (a : α) : (pure a : Driver α) = done a := rfl

@[simp] theorem read_bind (offset : Nat) (k : BitVec 32 → Driver α) (f : α → Driver β) :
    (read offset k >>= f) = read offset fun v => k v >>= f := rfl

@[simp] theorem write_bind (offset : Nat) (value : BitVec 32) (k : Driver α) (f : α → Driver β) :
    (write offset value k >>= f) = write offset value (k >>= f) := rfl

@[simp] theorem poll_bind (offset : Nat) (ready : BitVec 32 → Bool) (k : Driver α) (f : α → Driver β) :
    (poll offset ready k >>= f) = poll offset ready (k >>= f) := rfl

@[simp] theorem get_bind (offset : Nat) (f : BitVec 32 → Driver β) : (get offset >>= f) = read offset f := rfl

@[simp] theorem put_bind (offset : Nat) (value : BitVec 32) (f : Unit → Driver β) :
    (put offset value >>= f) = write offset value (f ()) := rfl

@[simp] theorem putByte_bind (offset : Nat) (value : BitVec 8) (f : Unit → Driver β) :
    (putByte offset value >>= f) = writeByte offset value (f ()) := rfl

@[simp] theorem await_bind (offset : Nat) (ready : BitVec 32 → Bool) (f : Unit → Driver β) :
    (await offset ready >>= f) = poll offset ready (f ()) := rfl

theorem run_append (p : Driver α) (t t' : List Access) :
    p.run (t ++ t') = (p.run t).bind fun q => q.run t' := by
  induction t generalizing p with
  | nil => rfl
  | cons e t ih =>
    cases h : p.step e with
    | none => simp [run, h]
    | some q => simp [run, h, ih]

/-- A program makes the accesses of its first half, and then those of its second. -/
theorem step_bind (h : ∀ a, p ≠ done a) : (p >>= f).step e = (p.step e).map (· >>= f) := by
  cases p with
  | done a => exact absurd rfl (h a)
  | read offset k =>
    cases e with
    | read o v => by_cases ho : o = offset <;> simp [Bind.bind, bind, step, ho]
    | write => rfl
    | writeByte => rfl
  | write offset value k =>
    cases e with
    | read => rfl
    | write o v => by_cases ho : o = offset ∧ v = value <;> simp [Bind.bind, bind, step, ho]
    | writeByte => rfl
  | writeByte offset value k =>
    cases e with
    | read => rfl
    | write => rfl
    | writeByte o v => by_cases ho : o = offset ∧ v = value <;> simp [Bind.bind, bind, step, ho]
  | poll offset ready k =>
    cases e with
    | read o v =>
      by_cases ho : o = offset
      · cases hr : ready v <;> simp [Bind.bind, bind, step, ho, hr]
      · simp [Bind.bind, bind, step, ho]
    | write => rfl
    | writeByte => rfl

/-- The whole is in its first half, or that has ended. -/
theorem run_bind {r : Driver β} (h : (p >>= f).run t = some r) :
    (∃ q, p.run t = some q ∧ r = q >>= f) ∨
      ∃ t₁ t₂ a, t = t₁ ++ t₂ ∧ p.run t₁ = some (done a) ∧ (f a).run t₂ = some r := by
  induction t generalizing p with
  | nil => exact .inl ⟨p, rfl, (Option.some.inj h).symm⟩
  | cons e t ih =>
    by_cases hp : ∃ a, p = done a
    · obtain ⟨a, rfl⟩ := hp
      exact .inr ⟨[], e :: t, a, rfl, rfl, h⟩
    · have hgo := step_bind (e := e) (f := f) fun a ha => hp ⟨a, ha⟩
      simp only [run, hgo] at h
      cases hq : p.step e with
      | none => simp [hq] at h
      | some q =>
        simp only [hq, Option.map_some, Option.bind_some] at h
        rcases ih h with ⟨q', hq', rfl⟩ | ⟨t₁, t₂, a, rfl, h₁, h₂⟩
        · exact .inl ⟨q', by simp [run, hq, hq'], rfl⟩
        · exact .inr ⟨e :: t₁, t₂, a, rfl, by simp [run, hq, h₁], h₂⟩

/-- Every poll of the program is for something that a register can show. -/
def Pollable : Driver α → Prop
  | done _ => True
  | read _ k => ∀ v, (k v).Pollable
  | write _ _ k => k.Pollable
  | writeByte _ _ k => k.Pollable
  | poll _ ready k => (∃ v, ready v = true) ∧ k.Pollable

theorem Pollable.step (h : p.Pollable) (hs : p.step e = some q) : q.Pollable := by
  cases p with
  | done a =>
    rw [step_done] at hs
    exact nomatch hs
  | read offset k =>
    obtain ⟨v, rfl, rfl⟩ := step_read hs
    exact h v
  | write offset value k =>
    obtain ⟨rfl, rfl⟩ := step_write hs
    exact h
  | writeByte offset value k =>
    obtain ⟨rfl, rfl⟩ := step_writeByte hs
    exact h
  | poll offset ready k =>
    obtain ⟨v, rfl, rfl⟩ := step_poll hs
    split
    · exact h.2
    · exact h

theorem Pollable.run (h : p.Pollable) (hrun : p.run t = some q) : q.Pollable := by
  induction t generalizing p with
  | nil =>
    obtain rfl := Option.some.inj hrun
    exact h
  | cons e t ih =>
    obtain ⟨p', hs, hrest⟩ := Option.bind_eq_some_iff.mp hrun
    exact ih (h.step hs) hrest

/-- Then some device lets it end. -/
theorem Pollable.ends (h : p.Pollable) : ∃ t a, p.run t = some (done a) := by
  induction p with
  | done a => exact ⟨[], a, rfl⟩
  | read offset k ih =>
    obtain ⟨t, a, hrun⟩ := ih 0 (h 0)
    refine ⟨.read offset 0 :: t, a, ?_⟩
    simp only [Driver.run, Driver.step, if_pos, Option.bind_some]
    exact hrun
  | write offset value k ih =>
    obtain ⟨t, a, hrun⟩ := ih h
    refine ⟨.write offset value :: t, a, ?_⟩
    simp only [Driver.run, Driver.step, and_self, if_pos, Option.bind_some]
    exact hrun
  | writeByte offset value k ih =>
    obtain ⟨t, a, hrun⟩ := ih h
    refine ⟨.writeByte offset value :: t, a, ?_⟩
    simp only [Driver.run, Driver.step, and_self, if_pos, Option.bind_some]
    exact hrun
  | poll offset ready k ih =>
    obtain ⟨⟨v, hv⟩, hk⟩ := h
    obtain ⟨t, a, hrun⟩ := ih hk
    refine ⟨.read offset v :: t, a, ?_⟩
    simp only [Driver.run, Driver.step, hv, if_pos, Option.bind_some]
    exact hrun

/-- However far it has got, some device lets it end. -/
theorem Pollable.extends (h : p.Pollable) (hrun : p.run t = some q) :
    ∃ t' a, p.run (t ++ t') = some (done a) := by
  obtain ⟨t', a, hends⟩ := (h.run hrun).ends
  refine ⟨t', a, ?_⟩
  rw [run_append, hrun]
  exact hends

end Driver

/-! ## With a device -/

section Device

variable {σ α β : Type} {D : σ → Access → σ → Prop} {s s' : σ} {p : Driver α} {f : α → Driver β}
  {Q Q' : α → σ → Prop} {R : β → σ → Prop} {t : List Access} {a : α}

/-- Along every run of the program on this device `I` holds of the device, and where it
ends `Q` holds of the result too. -/
def Runs (D : σ → Access → σ → Prop) (I : σ → Prop) (s : σ) (p : Driver α) (Q : α → σ → Prop) : Prop :=
  ∀ t q s', Path D s t s' → p.run t = some q → I s' ∧ ∀ a, q = .done a → Q a s'

/-- Wherever the program ends on this device, `Q` holds of its result and the device. -/
abbrev Achieves (D : σ → Access → σ → Prop) (s : σ) (p : Driver α) (Q : α → σ → Prop) : Prop :=
  Runs D (fun _ => True) s p Q

namespace Runs

open Driver

variable {I J : σ → Prop}

theorem done (hI : I s) (h : Q a s) : Runs D I s (.done a) Q := by
  intro t q s' hpath hrun
  cases hpath with
  | nil =>
    obtain rfl := Option.some.inj hrun
    refine ⟨hI, fun a' ha => ?_⟩
    obtain rfl := Driver.done.inj ha
    exact h
  | cons =>
    simp only [run, step_done, Option.bind_none] at hrun
    exact nomatch hrun

theorem mono (h : Runs D I s p Q) (hI : ∀ s, I s → J s) (hQ : ∀ a s, Q a s → Q' a s) : Runs D J s p Q' := by
  intro t q s' hpath hrun
  obtain ⟨hi, hq⟩ := h t q s' hpath hrun
  exact ⟨hI s' hi, fun a ha => hQ a s' (hq a ha)⟩

theorem ends (h : Runs D I s p Q) : Achieves D s p Q := h.mono (fun _ _ => trivial) fun _ _ hq => hq

/-- One access. -/
theorem step (hI : I s) (hp : ∀ a, p ≠ .done a) (h : ∀ e q s', D s e s' → p.step e = some q → Runs D I s' q Q) :
    Runs D I s p Q := by
  intro t q s' hpath hrun
  cases hpath with
  | nil =>
    obtain rfl := Option.some.inj hrun
    exact ⟨hI, fun a ha => absurd ha (hp a)⟩
  | cons hd hrest =>
    obtain ⟨q₁, hs, hq⟩ := Option.bind_eq_some_iff.mp hrun
    exact h _ q₁ _ hd hs _ q s' hrest hq

theorem read {offset : Nat} {k : BitVec 32 → Driver α} (hI : I s)
    (h : ∀ v s', D s (.read offset v) s' → Runs D I s' (k v) Q) : Runs D I s (.read offset k) Q := by
  refine step hI (fun a ha => nomatch ha) fun e q s' hd hs => ?_
  obtain ⟨v, rfl, rfl⟩ := step_read hs
  exact h v s' hd

theorem write {offset : Nat} {value : BitVec 32} {k : Driver α} (hI : I s)
    (h : ∀ s', D s (.write offset value) s' → Runs D I s' k Q) : Runs D I s (.write offset value k) Q := by
  refine step hI (fun a ha => nomatch ha) fun e q s' hd hs => ?_
  obtain ⟨rfl, rfl⟩ := step_write hs
  exact h s' hd

theorem writeByte {offset : Nat} {value : BitVec 8} {k : Driver α} (hI : I s)
    (h : ∀ s', D s (.writeByte offset value) s' → Runs D I s' k Q) : Runs D I s (.writeByte offset value k) Q := by
  refine step hI (fun a ha => nomatch ha) fun e q s' hd hs => ?_
  obtain ⟨rfl, rfl⟩ := step_writeByte hs
  exact h s' hd

/-- A register is polled under an invariant, until it is ready. -/
theorem poll {offset : Nat} {ready : BitVec 32 → Bool} {k : Driver α} (hJ : J s) (hJI : ∀ s, J s → I s)
    (hwait : ∀ s v s', J s → D s (.read offset v) s' → ready v = false → J s')
    (h : ∀ s v s', J s → D s (.read offset v) s' → ready v = true → Runs D I s' k Q) :
    Runs D I s (.poll offset ready k) Q := by
  intro t q s'
  induction t generalizing s with
  | nil =>
    intro hpath hrun
    cases hpath
    obtain rfl := Option.some.inj hrun
    exact ⟨hJI _ hJ, fun a ha => nomatch ha⟩
  | cons e t ih =>
    intro hpath hrun
    cases hpath with
    | cons hd hrest =>
      obtain ⟨q₁, hs, hq⟩ := Option.bind_eq_some_iff.mp hrun
      obtain ⟨v, rfl, rfl⟩ := step_poll hs
      cases hr : ready v with
      | true =>
        rw [hr] at hq
        exact h s v _ hJ hd hr t q s' hrest hq
      | false =>
        rw [hr] at hq
        exact ih (hwait s v _ hJ hd hr) hrest hq

theorem bind (h : Runs D I s p fun a s' => Runs D I s' (f a) R) : Runs D I s (p >>= f) R := by
  intro t q s' hpath hrun
  rcases run_bind hrun with ⟨q₁, h₁, hq⟩ | ⟨t₁, t₂, a, rfl, h₁, h₂⟩
  · obtain ⟨hI, hend⟩ := h t q₁ s' hpath h₁
    refine ⟨hI, fun b hb => ?_⟩
    cases q₁ with
    | done a => exact (hend a rfl [] q s' (.nil s') (congrArg some hq.symm)).2 b hb
    | _ => exact nomatch hq.symm.trans hb
  · obtain ⟨s₁, hpath₁, hpath₂⟩ := hpath.split
    exact (h t₁ _ s₁ hpath₁ h₁).2 a rfl t₂ q s' hpath₂ h₂

/-- A loop, with what holds between its rounds. -/
theorem forM {ι : Type} {l : List ι} {body : ι → Driver PUnit} (J : List ι → σ → Prop) (hJ : J [] s)
    (hJI : ∀ s, J l s → I s)
    (h : ∀ pre i post, l = pre ++ i :: post → ∀ s, J pre s → Runs D I s (body i) fun _ s' => J (pre ++ [i]) s') :
    Runs D I s (l.forM body) fun _ s' => J l s' := by
  suffices hgo : ∀ post pre s, l = pre ++ post → J pre s → Runs D I s (post.forM body) fun _ s' => J l s' from
    hgo l [] s rfl hJ
  intro post
  induction post with
  | nil =>
    intro pre s hl hpre
    rw [List.append_nil] at hl
    rw [← hl] at hpre
    exact done (hJI s hpre) hpre
  | cons i post ih =>
    intro pre s hl hpre
    refine bind ((h pre i post hl s hpre).mono (fun _ hi => hi) fun _ s' hs' => ih (pre ++ [i]) s' ?_ hs')
    rw [hl, List.append_assoc, List.singleton_append]

end Runs

/-- A device that does anything, and remembers it. -/
def Recorder (s : List Access) (e : Access) (s' : List Access) : Prop := s' = s ++ [e]

theorem recorder_path (s l : List Access) : Path Recorder s l (s ++ l) := by
  induction l generalizing s with
  | nil =>
    rw [List.append_nil]
    exact .nil s
  | cons e l ih =>
    rw [List.append_cons]
    exact .cons rfl (ih _)

/-- What holds of the recorded accesses holds of those of any run. -/
theorem Runs.recorded {I : List Access → Prop} {Q : α → List Access → Prop} (h : Runs Recorder I [] p Q)
    {q : Driver α} (hrun : p.run t = some q) : I t ∧ ∀ a, q = .done a → Q a t :=
  h t q t (recorder_path [] t) hrun

/-- The program ends on this device, after at most so many accesses. -/
inductive Finishes (D : σ → Access → σ → Prop) : Nat → σ → Driver α → Prop
  | done {n : Nat} {s : σ} (a : α) : Finishes D n s (.done a)
  | step {n : Nat} {s : σ} {p : Driver α} (hgo : ∃ e q s', p.step e = some q ∧ D s e s')
      (h : ∀ e q s', p.step e = some q → D s e s' → Finishes D n s' q) : Finishes D (n + 1) s p

namespace Finishes

open Driver

theorem read {n offset : Nat} {k : BitVec 32 → Driver α} (hgo : ∃ v s', D s (.read offset v) s')
    (h : ∀ v s', D s (.read offset v) s' → Finishes D n s' (k v)) : Finishes D (n + 1) s (.read offset k) := by
  obtain ⟨v, s', hd⟩ := hgo
  refine .step ⟨.read offset v, k v, s', if_pos rfl, hd⟩ fun e q s' hs hd => ?_
  obtain ⟨v, rfl, rfl⟩ := step_read hs
  exact h v s' hd

theorem write {n offset : Nat} {value : BitVec 32} {k : Driver α} (hgo : ∃ s', D s (.write offset value) s')
    (h : ∀ s', D s (.write offset value) s' → Finishes D n s' k) :
    Finishes D (n + 1) s (.write offset value k) := by
  obtain ⟨s', hd⟩ := hgo
  refine .step ⟨.write offset value, k, s', if_pos ⟨rfl, rfl⟩, hd⟩ fun e q s' hs hd => ?_
  obtain ⟨rfl, rfl⟩ := step_write hs
  exact h s' hd

theorem writeByte {n offset : Nat} {value : BitVec 8} {k : Driver α} (hgo : ∃ s', D s (.writeByte offset value) s')
    (h : ∀ s', D s (.writeByte offset value) s' → Finishes D n s' k) :
    Finishes D (n + 1) s (.writeByte offset value k) := by
  obtain ⟨s', hd⟩ := hgo
  refine .step ⟨.writeByte offset value, k, s', if_pos ⟨rfl, rfl⟩, hd⟩ fun e q s' hs hd => ?_
  obtain ⟨rfl, rfl⟩ := step_writeByte hs
  exact h s' hd

theorem mono {n m : Nat} (h : Finishes D n s p) (hle : n ≤ m) : Finishes D m s p := by
  induction h generalizing m with
  | done a => exact .done a
  | step hgo _ ih =>
    obtain ⟨m, rfl⟩ : ∃ k, m = k + 1 := ⟨m - 1, by omega⟩
    exact .step hgo fun e q s' hs hd => ih e q s' hs hd (by omega)

theorem bind {n m : Nat} (h : Finishes D n s p) (hE : Achieves D s p fun a s' => Finishes D m s' (f a)) :
    Finishes D (n + m) s (p >>= f) := by
  induction h with
  | done a =>
    have hnow := (hE [] _ _ (.nil _) rfl).2 a rfl
    exact hnow.mono (Nat.le_add_left m _)
  | @step n s p hgo h ih =>
    have hp : ∀ a, p ≠ .done a := by
      rintro a rfl
      obtain ⟨e, q, -, hs, -⟩ := hgo
      rw [step_done] at hs
      exact nomatch hs
    rw [Nat.add_right_comm]
    refine .step ?_ fun e r s' hs hd => ?_
    · obtain ⟨e, q, s', hs, hd⟩ := hgo
      exact ⟨e, q >>= f, s', by rw [step_bind hp, hs]; rfl, hd⟩
    · rw [step_bind hp] at hs
      obtain ⟨q, hq, rfl⟩ := Option.map_eq_some_iff.mp hs
      refine ih e q s' hq hd fun t r s'' hpath hrun => hE (e :: t) r s'' (.cons hd hpath) ?_
      rw [run, hq]
      exact hrun

/-- A register is polled as often as it takes. -/
theorem poll {n offset : Nat} {ready : BitVec 32 → Bool} {k : Driver α} (I : Nat → σ → Prop) {m : Nat} (hI : I m s)
    (hgo : ∀ m s, I m s → ∃ v s', D s (.read offset v) s')
    (hwait : ∀ m s v s', I m s → D s (.read offset v) s' → ready v = false → ∃ m', m' < m ∧ I m' s')
    (h : ∀ m s v s', I m s → D s (.read offset v) s' → ready v = true → Finishes D n s' k) :
    Finishes D (n + 1 + m) s (.poll offset ready k) := by
  induction m using Nat.strongRecOn generalizing s with
  | ind m ih =>
    obtain ⟨v, s', hd⟩ := hgo m s hI
    rw [Nat.add_right_comm]
    refine .step ⟨.read offset v, _, s', if_pos rfl, hd⟩ fun e q s' hs hd => ?_
    obtain ⟨v, rfl, rfl⟩ := step_poll hs
    cases hr : ready v with
    | true => exact (h m s v s' hI hd hr).mono (Nat.le_add_right n m)
    | false =>
      obtain ⟨m', hlt, hI'⟩ := hwait m s v s' hI hd hr
      exact (ih m' hlt hI').mono (by omega)

/-- A loop takes what its rounds take. -/
theorem forM {ι : Type} {l : List ι} {body : ι → Driver PUnit} {n : ι → Nat} (J : List ι → σ → Prop) (hJ : J [] s)
    (hE : ∀ pre i post, l = pre ++ i :: post → ∀ s, J pre s → Achieves D s (body i) fun _ s' => J (pre ++ [i]) s')
    (h : ∀ pre i post, l = pre ++ i :: post → ∀ s, J pre s → Finishes D (n i) s (body i)) :
    Finishes D (l.map n).sum s (l.forM body) := by
  suffices hgo : ∀ post pre s, l = pre ++ post → J pre s → Finishes D (post.map n).sum s (post.forM body) from
    hgo l [] s rfl hJ
  intro post
  induction post with
  | nil => exact fun pre s _ _ => .done _
  | cons i post ih =>
    intro pre s hl hpre
    rw [List.map_cons, List.sum_cons]
    refine bind (h pre i post hl s hpre)
      ((hE pre i post hl s hpre).mono (fun _ hi => hi) fun _ s' hs' => ih (pre ++ [i]) s' ?_ hs')
    rw [hl, List.append_assoc, List.singleton_append]

/-- It ends in time, and until then the device goes on answering. -/
theorem ends {n : Nat} (h : Finishes D n s p) {q : Driver α} (hpath : Path D s t s') (hrun : p.run t = some q) :
    t.length ≤ n ∧ ∃ t' a s'', Path D s' t' s'' ∧ q.run t' = some (.done a) := by
  induction h generalizing t q s' with
  | done a =>
    cases hpath with
    | nil =>
      obtain rfl := Option.some.inj hrun
      exact ⟨Nat.zero_le _, [], a, _, .nil _, rfl⟩
    | cons =>
      simp only [run, step_done, Option.bind_none] at hrun
      exact nomatch hrun
  | step hgo h ih =>
    cases hpath with
    | nil =>
      obtain rfl := Option.some.inj hrun
      obtain ⟨e, q, s₁, hs, hd⟩ := hgo
      obtain ⟨-, t', a, s₂, hpath', hrun'⟩ := ih e q s₁ hs hd (.nil s₁) (run_nil q)
      refine ⟨Nat.zero_le _, e :: t', a, s₂, .cons hd hpath', ?_⟩
      rw [run, hs]
      exact hrun'
    | cons hd hrest =>
      obtain ⟨q₁, hs, hq⟩ := Option.bind_eq_some_iff.mp hrun
      obtain ⟨hlen, hend⟩ := ih _ q₁ _ hs hd hrest hq
      exact ⟨Nat.succ_le_succ hlen, hend⟩

end Finishes

end Device

end Lib.Mmio
