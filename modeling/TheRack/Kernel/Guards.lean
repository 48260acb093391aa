/-
  Kernel/Guards.lean --- what a lock is on one core, from sync.rs.

  A guard masks interrupts when it is taken and puts back the mask it found when it is
  dropped.  Guards are taken under guards, and an interrupt that comes where nothing is
  masked runs code with guards of its own.  In every run a section under a guard is one
  step of the whole, as if nothing could come between.

  Guards end in the order opposite to the one they were taken in.  Dropped the other way
  round, the outer one first, they would unmask interrupts under the inner one.  Sections
  come to an end, and a handler returns to what it interrupted.
-/
import TheRack.Lib.Refines
import TheRack.Kernel.Critical

set_option autoImplicit false

namespace TheRack.Sync

open Lib

variable {σ : Type}

/-- Code that takes and drops guards.  What follows depends on what is there by then. -/
inductive Guarded (σ : Type)
  | done
  /-- code that leaves the mask alone -/
  | act (f : σ → σ) (k : σ → Guarded σ)
  /-- `lock` to the end of the guard's life, and `without_interrupts` -/
  | guard (body : Guarded σ) (k : σ → Guarded σ)

/-- What the code does when nothing comes between. -/
def Guarded.run : Guarded σ → σ → σ
  | done, s => s
  | act f k, s => (k (f s)).run (f s)
  | guard body k, s => (k (body.run s)).run (body.run s)

/-- A mask to put back, and what goes on then. -/
structure Held (σ : Type) where
  mask : Daif
  rest : σ → Guarded σ

/-- The code that runs, and the guards that are held around it. -/
structure Site (σ : Type) where
  code : Guarded σ
  state : σ
  daif : Daif
  held : List (Held σ)

/-- The mask that `disable_interrupts` leaves. -/
def disabled (d : Daif) : Daif := { d with irq := true, fiq := true }

/-- The mask that an exception is entered with. -/
def taken : Daif := ⟨true, true, true, true⟩

/-- Who takes a step. -/
inductive Mover
  | own
  | interrupt

/-- A step on one core, where the handler of an interrupt is one of `hs`.  The handler
returns to what it interrupted, with the mask that was there. -/
inductive Step (hs : Guarded σ → Prop) : Site σ → Mover → Site σ → Prop
  | act {f : σ → σ} {k : σ → Guarded σ} {s : σ} {d : Daif} {st : List (Held σ)} :
      Step hs ⟨.act f k, s, d, st⟩ .own ⟨k (f s), f s, d, st⟩
  | lock {body : Guarded σ} {k : σ → Guarded σ} {s : σ} {d : Daif} {st : List (Held σ)} :
      Step hs ⟨.guard body k, s, d, st⟩ .own ⟨body, s, disabled d, ⟨d, k⟩ :: st⟩
  | unlock {s : σ} {d : Daif} {x : Held σ} {st : List (Held σ)} :
      Step hs ⟨.done, s, d, x :: st⟩ .own ⟨x.rest s, s, x.mask, st⟩
  | interrupt {h p : Guarded σ} {s : σ} {d : Daif} {st : List (Held σ)} (hh : hs h) (hd : d.irq = false) :
      Step hs ⟨p, s, d, st⟩ .interrupt ⟨h, s, taken, ⟨d, fun _ => p⟩ :: st⟩

/-- The code has run to its end. -/
structure Site.Over (c : Site σ) : Prop where
  code : c.code = .done
  held : c.held = []

/-- Interrupts come between the steps of the code, and a section is one step. -/
inductive Serial (hs : Guarded σ → Prop) : Guarded σ → σ → σ → Prop
  | done {s : σ} : Serial hs .done s s
  | act {f : σ → σ} {k : σ → Guarded σ} {s s' : σ} (h : Serial hs (k (f s)) (f s) s') : Serial hs (.act f k) s s'
  | guard {body : Guarded σ} {k : σ → Guarded σ} {s s' : σ}
      (h : Serial hs (k (body.run s)) (body.run s) s') : Serial hs (.guard body k) s s'
  | interrupt {h p : Guarded σ} {s s' : σ} (hh : hs h) (hrest : Serial hs p (h.run s) s') : Serial hs p s s'

/-! ## The locks of the kernel -/

/-- The code, with the calls of sync.rs. -/
def Guarded.code : Guarded Kernel → Code Core Unit
  | done => pure ()
  | act f k => do
    inside (modify f)
    (k (← get).kernel).code
  | guard body k => do
    let state ← disableInterrupts
    body.code
    restoreInterrupts state
    (k (← get).kernel).code

theorem Guarded.code_eq (p : Guarded Kernel) (c : Core) :
    p.code c = .ok ((), { c with kernel := p.run c.kernel }) := by
  induction p generalizing c with
  | done => rfl
  | act f k ih => exact ih (f c.kernel) { c with kernel := f c.kernel }
  | guard body k ihbody ihk =>
    unfold code
    rw [Code.bind_ok (show disableInterrupts c = .ok (c.daif, { c with daif := disabled c.daif }) from rfl),
      Code.bind_ok (ihbody _)]
    exact ihk (body.run c.kernel) { c with kernel := body.run c.kernel }

/-- A lock of the kernel is such a guard. -/
theorem locked_modify (f : Kernel → Kernel) (c : Core) :
    locked (modify f) c = (Guarded.guard (.act f fun _ => .done) fun _ => .done).code c := rfl

/-- What is under the guards, and the mask. -/
def Site.core (c : Site Kernel) : Core := ⟨c.state, c.daif⟩

/-- A step of the code's own is work, `disable_interrupts`, or `restore_interrupts` of
the mask that the innermost guard found. -/
theorem Step.own_core {hs : Guarded Kernel → Prop} {c c' : Site Kernel} (h : Step hs c .own c') :
    (∃ f, inside (modify f) c.core = .ok ((), c'.core)) ∨
    disableInterrupts c.core = .ok (c.daif, c'.core) ∨
    ∃ x ∈ c.held.head?, restoreInterrupts x.mask c.core = .ok ((), c'.core) := by
  cases h with
  | @act f => exact .inl ⟨f, rfl⟩
  | lock => exact .inr (.inl rfl)
  | @unlock s d x => exact .inr (.inr ⟨x, rfl, rfl⟩)

/-! ## Sections -/

variable {hs : Guarded σ → Prop} {c c' : Site σ} {t : Mover}

/-- Under a guard interrupts are masked, and so they are where an inner guard was taken. -/
def Nested : Daif → List (Held σ) → Prop
  | _, [] => True
  | d, x :: st => d.irq = true ∧ Nested x.mask st

theorem Nested.masked {d : Daif} {st : List (Held σ)} (h : Nested d st) (hst : st ≠ []) : d.irq = true := by
  cases st with
  | nil => exact absurd rfl hst
  | cons x st => exact h.1

theorem Nested.step (hn : Nested c.daif c.held) (h : Step hs c t c') : Nested c'.daif c'.held := by
  cases h with
  | act => exact hn
  | lock => exact ⟨rfl, hn⟩
  | unlock => exact hn.2
  | interrupt hh hd => exact ⟨rfl, hn⟩

/-- Where the code may end up: a section goes through at one blow, and what is around it
after that. -/
def Leads (hs : Guarded σ → Prop) (d' : Daif) (s' : σ) : Daif → List (Held σ) → Guarded σ → σ → Prop
  | d, [], p, s => d' = d ∧ if d.irq = true then s' = p.run s else Serial hs p s s'
  | _, x :: st, p, s => Leads hs d' s' x.mask st (x.rest (p.run s)) (p.run s)

/-- Outside of all sections, for code that does the same. -/
theorem Leads.bottom {d d' : Daif} {s s₀ s' : σ} {p p' : Guarded σ} (hl : Leads hs d' s' d [] p' s₀)
    (hrun : p'.run s₀ = p.run s) (hserial : Serial hs p' s₀ s' → Serial hs p s s') : Leads hs d' s' d [] p s := by
  obtain ⟨hd', hl⟩ := hl
  refine ⟨hd', ?_⟩
  split
  · rename_i hd
    rw [if_pos hd] at hl
    exact hl.trans hrun
  · rename_i hd
    rw [if_neg hd] at hl
    exact hserial hl

/-- Where the code may end up after a step, it may end up before. -/
theorem Leads.step {d' : Daif} {s' : σ} (hn : Nested c.daif c.held) (h : Step hs c t c')
    (hl : Leads hs d' s' c'.daif c'.held c'.code c'.state) : Leads hs d' s' c.daif c.held c.code c.state := by
  cases h with
  | @act f k s d st =>
    cases st with
    | nil => exact hl.bottom rfl .act
    | cons x st => exact hl
  | @lock body k s d st =>
    cases st with
    | nil => exact hl.bottom rfl .guard
    | cons x st => exact hl
  | unlock => exact hl
  | @interrupt h p s d st hh hd =>
    cases st with
    | nil =>
      have hmask : ¬ d.irq = true := by
        rw [hd]
        exact Bool.false_ne_true
      have h2 := hl.2
      rw [if_neg hmask] at h2
      refine ⟨hl.1, ?_⟩
      rw [if_neg hmask]
      exact .interrupt hh h2
    | cons x st => exact nomatch hd.symm.trans hn.1

theorem Leads.path {l : List Mover} (hpath : Path (Step hs) c l c') (hn : Nested c.daif c.held) (hover : c'.Over) :
    Leads hs c'.daif c'.state c.daif c.held c.code c.state := by
  induction hpath with
  | nil c =>
    obtain ⟨code, state, daif, held⟩ := c
    obtain ⟨hcode, hheld⟩ := hover
    dsimp only at hcode hheld
    subst hcode hheld
    refine ⟨rfl, ?_⟩
    split
    · rfl
    · exact .done
  | cons h _ ih => exact .step hn h (ih (hn.step h) hover)

/-- Left alone the code gets to its end, and does what it does when nothing comes between. -/
theorem runs_through (p : Guarded σ) (s : σ) (d : Daif) (st : List (Held σ)) :
    ∃ l, Path (Step hs) ⟨p, s, d, st⟩ l ⟨.done, p.run s, d, st⟩ := by
  induction p generalizing s d st with
  | done => exact ⟨[], .nil _⟩
  | act f k ih =>
    obtain ⟨l, hl⟩ := ih (f s) (f s) d st
    exact ⟨_, .cons .act hl⟩
  | guard body k ihbody ihk =>
    obtain ⟨l, hl⟩ := ihbody s (disabled d) (⟨d, k⟩ :: st)
    obtain ⟨l', hl'⟩ := ihk (body.run s) (body.run s) d st
    exact ⟨_, .cons .lock (hl.append (.cons .unlock hl'))⟩

theorem gets_over (st : List (Held σ)) (p : Guarded σ) (s : σ) (d : Daif) :
    ∃ l c', Path (Step hs) ⟨p, s, d, st⟩ l c' ∧ c'.Over := by
  induction st generalizing p s d with
  | nil =>
    obtain ⟨l, hl⟩ := @runs_through σ hs p s d []
    exact ⟨l, _, hl, rfl, rfl⟩
  | cons x st ih =>
    obtain ⟨l, hl⟩ := @runs_through σ hs p s d (x :: st)
    obtain ⟨l', c', hl', hover⟩ := ih (x.rest (p.run s)) (p.run s) x.mask
    exact ⟨_, c', hl.append (.cons .unlock hl'), hover⟩

/-- In every run nothing interrupts a section; when the code is over the mask is the one it
found, and what it did is what it does with its sections, and the handlers, each at one
blow; and it always gets there when it is left alone. -/
theorem sections_are_atomic {p : Guarded σ} {s : σ} {d : Daif} {l : List Mover}
    (hpath : Path (Step hs) ⟨p, s, d, []⟩ l c) :
    (c.held ≠ [] → ∀ c', ¬ Step hs c .interrupt c') ∧
    (c.Over → c.daif = d ∧ if d.irq = true then c.state = p.run s else Serial hs p s c.state) ∧
    ∃ l' c', Path (Step hs) c l' c' ∧ c'.Over := by
  have hnested : Nested c.daif c.held :=
    hpath.keeps (P := fun c : Site σ => Nested c.daif c.held) (fun c a c' _ hn h => hn.step h) trivial
  refine ⟨fun hheld c' h => ?_, fun hover => Leads.path hpath trivial hover, gets_over c.held c.code c.state c.daif⟩
  cases h with
  | interrupt hh hd => exact nomatch hd.symm.trans (hnested.masked hheld)

/-- Two additions under a guard, and a handler that doubles. -/
theorem sections_are_atomic_sample :
    ∃ (l : List Mover) (c : Site Nat),
      Path (Step (· = .act (· * 2) fun _ => .done))
        ⟨.guard (.act (· + 1) fun _ => .act (· + 1) fun _ => .done) fun _ => .done, 3, ⟨false, false, false, false⟩, []⟩
        l c ∧ c.state = 8 ∧ c.daif = ⟨false, false, false, false⟩ := by
  have hpath : Path (Step (· = .act (· * 2) fun _ => .done))
      ⟨.guard (.act (· + 1) fun _ => .act (· + 1) fun _ => .done) fun _ => .done, 3, ⟨false, false, false, false⟩, []⟩
      [.interrupt, .own, .own, .own, .own, .own, .own] ⟨.done, 8, ⟨false, false, false, false⟩, []⟩ :=
    .cons (.interrupt rfl rfl) (.cons .act (.cons .unlock (.cons .lock (.cons .act (.cons .act (.cons .unlock
      (.nil _)))))))
  exact ⟨_, _, hpath, rfl, ((sections_are_atomic hpath).2.1 ⟨rfl, rfl⟩).1⟩

end TheRack.Sync
