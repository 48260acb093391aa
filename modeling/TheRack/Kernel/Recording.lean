/-
  Kernel/Recording.lean --- whose image is recorded.

  A kernel task that is taken off the CPU in `spawn_user_program` leaves a task
  behind that can run and has no image yet.  As long as such a task does not fault, and
  its slot is not given to another program, every image is that of the program in the
  slot, and every task with a space has one or is about to.
-/
import TheRack.Kernel.Images

set_option autoImplicit false

namespace TheRack

open Lib Frames Paging Ipc Tasks
open Function (update update_self update_of_ne)

/-- Some kernel task is about to record an image for `s`. -/
def Kernel.Awaiting (k : Kernel) (s : Slot) : Prop := ∃ image, k.Awaits (s, image)

/-- The program the action puts in a slot. -/
def Action.program : Action → Option Image
  | thread (.spawnUserProgram image _) => some image
  | _ => none

/-- No task faults, and no program gets a slot, that some kernel task is about to record
an image for. -/
def Action.Patient (k : Kernel) (a : Action) : Prop :=
  (a.stop = some .faulted → ¬ k.Awaiting k.current) ∧
    (a.program ≠ none → ∀ s ∈ k.freeSlot, ¬ k.Awaiting s)

/-- The program in each slot, after a step. -/
def remember (programs : Slot → Option Image) (a : Action) (k' : Kernel) : Slot → Option Image :=
  match a, k'.cpu.due with
  | .thread (.spawnUserProgram _ _), some (id, image) => update programs id (some image)
  | _, _ => programs

/-- The states of runs, each with the program that `spawn_user_program` last put in
each slot. -/
def Remembered (B : Set Nat) (e : Nat) (R : Kernel → Action → Prop) :
    Kernel × (Slot → Option Image) → Prop :=
  Lib.Run (fun c => c.1.Booted B e ∧ c.2 = fun _ => none) fun c a c' =>
    (R c.1 a ∧ c.1.Step a c'.1) ∧ c'.2 = remember c.2 a c'.1

namespace Kernel

/-- The images are those of the programs. -/
structure Recorded (programs : Slot → Option Image) (k : Kernel) : Prop where
  /-- every image is that of the program in the slot -/
  image : ∀ s t, k.tasks s = some t → t.image ≠ none → t.image = programs s
  /-- so is every image that is about to be recorded, and the task has not faulted -/
  due : ∀ s image, k.Awaits (s, image) →
    programs s = some image ∧ ∀ t, k.tasks s = some t → t.state ≠ .faulted
  /-- every task with a space has an image or is about to -/
  space : ∀ s t, k.tasks s = some t → t.space ≠ none →
    t.image ≠ none ∨ ∃ image, k.Awaits (s, image)
  /-- every task but the first came with a stack -/
  owns : ∀ s t, k.tasks s = some t → s.val = 0 ∨ t.ownsStack = true

variable {programs : Slot → Option Image} {B : Set Nat} {e : Nat} {σ : Option State} {k k' : Kernel}
variable {a : Action} {s : Slot} {p : Slot × Image} {t : Task}

/-! ## Steps that make no task and record nothing -/

/-- Nobody comes to stand before a recording. -/
theorem Over.awaits_of (h : k.Over σ k') (ha : k'.Awaits p) : k.Awaits p := by
  rcases ha with hdue | ⟨x, t, hx, halive, hdue, hoff⟩
  · rcases h.held with ⟨-, -, hsame⟩ | ⟨hresuming, -⟩
    · exact .inl (hsame ▸ hdue)
    · rw [hresuming] at hdue
      exact nomatch hdue
  obtain ⟨t₀, ht₀, hages⟩ := h.task x t hx
  rcases hages.resume with ⟨hsame, hrise⟩ | hsame
  · rcases eq_or_ne x k.current with rfl | hne
    · rcases h.held with ⟨hcpu, hcurrent, -⟩ | ⟨-, hshelved⟩
      · rcases hoff with hne | hresuming
        · exact absurd hcurrent.symm hne
        · exact absurd hresuming hcpu
      · exact .inl ((hshelved t hx).symm.trans hdue)
    · exact .inr ⟨x, t₀, ht₀, (hrise halive).resolve_left hne, hsame ▸ hdue, .inl hne⟩
  · exact .inl (hsame.symm.trans hdue)

/-- A kernel task before a recording stops nobody. -/
theorem stop_of_due (henabled : a.Enabled k) (hdue : k.cpu.due = some p) : a.stop = none := by
  cases a with
  | svc x =>
    have hcpu : k.cpu = .user := henabled
    rw [hcpu] at hdue
    exact nomatch hdue
  | fault cause =>
    have hcpu : k.cpu = .user := henabled
    rw [hcpu] at hdue
    exact nomatch hdue
  | thread op =>
    obtain ⟨⟨masked, hcpu⟩, -⟩ := henabled
    rw [hcpu] at hdue
    exact nomatch hdue
  | _ => rfl

/-- The task on the CPU is alive, unless it is a kernel task on its way out. -/
theorem Ready.alive_of_due (h : k.Ready B e) (hdue : k.cpu.due = some p) :
    ∃ t, k.tasks k.current = some t ∧ t.Alive := by
  obtain ⟨t, ht, hon⟩ := h.onCpu
  refine ⟨t, ht, ?_⟩
  cases hcpu : k.cpu with
  | user =>
    rw [hcpu] at hon
    exact .inl hon.1
  | resuming =>
    rw [hcpu] at hdue
    exact nomatch hdue
  | thread point masked =>
    rw [hcpu] at hon hdue
    have hending : point.ending = false := by
      cases point with
      | recording id image => rfl
      | _ => exact nomatch hdue
    have hstate := hon.2.2.1
    rw [hending] at hstate
    exact .inl hstate

/-- Whoever stands before a recording goes on standing there. -/
theorem Over.awaits (h : k.Over a.stop k') (hready : k.Ready B e) (henabled : a.Enabled k)
    (hnotes : ¬ k.Notes a) (hkept : Kept B k k') (ha : k.Awaits p) : k'.Awaits p := by
  rcases ha with hdue | ⟨x, t, hx, halive, hdue, hoff⟩
  · rcases h.held with ⟨-, -, hsame⟩ | ⟨hresuming, hshelved⟩
    · exact .inl (hsame.trans hdue)
    · obtain ⟨t₀, ht₀, halive⟩ := hready.alive_of_due hdue
      obtain ⟨t, ht, -⟩ := hkept.task _ t₀ ht₀ (.inl halive)
      obtain ⟨t₁, ht₁, hages⟩ := h.task _ t ht
      obtain rfl := Option.some.inj (ht₀.symm.trans ht₁)
      exact .inr ⟨k.current, t, ht, hages.alive (stop_of_due henabled hdue) halive,
        (hshelved t ht).trans hdue, .inr hresuming⟩
  rcases eq_or_ne x k.current with rfl | hne
  · -- it is about to be resumed there, which is none of these steps
    have hresuming := hoff.resolve_left (not_not.mpr rfl)
    refine absurd ?_ hnotes
    cases a with
    | resume => exact ⟨t, hx, by rw [hdue]; nofun⟩
    | irq intid => exact absurd (by rw [hresuming]; rfl) henabled
    | svc x => exact nomatch hresuming.symm.trans henabled
    | fault cause => exact nomatch hresuming.symm.trans henabled
    | store va value => exact nomatch hresuming.symm.trans henabled.1
    | thread op =>
      obtain ⟨⟨masked, hcpu⟩, -⟩ := henabled
      exact nomatch hresuming.symm.trans hcpu
    | next =>
      obtain ⟨point, masked, hcpu, -⟩ := henabled
      exact nomatch hresuming.symm.trans hcpu
  · obtain ⟨t', ht', -, hother⟩ := hkept.task x t hx (.inl halive)
    obtain ⟨halive', hsame⟩ := hother hne
    refine .inr ⟨x, t', ht', halive', hsame ▸ hdue, ?_⟩
    rcases h.held with ⟨-, hcurrent, -⟩ | ⟨hresuming, -⟩
    · exact .inl (hcurrent ▸ hne)
    · exact .inr hresuming

theorem Recorded.over (h : k.Recorded programs) (hover : k.Over a.stop k') (hready : k.Ready B e)
    (henabled : a.Enabled k) (hnotes : ¬ k.Notes a) (hkept : Kept B k k') (hpatient : a.Patient k) :
    k'.Recorded programs where
  image s t ht himage := by
    obtain ⟨t₀, ht₀, hages⟩ := hover.task s t ht
    rw [hages.image] at himage ⊢
    exact h.image s t₀ ht₀ himage
  due s image ha := by
    have ha₀ := hover.awaits_of ha
    obtain ⟨hprogram, hfine⟩ := h.due s image ha₀
    refine ⟨hprogram, fun t ht hfaulted => ?_⟩
    obtain ⟨t₀, ht₀, hages⟩ := hover.task s t ht
    rcases hages.faulted hfaulted with hfaulted₀ | ⟨rfl, hstop⟩
    · exact hfine t₀ ht₀ hfaulted₀
    · exact hpatient.1 hstop ⟨image, ha₀⟩
  space s t ht hspace := by
    obtain ⟨t₀, ht₀, hages⟩ := hover.task s t ht
    rw [hages.image]
    rcases hages.space hspace with hspace₀ | himage
    · exact (h.space s t₀ ht₀ hspace₀).imp_right fun ⟨image, ha⟩ =>
        ⟨image, hover.awaits hready henabled hnotes hkept ha⟩
    · exact .inl himage
  owns s t ht := by
    obtain ⟨t₀, ht₀, hages⟩ := hover.task s t ht
    rw [hages.owns]
    exact h.owns s t₀ ht₀

/-! ## Tasks that are made -/

/-- The kernel task on the CPU put `u` in the empty slot `s`. -/
structure Places (s : Slot) (u : Task) (k k' : Kernel) : Prop where
  free : k.freeSlot = some s
  tasks : k'.tasks = update k.tasks s (some u)
  current : k'.current = k.current
  due : k.cpu.due = none
  running : k.cpu ≠ .resuming ∧ k'.cpu ≠ .resuming
  image : u.image = none
  resume : u.resume.due = none
  state : u.state = .runnable
  owns : u.ownsStack = true

variable {u : Task} {image : Image}

namespace Places

theorem self (h : Places s u k k') : k'.tasks s = some u := by
  rw [h.tasks, update_self]

theorem other (h : Places s u k k') {x : Slot} (hne : x ≠ s) : k'.tasks x = k.tasks x := by
  rw [h.tasks, update_of_ne hne]

theorem ne (h : Places s u k k') {x : Slot} (hx : k.tasks x = some t) : x ≠ s := by
  rintro rfl
  exact nomatch (freeSlot_some h.free).symm.trans hx

theorem fine (h : Places s u k k') {x : Slot} (hfine : ∀ t, k.tasks x = some t → t.state ≠ .faulted)
    (hx : k'.tasks x = some t) : t.state ≠ .faulted := by
  rcases eq_or_ne x s with rfl | hne
  · obtain rfl := Option.some.inj (h.self.symm.trans hx)
    rw [h.state]
    nofun
  · exact hfine t ((h.other hne).symm.trans hx)

theorem awaits (h : Places s u k k') : k'.Awaits p ↔ k'.cpu.due = some p ∨ k.Awaits p := by
  constructor
  · rintro (hdue | ⟨x, t, hx, halive, hdue, hoff⟩)
    · exact .inl hdue
    refine .inr (.inr ⟨x, t, ?_, halive, hdue, .inl ?_⟩)
    · rcases eq_or_ne x s with rfl | hne
      · obtain rfl := Option.some.inj (h.self.symm.trans hx)
        exact nomatch h.resume.symm.trans hdue
      · exact (h.other hne).symm.trans hx
    · exact h.current ▸ hoff.resolve_right h.running.2
  · rintro (hdue | hdue | ⟨x, t, hx, halive, hdue, hoff⟩)
    · exact .inl hdue
    · exact nomatch h.due.symm.trans hdue
    · refine .inr ⟨x, t, (h.other (h.ne hx)).trans hx, halive, hdue, .inl ?_⟩
      exact h.current ▸ hoff.resolve_right h.running.1

theorem owned (hp : Places s u k k') (h : k.Recorded programs) (x : Slot) (t : Task)
    (hx : k'.tasks x = some t) : x.val = 0 ∨ t.ownsStack = true := by
  rcases eq_or_ne x s with rfl | hne
  · obtain rfl := Option.some.inj (hp.self.symm.trans hx)
    exact .inr hp.owns
  · exact h.owns x t ((hp.other hne).symm.trans hx)

/-- A kernel task. -/
theorem recorded (hp : Places s u k k') (h : k.Recorded programs) (hdue : k'.cpu.due = none)
    (hspace : u.space = none) : k'.Recorded programs where
  image x t hx himage := by
    rcases eq_or_ne x s with rfl | hne
    · obtain rfl := Option.some.inj (hp.self.symm.trans hx)
      exact absurd hp.image himage
    · exact h.image x t ((hp.other hne).symm.trans hx) himage
  due x image ha := by
    rcases hp.awaits.mp ha with hnow | ha
    · exact nomatch hdue.symm.trans hnow
    obtain ⟨hprogram, hfine⟩ := h.due x image ha
    exact ⟨hprogram, fun _ hx => hp.fine hfine hx⟩
  space x t hx ht := by
    rcases eq_or_ne x s with rfl | hne
    · obtain rfl := Option.some.inj (hp.self.symm.trans hx)
      exact absurd hspace ht
    · exact (h.space x t ((hp.other hne).symm.trans hx) ht).imp_right fun ⟨image, ha⟩ =>
        ⟨image, hp.awaits.mpr (.inr ha)⟩
  owns := hp.owned h

/-- A user task, whose image is about to be recorded. -/
theorem recorded_program (hp : Places s u k k') (h : k.Recorded programs)
    (hnobody : ¬ k.Awaiting s) (hdue : k'.cpu.due = some (s, image)) :
    k'.Recorded (update programs s (some image)) where
  image x t hx himage := by
    rcases eq_or_ne x s with rfl | hne
    · obtain rfl := Option.some.inj (hp.self.symm.trans hx)
      exact absurd hp.image himage
    · rw [update_of_ne hne]
      exact h.image x t ((hp.other hne).symm.trans hx) himage
  due x image' ha := by
    rcases hp.awaits.mp ha with hnow | ha
    · obtain ⟨rfl, rfl⟩ := Prod.mk.inj (Option.some.inj (hdue.symm.trans hnow))
      refine ⟨update_self .., fun t ht => ?_⟩
      obtain rfl := Option.some.inj (hp.self.symm.trans ht)
      rw [hp.state]
      nofun
    obtain ⟨hprogram, hfine⟩ := h.due x image' ha
    have hne : x ≠ s := fun heq => hnobody ⟨image', heq ▸ ha⟩
    exact ⟨(update_of_ne hne ..).trans hprogram, fun _ hx => hp.fine hfine hx⟩
  space x t hx ht := by
    rcases eq_or_ne x s with rfl | hne
    · exact .inr ⟨image, .inl hdue⟩
    · exact (h.space x t ((hp.other hne).symm.trans hx) ht).imp_right fun ⟨image, ha⟩ =>
        ⟨image, hp.awaits.mpr (.inr ha)⟩
  owns := hp.owned h

end Places

/-- What `spawn_in` has done when it returns. -/
theorem of_spawnIn {space : Option Nat} {priority : Nat}
    (h : spawnIn space priority k = .ok (s, k')) : k.freeSlot = some s ∧ ∃ u q,
      k' = ({ k.setTask s u with phys := q } : Kernel).log (.started s) ∧ u.space = space ∧
        u.image = none ∧ u.state = .runnable ∧ u.resume = .start ∧ u.ownsStack = true := by
  unfold spawnIn at h
  obtain ⟨found, k₁, halloc, h⟩ := Code.of_bind_ok h
  obtain ⟨stack, k₂, hstack, h⟩ := Code.of_bind_ok h
  rw [Code.bind_ok (Code.get_apply k₂)] at h
  obtain ⟨x, k₃, hslot, h⟩ := Code.of_bind_ok h
  have hphys : ∃ q, k₁ = { k with phys := q } := by
    unfold onPhys at halloc
    cases hx : allocContiguous stackFrames k.phys with
    | error c =>
      rw [hx] at halloc
      exact nomatch halloc
    | ok r =>
      rw [hx] at halloc
      obtain ⟨-, rfl⟩ := Prod.ext_iff.mp (Except.ok.inj halloc)
      exact ⟨r.2, rfl⟩
  obtain ⟨q, rfl⟩ := hphys
  cases found with
  | none => exact nomatch hstack
  | some f =>
    obtain ⟨rfl, rfl⟩ := Prod.ext_iff.mp (Except.ok.inj hstack)
    simp only at hslot h
    cases hfree : k.freeSlot with
    | none =>
      rw [show ({ k with phys := q } : Kernel).freeSlot = none from hfree] at hslot
      exact nomatch hslot
    | some y =>
      rw [show ({ k with phys := q } : Kernel).freeSlot = some y from hfree] at hslot
      obtain ⟨rfl, rfl⟩ := Prod.ext_iff.mp (Except.ok.inj hslot)
      obtain ⟨rfl, rfl⟩ := Prod.ext_iff.mp (Except.ok.inj h)
      exact ⟨rfl, _, q, rfl, rfl, rfl, rfl, rfl, rfl⟩

theorem remember_eq (h : ∀ image priority, a ≠ .thread (.spawnUserProgram image priority)) :
    remember programs a k' = programs := by
  unfold remember
  split
  · exact absurd rfl (h _ _)
  · rfl

theorem Step.recorded_spawn {priority : Nat} (h : k.Step (.thread (.spawn priority)) k')
    (hrec : k.Recorded programs) : k'.Recorded programs := by
  obtain ⟨⟨⟨masked, hcpu⟩, -⟩, hperform⟩ := h
  suffices hmeets : Meets (Action.thread (.spawn priority)).perform k
      (fun _ k' => k'.Recorded programs) fun _ => True from hmeets.ok hperform
  refine .get ?_
  rw [hcpu]
  refine .discard (.of_returns fun s k' hspawn => ?_)
  obtain ⟨hfree, u, q, rfl, hspace, himage, hstate, hresume, howns⟩ := of_spawnIn hspawn
  have hp : Places s u k (({ k.setTask s u with phys := q } : Kernel).log (.started s)) :=
    ⟨hfree, rfl, rfl, by rw [hcpu]; rfl, ⟨by rw [hcpu]; nofun, fun hr => nomatch hcpu.symm.trans hr⟩,
      himage, by rw [hresume]; rfl, hstate, howns⟩
  refine hp.recorded hrec ?_ hspace
  show k.cpu.due = none
  rw [hcpu]
  rfl

/-- `spawn_user_program`, up to where it records the image. -/
theorem Step.places_program {image : Image} {priority : Nat}
    (h : k.Step (.thread (.spawnUserProgram image priority)) k') :
    ∃ s u, Places s u k k' ∧ k'.cpu.due = some (s, image) := by
  obtain ⟨⟨⟨masked, hcpu⟩, -⟩, hperform⟩ := h
  suffices hmeets : Meets (Action.thread (.spawnUserProgram image priority)).perform k (fun _ k' =>
      ∃ s u, Places s u k k' ∧ k'.cpu.due = some (s, image)) fun _ => True from
    hmeets.ok hperform
  refine .get ?_
  rw [hcpu]
  refine .bind (P := fun s k' => ∃ u q, k.freeSlot = some s ∧
    k' = ({ k.setTask s u with phys := q } : Kernel).log (.started s) ∧ u.image = none ∧
      u.state = .runnable ∧ u.resume = .start ∧ u.ownsStack = true) ?_ ?_
  · have hbuild : Keeps (fun k₁ => ∃ p, k₁ = { k with phys := p }) (onPhys (buildUserSpace image)) :=
      keeps_onPhys (fun _ _ ⟨_, hk⟩ => ⟨_, by rw [hk]⟩) _
    refine .bind (hbuild k ⟨k.phys, rfl⟩) ?_
    rintro root _ ⟨p, rfl⟩
    refine .of_returns fun s k' hspawn => ?_
    obtain ⟨hfree, u, q, rfl, -, hnew⟩ := of_spawnIn hspawn
    exact ⟨u, q, hfree, rfl, hnew⟩
  · rintro s _ ⟨u, q, hfree, rfl, himage, hstate, hresume, howns⟩
    refine .of_ok (a := ()) rfl ⟨s, u, ?_, rfl⟩
    exact ⟨hfree, rfl, rfl, by rw [hcpu]; rfl, ⟨by rw [hcpu]; nofun, nofun⟩, himage,
      by rw [hresume]; rfl, hstate, howns⟩

theorem Step.remember_program (programs : Slot → Option Image) {image : Image} {priority : Nat}
    (h : k.Step (.thread (.spawnUserProgram image priority)) k') : ∃ s u, Places s u k k' ∧
      k'.cpu.due = some (s, image) ∧
      remember programs (.thread (.spawnUserProgram image priority)) k' =
        update programs s (some image) := by
  obtain ⟨s, u, hp, hdue⟩ := h.places_program
  refine ⟨s, u, hp, hdue, ?_⟩
  unfold remember
  simp only [hdue]

theorem Step.recorded_program {image : Image} {priority : Nat}
    (h : k.Step (.thread (.spawnUserProgram image priority)) k')
    (hpatient : Action.Patient k (.thread (.spawnUserProgram image priority)))
    (hrec : k.Recorded programs) :
    k'.Recorded (remember programs (.thread (.spawnUserProgram image priority)) k') := by
  obtain ⟨s, u, hp, hdue, heq⟩ := h.remember_program programs
  rw [heq]
  exact hp.recorded_program hrec (hpatient.2 nofun s hp.free) hdue

theorem recordImage_eq (k : Kernel) (id : Slot) (image : Image) :
    recordImage id image k = .ok ((), k.mapTask id fun task => { task with image := some image }) := by
  have hmatch := match_eq_mapTask (k := k) (s := id) (f := fun task => { task with image := some image })
  exact congrArg (fun k' => Except.ok ((), k')) hmatch

/-- The image of a task is recorded. -/
theorem Step.recorded_next (h : k.Step .next k') (hdue : k.cpu.due ≠ none)
    (hrec : k.Recorded programs) : k'.Recorded programs := by
  obtain ⟨⟨point, masked, hcpu, -⟩, hperform⟩ := h
  suffices hmeets : Meets Action.next.perform k (fun _ k' => k'.Recorded programs) fun _ => True from
    hmeets.ok hperform
  refine .get ?_
  rw [hcpu] at hdue ⊢
  cases point with
  | recording id image =>
    have hnow : k.Awaits (id, image) := .inl (by rw [hcpu]; rfl)
    obtain ⟨hprogram, -⟩ := hrec.due id image hnow
    refine .step (recordImage_eq k id image) (.of_ok (a := ()) rfl ?_)
    set f : Task → Task := fun task => { task with image := some image }
    set k' : Kernel := { k.mapTask id f with cpu := .thread .idle masked }
    have hother : ∀ {x}, x ≠ id → k'.tasks x = k.tasks x := fun hne => mapTask_of_ne hne
    -- apart from the image, the tasks are what they were
    have hback : ∀ {x u}, k'.tasks x = some u → ∃ u₀, k.tasks x = some u₀ ∧ u₀.state = u.state ∧
        u₀.resume = u.resume ∧ u₀.ownsStack = u.ownsStack := by
      intro x u hx
      rcases eq_or_ne x id with rfl | hne
      · obtain ⟨u₀, hu₀, rfl⟩ := of_mapTask_self (k := k) hx
        exact ⟨u₀, hu₀, rfl, rfl, rfl⟩
      · exact ⟨u, (hother hne).symm.trans hx, rfl, rfl, rfl⟩
    have hforth : ∀ {x u}, k.tasks x = some u → ∃ u', k'.tasks x = some u' ∧ u.state = u'.state ∧
        u.resume = u'.resume := by
      intro x u hx
      rcases eq_or_ne x id with rfl | hne
      · exact ⟨f u, mapTask_self (k := k) hx, rfl, rfl⟩
      · exact ⟨u, (hother hne).trans hx, rfl, rfl⟩
    have halive : ∀ {u u' : Task}, u.state = u'.state → u.Alive → u'.Alive := fun hsame ha =>
      ha.imp hsame.symm.trans hsame.symm.trans
    refine ⟨fun x u hx himage => ?_, fun x image' ha => ?_, fun x u hx hu => ?_, fun x u hx => ?_⟩
    · rcases eq_or_ne x id with rfl | hne
      · obtain ⟨u₀, -, rfl⟩ := of_mapTask_self (k := k) hx
        exact hprogram.symm
      · exact hrec.image x u ((hother hne).symm.trans hx) himage
    · have ha₀ : k.Awaits (x, image') := by
        rcases ha with hnone | ⟨y, u, hy, hu, hdue', hoff⟩
        · exact nomatch hnone
        · obtain ⟨u₀, hu₀, hstate, hresume, -⟩ := hback hy
          exact .inr ⟨y, u₀, hu₀, halive hstate.symm hu, hresume ▸ hdue', .inl (hoff.resolve_right nofun)⟩
      obtain ⟨hprogram', hfine⟩ := hrec.due x image' ha₀
      refine ⟨hprogram', fun u hu => ?_⟩
      obtain ⟨u₀, hu₀, hstate, -⟩ := hback hu
      exact hstate ▸ hfine u₀ hu₀
    · rcases eq_or_ne x id with rfl | hne
      · obtain ⟨u₀, -, rfl⟩ := of_mapTask_self (k := k) hx
        exact .inl nofun
      · refine (hrec.space x u ((hother hne).symm.trans hx) hu).imp_right fun ⟨image', ha⟩ => ?_
        refine ⟨image', ?_⟩
        rcases ha with hnow' | ⟨y, v, hy, hv, hdue', hoff⟩
        · rw [hcpu] at hnow'
          exact absurd (congrArg Prod.fst (Option.some.inj hnow')).symm hne
        · obtain ⟨v', hv', hstate, hresume⟩ := hforth hy
          refine .inr ⟨y, v', hv', halive hstate hv, hresume ▸ hdue', .inl (hoff.resolve_right ?_)⟩
          rw [hcpu]
          nofun
    · obtain ⟨u₀, hu₀, -, -, howns⟩ := hback hx
      exact howns ▸ hrec.owns x u₀ hu₀
  | _ => exact absurd rfl hdue

/-- A kernel task gets the CPU back before a recording. -/
theorem Step.recorded_resume (h : k.Step .resume k') (hready : k.Ready B e)
    (ht : k.tasks k.current = some t) (hdue : t.resume.due ≠ none) (hrec : k.Recorded programs) :
    k'.Recorded programs := by
  obtain ⟨henabled, hperform⟩ := h
  have hcpu : k.cpu = .resuming := henabled
  have halive : t.Alive := by
    obtain ⟨u, hu, hon⟩ := hready.onCpu
    obtain rfl := Option.some.inj (ht.symm.trans hu)
    rw [hcpu] at hon
    exact hon.imp_right And.left
  cases hresume : t.resume with
  | toThread point masked =>
    have hk' : k' = { k with cpu := .thread point masked } := by
      have hrun : Syscall.resume k = .ok ((), { k with cpu := .thread point masked }) := by
        unfold Syscall.resume
        rw [Code.bind_ok (Code.get_apply k)]
        simp only [ht, hresume]
        rfl
      exact (Prod.ext_iff.mp (Except.ok.inj (hperform.symm.trans hrun))).2
    subst hk'
    have hiff : ∀ p, ({ k with cpu := .thread point masked } : Kernel).Awaits p ↔ k.Awaits p := by
      intro p
      constructor
      · rintro (hp | ⟨x, u, hx, hu, hp, hoff⟩)
        · exact .inr ⟨k.current, t, ht, halive, by rw [hresume]; exact hp, .inr hcpu⟩
        · exact .inr ⟨x, u, hx, hu, hp, .inr hcpu⟩
      · rintro (hp | ⟨x, u, hx, hu, hp, hoff⟩)
        · rw [hcpu] at hp
          exact nomatch hp
        · rcases eq_or_ne x k.current with rfl | hne
          · obtain rfl := Option.some.inj (ht.symm.trans hx)
            rw [hresume] at hp
            exact .inl hp
          · exact .inr ⟨x, u, hx, hu, hp, .inl hne⟩
    exact ⟨hrec.image, fun s image ha => hrec.due s image ((hiff _).mp ha), fun s u hs hu =>
      (hrec.space s u hs hu).imp_right fun ⟨image, ha⟩ => ⟨image, (hiff _).mpr ha⟩, hrec.owns⟩
  | _ =>
    rw [hresume] at hdue
    exact absurd rfl hdue

/-- Every step, as long as nobody faults whose image is still to be recorded. -/
theorem Step.recorded (h : k.Step a k') (hready : k.Ready B e) (hpatient : a.Patient k)
    (hrec : k.Recorded programs) : k'.Recorded (remember programs a k') := by
  by_cases hnotes : k.Notes a
  · cases a with
    | thread op =>
      cases op with
      | spawn priority =>
        rw [remember_eq (a := .thread (.spawn priority)) fun _ _ => nofun]
        exact h.recorded_spawn hrec
      | spawnUserProgram image priority => exact h.recorded_program hpatient hrec
      | _ => exact hnotes.elim
    | next =>
      rw [remember_eq (a := .next) fun _ _ => nofun]
      exact h.recorded_next hnotes hrec
    | resume =>
      obtain ⟨t, ht, hdue⟩ := hnotes
      rw [remember_eq (a := .resume) fun _ _ => nofun]
      exact h.recorded_resume hready ht hdue hrec
    | _ => exact hnotes.elim
  · have hprogram : ∀ image priority, a ≠ .thread (.spawnUserProgram image priority) := by
      rintro image priority rfl
      exact hnotes trivial
    rw [remember_eq hprogram]
    obtain ⟨t, ht⟩ := hready.current
    have hkept := (hready.after (P := fun _ _ => True) (Q := False) h (fun _ _ _ => trivial) nofun).kept
    exact hrec.over (h.over (by rw [ht]; nofun) hnotes) hready h.1 hnotes hkept hpatient

theorem Booted.recorded (h : k.Booted B e) : k.Recorded fun _ => none := by
  have hnobody : ∀ p, ¬ k.Awaits p := by
    rintro p (hdue | ⟨x, t, hx, -, hdue, -⟩)
    · rw [h.cpu] at hdue
      exact nomatch hdue
    · obtain ⟨-, rfl⟩ := h.task hx
      exact nomatch hdue
  refine ⟨fun s t ht himage => ?_, fun s image ha => absurd ha (hnobody _), fun s t ht hspace => ?_,
    fun s t ht => .inl (h.task ht).1⟩
  · obtain ⟨-, rfl⟩ := h.task ht
    exact absurd rfl himage
  · obtain ⟨-, rfl⟩ := h.task ht
    exact absurd rfl hspace

end Kernel

namespace Remembered

variable {B : Set Nat} {e : Nat} {R : Kernel → Action → Prop} {c : Kernel × (Slot → Option Image)}

/-- Remembering takes nothing from the runs. -/
theorem reachable (h : Remembered B e R c) : Reachable B e R c.1 := by
  induction h with
  | start hinit => exact .start hinit.1
  | step a _ hstep ih => exact .step a ih hstep.1

/-- Nor does it add any. -/
theorem of_reachable {k : Kernel} (h : Reachable B e R k) : ∃ programs, Remembered B e R (k, programs) := by
  induction h with
  | start hinit => exact ⟨_, .start ⟨hinit, rfl⟩⟩
  | @step k k' a _ hstep ih =>
    obtain ⟨programs, hrun⟩ := ih
    exact ⟨remember programs a k', .step a hrun ⟨hstep, rfl⟩⟩

/-- Along runs in which nobody faults whose image is still to be recorded, the images
are those of the programs. -/
theorem recorded (h : Remembered B e R c) (hR : ∀ k a, R k a → a.Patient k) : c.1.Recorded c.2 := by
  refine Run.invariant_of_run (P := fun c => c.1.Recorded c.2) (fun c hinit => ?_)
    (fun c a c' hrun hrec hstep => ?_) h
  · rw [hinit.2]
    exact hinit.1.recorded
  · rw [hstep.2]
    exact hstep.1.2.recorded (reachable hrun).ready (hR _ a hstep.1.1) hrec

end Remembered

end TheRack
