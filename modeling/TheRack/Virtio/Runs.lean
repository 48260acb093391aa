/-
  Virtio/Runs.lean --- the driver and the device, in any order.

  Four things happen, and everything else leaves the frame of the rings alone:
  the driver adds a chain, the device consumes an entry of the available ring, it
  reports a chain it holds, and the driver takes a report.  The device reports
  each chain it holds once.  What is on its way between the two is a function of
  what has happened.
-/
import TheRack.Virtio.Chains
import TheRack.Frames.Specs
import Mathlib.Data.List.Perm.Basic

set_option autoImplicit false

namespace TheRack.Virtio

open Lib Frames

/-- The rings and the driver's bookkeeping; how far the device has consumed the
available ring, and which chains it holds. -/
structure Line where
  mem : Mem
  queue : Queue
  seen : Nat
  held : List Nat

/-- What the driver works on. -/
def Line.driver (s : Line) : Driver := ⟨s.mem, s.queue⟩

/-- What the driver did. -/
def Line.drove (s : Line) (d : Driver) : Line := { s with mem := d.mem, queue := d.queue }

/-- What happens to a chain, and everything else. -/
inductive Event
  | added (head : Nat) (buffers : List Buffer)
  | consumed (head : Nat)
  | completed (head written : Nat)
  | taken (head written : Nat)
  | other

/-- The entry of the available ring the device looks at next. -/
def Line.offered (s : Line) : Nat := s.queue.availableEntry s.mem (s.seen % queueSize)

/-- One step. -/
inductive Step : Line → Event → Line → Prop
  | add {s : Line} {d : Driver} {buffers : List Buffer} {head : Nat} :
      add buffers s.driver = .ok (.ok head, d) → Step s (.added head buffers) (s.drove d)
  | refuse {s : Line} {d : Driver} {buffers : List Buffer} {e : Error} :
      add buffers s.driver = .ok (.error e, d) → Step s .other (s.drove d)
  | consume {s : Line} : s.seen ≠ s.queue.availableIndex s.mem → Step s (.consumed s.offered)
      { s with seen := wrappingAdd16 s.seen 1, held := s.held ++ [s.offered] }
  | complete {s : Line} {head written : Nat} : head ∈ s.held → written < 2 ^ 32 →
      Step s (.completed head written)
        { s with mem := s.queue.report s.mem head written, held := s.held.erase head }
  | take {s : Line} {d : Driver} {head written : Nat} :
      takeUsed s.driver = .ok (some (head, written), d) → Step s (.taken head written) (s.drove d)
  | idle {s : Line} {d : Driver} : takeUsed s.driver = .ok (none, d) → Step s .other (s.drove d)
  | elsewhere {s : Line} {m : Mem} :
      (∀ x, s.queue.frame ≤ x → x < s.queue.frame + frameSize → m x = s.mem x) →
      Step s .other { s with mem := m }

/-- The line as `Queue::new` leaves it. -/
def Fresh (s : Line) : Prop :=
  ∃ (t t' : Port) (index : Nat), t.phys.frames.Wf ∧
    Queue.new index t = .ok (.ok s.queue, t') ∧ s.mem = t'.phys.mem ∧ s.seen = 0 ∧ s.held = []

/-- A run, and what happened in it. -/
inductive Runs : Line → List Event → Prop
  | start {s : Line} : Fresh s → Runs s []
  | step {s s' : Line} {es : List Event} {e : Event} : Runs s es → Step s e s' → Runs s' (es ++ [e])

/-! ## What is on its way -/

/-- The chains added, in order. -/
def additions (es : List Event) : List (Nat × List Buffer) :=
  es.filterMap fun e => match e with
    | .added head buffers => some (head, buffers)
    | _ => none

/-- The heads the device consumed, in order. -/
def consumptions (es : List Event) : List Nat :=
  es.filterMap fun e => match e with
    | .consumed head => some head
    | _ => none

/-- The reports of the device, in order. -/
def completions (es : List Event) : List (Nat × Nat) :=
  es.filterMap fun e => match e with
    | .completed head written => some (head, written)
    | _ => none

/-- What `take_used` returned, in order. -/
def takings (es : List Event) : List (Nat × Nat) :=
  es.filterMap fun e => match e with
    | .taken head written => some (head, written)
    | _ => none

/-- The chains added and not taken back. -/
def outstanding (es : List Event) : List (Nat × List Buffer) :=
  es.foldl (fun chains e => match e with
    | .added head buffers => chains ++ [(head, buffers)]
    | .taken head _ => chains.eraseP fun r => r.1 = head
    | _ => chains) []

section Snoc

variable (es : List Event)

theorem snoc_added (head : Nat) (buffers : List Buffer) :
    additions (es ++ [.added head buffers]) = additions es ++ [(head, buffers)] ∧
      consumptions (es ++ [.added head buffers]) = consumptions es ∧
      completions (es ++ [.added head buffers]) = completions es ∧
      takings (es ++ [.added head buffers]) = takings es := by
  simp [additions, consumptions, completions, takings]

theorem snoc_consumed (head : Nat) :
    additions (es ++ [.consumed head]) = additions es ∧
      consumptions (es ++ [.consumed head]) = consumptions es ++ [head] ∧
      completions (es ++ [.consumed head]) = completions es ∧
      takings (es ++ [.consumed head]) = takings es := by
  simp [additions, consumptions, completions, takings]

theorem snoc_completed (head written : Nat) :
    additions (es ++ [.completed head written]) = additions es ∧
      consumptions (es ++ [.completed head written]) = consumptions es ∧
      completions (es ++ [.completed head written]) = completions es ++ [(head, written)] ∧
      takings (es ++ [.completed head written]) = takings es := by
  simp [additions, consumptions, completions, takings]

theorem snoc_taken (head written : Nat) :
    additions (es ++ [.taken head written]) = additions es ∧
      consumptions (es ++ [.taken head written]) = consumptions es ∧
      completions (es ++ [.taken head written]) = completions es ∧
      takings (es ++ [.taken head written]) = takings es ++ [(head, written)] := by
  simp [additions, consumptions, completions, takings]

theorem snoc_other :
    additions (es ++ [.other]) = additions es ∧
      consumptions (es ++ [.other]) = consumptions es ∧
      completions (es ++ [.other]) = completions es ∧
      takings (es ++ [.other]) = takings es := by
  simp [additions, consumptions, completions, takings]

theorem outstanding_added (head : Nat) (buffers : List Buffer) :
    outstanding (es ++ [.added head buffers]) = outstanding es ++ [(head, buffers)] := by
  unfold outstanding
  rw [List.foldl_append]
  rfl

theorem outstanding_taken (head written : Nat) :
    outstanding (es ++ [.taken head written]) = (outstanding es).eraseP fun r => r.1 = head := by
  unfold outstanding
  rw [List.foldl_append]
  rfl

theorem outstanding_consumed (head : Nat) :
    outstanding (es ++ [.consumed head]) = outstanding es := by
  unfold outstanding
  rw [List.foldl_append]
  rfl

theorem outstanding_completed (head written : Nat) :
    outstanding (es ++ [.completed head written]) = outstanding es := by
  unfold outstanding
  rw [List.foldl_append]
  rfl

theorem outstanding_other : outstanding (es ++ [.other]) = outstanding es := by
  unfold outstanding
  rw [List.foldl_append]
  rfl

end Snoc

end TheRack.Virtio
