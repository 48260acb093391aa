/-
  Kernel/Delivery.lean --- messages and answers arrive once, and are genuine.

  The trace of a quiet run is a proper conversation, so what `recv` and `send`
  returned can be read off it.
-/
import TheRack.Kernel.Along
import TheRack.Kernel.Boot

set_option autoImplicit false

namespace TheRack

open Lib Ipc Event Phase

variable {B : Set Nat} {e : Nat} {k : Kernel}

/-- The way to the receiver: what `recv` returned was sent to this task by the
task in that slot, was outstanding when it was handed over, and is not handed
over or returned a second time. -/
theorem messages_arrive_once (h : Reachable B e (fun k a => a.Quiet k) k) :
    (∀ post t (a : Nat) op len pre, k.trace = post ++ .received t a op len :: pre →
      ∃ s : Slot, a = s ∧ Handed s t op len pre) ∧
    (∀ post t s op len pre, k.trace = post ++ .handed t s op len :: pre →
      Sent s t op (Parts s t) pre) ∧
    (∀ post t s op len mid t' op' len' pre,
      k.trace = post ++ .handed t s op len :: (mid ++ .handed t' s op' len' :: pre) →
      ∃ lent, .sent s t op lent ∈ mid) ∧
    ∀ post t s op len mid t' op' len' pre, k.trace =
        post ++ .received t (s : Slot) op len :: (mid ++ .received t' (s : Slot) op' len' :: pre) →
      ∃ lent, .sent s t op lent ∈ mid := by
  have hplays := h.plays fun _ _ ha => ha
  refine ⟨fun post t a op len pre ht => ?_, fun post t s op len pre ht => ?_,
    fun post t s op len mid t' op' len' pre ht => ?_,
    fun post t s op len mid t' op' len' pre ht => ?_⟩ <;> rw [ht] at hplays
  · exact hplays.received_upTo
  · exact hplays.handed_upTo
  · exact hplays.handed_once
  · exact hplays.received_once

theorem exchange_arrives : ∃ (k : Kernel) (t s : Slot) (len : Nat) (pre : List Event),
    k.trace = .received t s 7 len :: pre ∧ Handed s t 7 len pre := by
  obtain ⟨k, hk, hhead⟩ := exists_of_play (R := fun k a => a.Quiet k) (l := exchange)
    (p := fun k => k.trace.head? = some (.received ⟨1, by decide⟩ 2 7 0)) (.start virtKernel_booted)
    (by decide +kernel)
  obtain ⟨pre, hpre⟩ := List.head?_eq_some_iff.mp (of_decide_eq_true hhead)
  obtain ⟨s, hs, hhanded⟩ := (messages_arrive_once hk).1 [] _ _ _ _ _ hpre
  rw [hs] at hpre
  exact ⟨k, _, s, _, pre, hpre, hhanded⟩

/-- The way back: what `send` returned was written for that very send, and is the
reply of the task that received the message, or says that this task stopped; no
answer is written over another, and no send returns twice. -/
theorem answers_return_once (h : Reachable B e (fun k a => a.Quiet k) k) :
    (∀ post s rc len pre, k.trace = post ++ .returned s rc len :: pre → Answered s rc len pre) ∧
    (∀ post s rc len mid rc' len' pre,
      k.trace = post ++ .returned s rc len :: (mid ++ .returned s rc' len' :: pre) →
      ∃ t op lent, .sent s t op lent ∈ mid) ∧
    ∀ post s rc len mid rc' len' pre,
      k.trace = post ++ .answered s rc len :: (mid ++ .answered s rc' len' :: pre) →
      ∃ rc len, .returned s rc len ∈ mid := by
  have hplays := h.plays fun _ _ ha => ha
  refine ⟨fun post s rc len pre ht => ?_, fun post s rc len mid rc' len' pre ht => ?_,
    fun post s rc len mid rc' len' pre ht => ?_⟩ <;> rw [ht] at hplays
  · exact hplays.returned_upTo
  · exact hplays.returned_once
  · exact hplays.answered_once

/-- And then the first one replies, and the second one goes on. -/
def answer : List Action := exchange ++ [.svc (callOf 6 [2, 9]), .resume, .irq timerIntid, .resume]

theorem answer_returns : ∃ (k : Kernel) (s : Slot) (pre : List Event),
    k.trace = .returned s 9 0 :: pre ∧ Answered s 9 0 pre := by
  obtain ⟨k, hk, hhead⟩ := exists_of_play (R := fun k a => a.Quiet k) (l := answer)
    (p := fun k => k.trace.head? = some (.returned ⟨2, by decide⟩ 9 0)) (.start virtKernel_booted)
    (by decide +kernel)
  obtain ⟨pre, hpre⟩ := List.head?_eq_some_iff.mp (of_decide_eq_true hhead)
  exact ⟨k, _, pre, hpre, (answers_return_once hk).1 [] _ _ _ _ hpre⟩

end TheRack
