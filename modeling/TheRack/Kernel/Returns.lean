/-
  Kernel/Returns.lean --- system calls return.

  The one call that does not is a `write` of a buffer that passes the check of
  `user_readable` and cannot be read: a null one, or one with bits set above the
  48 that the tables translate.
-/
import TheRack.Kernel.Boot

set_option autoImplicit false

namespace TheRack

open Lib Frames Paging Syscall

/-- A system call brings the kernel down exactly when it is a `write` of such a
buffer; and what it does once its task is switched back to never does. -/
theorem dispatch_returns_iff {B : Set Nat} {e : Nat} {k : Kernel}
    (h : Reachable B e (fun _ _ => True) k) :
    (k.cpu = .user → ∀ x : Regs, (∃ k', dispatch x k = .ok ((), k')) ↔
      ¬ ((x 8).toNat = 1 ∧ k.BadWrite (x 0).toNat (x 1).toNat (x 2).toNat)) ∧
    (k.cpu = .resuming → ∃ k', resume k = .ok ((), k')) := by
  have hready := h.ready
  refine ⟨fun hcpu x => ?_, fun hcpu => ?_⟩
  · obtain ⟨t, root, hr⟩ := hready.runs hcpu
    have hmeets := Kernel.dispatch_spec (P := fun _ _ => True) (Q := False) (x := x)
      (fun _ _ _ => trivial) (fun _ _ => False.elim) hready.toBase hready.backed hr
    rcases hmeets.cases with ⟨_, k', hok, -, hgood⟩ | ⟨c, herror, -, hbad⟩
    · exact ⟨fun _ => hgood, fun _ => ⟨k', hok⟩⟩
    · refine ⟨?_, fun hgood => absurd hbad hgood⟩
      rintro ⟨k', hok⟩
      rw [herror] at hok
      cases hok
  · obtain ⟨_, k', hok, -⟩ := (Kernel.resume_spec (P := fun _ _ => True) (Q := False) hready hcpu
      fun _ => trivial).returns
    exact ⟨k', hok⟩

def Resume.isRecvParked : Resume → Bool
  | recvParked _ _ _ => true
  | _ => false

/-- A `recv` that has to wait for its message, up to where it gives the CPU away and
from where it gets it back. -/
theorem recv_that_waits_returns :
    (∃ k k', Reachable virtBase virtEmpty (fun _ _ => True) k ∧ k.cpu = .user ∧
      (∀ s, k.pending s = none) ∧ dispatch (callOf 5 []) k = .ok ((), k')) ∧
    ∃ k k' t buf cap mask, Reachable virtBase virtEmpty (fun _ _ => True) k ∧ k.cpu = .resuming ∧
      k.tasks k.current = some t ∧ t.resume = .recvParked buf cap mask ∧ resume k = .ok ((), k') := by
  constructor
  · obtain ⟨k, hk, hcheck⟩ := exists_of_play (R := fun _ _ => True) (l := startTwo)
      (p := fun k => k.cpu.isUser && decide (∀ s, k.pending s = none)) (.start virtKernel_booted)
      (by decide +kernel)
    rw [Bool.and_eq_true, Cpu.isUser_iff, decide_eq_true_eq] at hcheck
    obtain ⟨huser, hidle⟩ := hcheck
    obtain ⟨k', hok⟩ := ((dispatch_returns_iff hk).1 huser (callOf 5 [])).mpr
      fun hwrite => absurd hwrite.1 (by decide)
    exact ⟨k, k', hk, huser, hidle, hok⟩
  · obtain ⟨k, hk, hcheck⟩ := exists_of_play (R := fun _ _ => True)
      (l := startTwo ++ [.svc (callOf 5 []), .resume, .svc (callOf 4 [1, 7]), .resume])
      (p := fun k => k.cpu.isResuming && (k.tasks k.current).any fun t => t.resume.isRecvParked)
      (.start virtKernel_booted) (by decide +kernel)
    rw [Bool.and_eq_true, Cpu.isResuming_iff, Option.any_eq_true] at hcheck
    obtain ⟨hcpu, t, ht, hparked⟩ := hcheck
    cases hresume : t.resume with
    | recvParked buf cap mask =>
      obtain ⟨k', hok⟩ := (dispatch_returns_iff hk).2 hcpu
      exact ⟨k, k', t, buf, cap, mask, hk, hcpu, ht, hresume, hok⟩
    | _ =>
      rw [hresume] at hparked
      exact absurd hparked Bool.false_ne_true

/-- `write(1, 0, 0)`, from a user task that just started. -/
theorem write_null_crashes : ∃ k, Reachable virtBase virtEmpty (fun _ _ => True) k ∧
    k.cpu = .user ∧ dispatch (callOf 1 [1, 0, 0]) k = .error .nullSlice := by
  obtain ⟨k, hk, hcheck⟩ := exists_of_play (R := fun _ _ => True) (l := startOne)
    (p := fun k => k.cpu.isUser && match dispatch (callOf 1 [1, 0, 0]) k with
      | .error c => decide (c = .nullSlice)
      | .ok _ => false) (.start virtKernel_booted) (by decide +kernel)
  rw [Bool.and_eq_true] at hcheck
  refine ⟨k, hk, k.cpu.isUser_iff.mp hcheck.1, ?_⟩
  cases hd : dispatch (callOf 1 [1, 0, 0]) k with
  | ok r =>
    have hcheck := hcheck.2
    rw [hd] at hcheck
    exact nomatch hcheck
  | error c =>
    have hcheck := hcheck.2
    rw [hd] at hcheck
    exact congrArg Except.error (of_decide_eq_true hcheck)

end TheRack
