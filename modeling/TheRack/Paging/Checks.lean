/-
  Paging/Checks.lean --- which question the user buffer checks ask.

  TTBR0 translates the addresses with bits 63:48 clear and no others.  A walk in
  software drops these bits, so the checks answer the hardware's question for
  every buffer but those that reach beyond 2^48 and whose bytes, taken modulo
  2^48, are all granted.
-/
import TheRack.Paging.Access
import TheRack.Paging.Exact

set_option autoImplicit false

namespace TheRack.Paging

open Lib Frames

/-- The hardware lets EL0 at the byte `x` through TTBR0: its top bits are clear, and
its leaf grants what `granted` says. -/
def Grants (m : Mem) (root : Nat) (granted : Nat → Prop) (x : Nat) : Prop :=
  x < 2 ^ 48 ∧ ∃ e, lookup m root x = some e ∧ granted (accessPermissions e)

/-- The access permissions that let EL0 read. -/
def readable (ap : Nat) : Prop := ap = apRwAll ∨ ap = apRoAll

/-- The access permissions that let EL0 write. -/
def writable (ap : Nat) : Prop := ap = apRwAll

/-- The buffer reaches beyond what TTBR0 translates but not beyond `KERNEL_BASE`, and
every byte of it, taken modulo 2^48, is granted. -/
def Aliased (m : Mem) (root : Nat) (granted : Nat → Prop) (va len : Nat) : Prop :=
  0 < len ∧ 2 ^ 48 < va + len ∧ va + len ≤ kernelBase ∧
    ∀ i < len, Grants m root granted (low48 (va + i))

/-! ## Walks drop the top bits -/

theorem tableIndex_low48 (x : Nat) {level : Nat} (hlevel : level ≤ 3) :
    tableIndex (low48 x) level = tableIndex x level := by
  unfold low48
  rw [tableIndex_eq, tableIndex_eq]
  rcases (show level = 0 ∨ level = 1 ∨ level = 2 ∨ level = 3 by omega) with rfl | rfl | rfl | rfl
  all_goals
    norm_num
    omega

theorem lookupFrom_low48 (m : Mem) (x n t : Nat) :
    lookupFrom m (low48 x) n t = lookupFrom m x n t := by
  induction n generalizing t with
  | zero =>
    unfold lookupFrom
    rw [tableIndex_low48 x (Nat.le_refl 3)]
  | succ n ih =>
    unfold lookupFrom
    rw [tableIndex_low48 x (by omega)]
    simp only [ih]

theorem lookup_low48 (m : Mem) (root x : Nat) : lookup m root (low48 x) = lookup m root x :=
  lookupFrom_low48 m x 3 root

theorem low48_lt (x : Nat) : low48 x < 2 ^ 48 := Nat.mod_lt x (by decide)

theorem grants_low48 {m : Mem} {root x : Nat} {granted : Nat → Prop} :
    Grants m root granted (low48 x) ↔
      ∃ e, lookup m root x = some e ∧ granted (accessPermissions e) := by
  unfold Grants
  rw [lookup_low48]
  exact and_iff_right (low48_lt x)

/-! ## The checks -/

section Check

variable {m : Mem} {root va len : Nat} {allowed : Nat → Bool} {granted : Nat → Prop}

theorem userRange_grants (hallowed : ∀ ap, allowed ap = true ↔ granted ap) :
    userRange m root va len allowed = true ↔ len = 0 ∨ va + len < u64Size ∧ va + len ≤ kernelBase ∧
      ∀ i < len, Grants m root granted (low48 (va + i)) := by
  rw [userRange_iff]
  simp only [grants_low48, Allows, hallowed]
  refine or_congr_right (and_congr_right fun _ => and_congr_right fun _ => ⟨?_, ?_⟩)
  · exact fun h i hi => h (va + i) (by omega) (by omega)
  · intro h x h1 h2
    have hx := h (x - va) (by omega)
    rwa [Nat.add_sub_cancel' h1] at hx

/-- A check answers as the hardware does, unless the buffer is one it takes for
another. -/
theorem userRange_asks (hallowed : ∀ ap, allowed ap = true ↔ granted ap) :
    (userRange m root va len allowed = true ↔ ∀ i < len, Grants m root granted (va + i)) ↔
      ¬ Aliased m root granted va len := by
  have hkernel : kernelBase < u64Size := by decide
  rw [userRange_grants hallowed]
  rcases Nat.eq_zero_or_pos len with rfl | hpos
  · exact iff_of_true (iff_of_true (.inl rfl) fun i hi => absurd hi (by omega))
      fun h => absurd h.1 (by omega)
  rcases Nat.lt_or_ge (2 ^ 48) (va + len) with hbeyond | hbelow
  · -- the last byte has a top bit set
    have hlast : ¬ ∀ i < len, Grants m root granted (va + i) := fun h => by
      have := (h (len - 1) (by omega)).1
      omega
    unfold Aliased
    rw [iff_false_right hlast]
    refine not_congr ⟨fun h => ?_, fun h => ?_⟩
    · rcases h with h | ⟨-, hle, hall⟩
      · omega
      · exact ⟨hpos, hbeyond, hle, hall⟩
    · exact .inr ⟨by omega, h.2.2.1, h.2.2.2⟩
  · refine iff_of_true ?_ fun h => absurd h.2.1 (by omega)
    have hself : ∀ i < len, low48 (va + i) = va + i := fun i hi => Nat.mod_eq_of_lt (by omega)
    have hbase : (2 : Nat) ^ 48 ≤ kernelBase := by decide
    constructor
    · rintro (h | ⟨-, -, hall⟩) i hi
      · omega
      · rw [← hself i hi]
        exact hall i hi
    · exact fun h => .inr ⟨by omega, by omega, fun i hi => (hself i hi).symm ▸ h i hi⟩

end Check

/-- `user_readable` and `user_writable` ask the hardware's question of every buffer
but an aliased one. -/
theorem checks_ask_the_hardware (m : Mem) (root va len : Nat) :
    ((userReadable m root va len = true ↔ ∀ i < len, Grants m root readable (va + i)) ↔
        ¬ Aliased m root readable va len) ∧
      ((userWritable m root va len = true ↔ ∀ i < len, Grants m root writable (va + i)) ↔
        ¬ Aliased m root writable va len) := by
  refine ⟨userRange_asks fun ap => ?_, userRange_asks fun ap => ?_⟩
  · simp [readable]
  · simp [writable]

/-- One byte beyond what TTBR0 translates, over a page of user data. -/
theorem alias_is_readable : ∃ root p, Built root p ∧
    ¬ (userReadable p.mem root (2 ^ 48) 1 = true ↔
      ∀ i < 1, Grants p.mem root readable (2 ^ 48 + i)) := by
  obtain ⟨root, p, p', hbuilt, -, hok, hleaf⟩ := virt_mapped
  refine ⟨root, p', hbuilt.map virt_page hok, fun hasks => ?_⟩
  have hall : userReadable p'.mem root (2 ^ 48) 1 = true := by
    refine (userRange_iff _ _ _ _ _).mpr (.inr ⟨by decide, by decide, fun x h1 h2 => ?_⟩)
    obtain rfl : x = 2 ^ 48 := by omega
    refine ⟨(leafFor 0 0x48000000 4096 .userData (2 ^ 48)).entry, ?_, by decide⟩
    rw [lookup_eq_leaf, hleaf _ (by decide)]
    rfl
  have := (hasks.mp hall 0 (by decide)).1
  omega

end TheRack.Paging
