/-
  Virtio/Transport.lean --- a virtio device behind its registers, from virtio.rs.

  The driver resets the device, reads what it offers, writes what it takes of that,
  and asks the device whether it agrees.  Against any device it writes the status in
  that order and ends in failure where the device does not agree; with one that keeps
  to the registers both sides have the same features in the end.
-/
import TheRack.Lib.Mmio

set_option autoImplicit false

namespace TheRack

open Lib Lib.Mmio

/-- `struct Transport`. -/
structure Transport where
  base : Nat
  intid : Nat
  deviceId : BitVec 32
  features : BitVec 64
  deriving DecidableEq

namespace Transport

/-- `MAGIC`. -/
def magic : BitVec 32 := 0x74726976

/-- `VERSION`. -/
def version : BitVec 32 := 2

/-- `MAGIC_VALUE`. -/
def magicValue : Nat := 0x000

/-- `VERSION_REG`. -/
def versionReg : Nat := 0x004

/-- `DEVICE_ID`. -/
def deviceIdReg : Nat := 0x008

/-- `DEVICE_FEATURES`. -/
def deviceFeaturesReg : Nat := 0x010

/-- `DEVICE_FEATURES_SEL`. -/
def deviceFeaturesSel : Nat := 0x014

/-- `DRIVER_FEATURES`. -/
def driverFeaturesReg : Nat := 0x020

/-- `DRIVER_FEATURES_SEL`. -/
def driverFeaturesSel : Nat := 0x024

/-- `INTERRUPT_STATUS`. -/
def interruptStatus : Nat := 0x060

/-- `INTERRUPT_ACK`. -/
def interruptAck : Nat := 0x064

/-- `STATUS`. -/
def statusReg : Nat := 0x070

/-- `STATUS_ACKNOWLEDGE`. -/
def acknowledge : BitVec 32 := 1

/-- `STATUS_DRIVER`. -/
def driver : BitVec 32 := 2

/-- `STATUS_FEATURES_OK`. -/
def featuresOk : BitVec 32 := 8

/-- `STATUS_DRIVER_OK`. -/
def driverOk : BitVec 32 := 4

/-- `STATUS_FAILED`. -/
def failed : BitVec 32 := 128

/-- `VIRTIO_F_VERSION_1`. -/
def version1 : BitVec 64 := 1 <<< 32

/-- `virtio::Error`. -/
inductive Error
  | notVirtio (found : BitVec 32)
  | wrongVersion (found : BitVec 32)
  | legacy
  | featuresRefused
  deriving DecidableEq

/-- `read`. -/
def read (t : Transport) (offset : Nat) : Driver (BitVec 32) := .get (t.base + offset)

/-- `write`. -/
def write (t : Transport) (offset : Nat) (value : BitVec 32) : Driver Unit := .put (t.base + offset) value

/-- `device_features`. -/
def deviceFeatures (t : Transport) : Driver (BitVec 64) := do
  t.write deviceFeaturesSel 1
  let high ← t.read deviceFeaturesReg
  t.write deviceFeaturesSel 0
  let low ← t.read deviceFeaturesReg
  return high.setWidth 64 <<< 32 ||| low.setWidth 64

/-- `set_driver_features`. -/
def setDriverFeatures (t : Transport) (features : BitVec 64) : Driver Unit := do
  t.write driverFeaturesSel 1
  t.write driverFeaturesReg ((features >>> 32).setWidth 32)
  t.write driverFeaturesSel 0
  t.write driverFeaturesReg (features.setWidth 32)

/-- `reset`. -/
def reset (t : Transport) : Driver Unit := do
  t.write statusReg 0
  Driver.await (t.base + statusReg) fun v => v == 0

/-- `negotiate`. -/
def negotiate (t : Transport) (wanted : BitVec 64) : Driver (Except Error (BitVec 64)) := do
  t.reset
  t.write statusReg acknowledge
  t.write statusReg (acknowledge ||| driver)
  let offered ← t.deviceFeatures
  if offered &&& version1 = 0 then
    t.write statusReg failed
    return .error .legacy
  else
    let agreed := offered &&& (wanted ||| version1)
    t.setDriverFeatures agreed
    t.write statusReg (acknowledge ||| driver ||| featuresOk)
    if (← t.read statusReg) &&& featuresOk = 0 then
      t.write statusReg failed
      return .error .featuresRefused
    else return .ok agreed

/-- `set_driver_ok`. -/
def setDriverOk (t : Transport) : Driver Unit := do
  let status ← t.read statusReg
  t.write statusReg (status ||| driverOk)

/-- `ack_interrupt`. -/
def ackInterrupt (t : Transport) : Driver (BitVec 32) := do
  let status ← t.read interruptStatus
  if status ≠ 0 then t.write interruptAck status
  return status

/-- `probe`, once the tree has said where the device is. -/
def probe (t : Transport) : Driver (Except Error Transport) := do
  let magic' ← t.read magicValue
  if magic' ≠ magic then return .error (.notVirtio magic')
  else
    let version' ← t.read versionReg
    if version' ≠ version then return .error (.wrongVersion version')
    else
      let deviceId ← t.read deviceIdReg
      let features ← t.deviceFeatures
      return .ok { t with deviceId := deviceId, features := features }

variable {t : Transport} {wanted : BitVec 64}

/-! ## Any device -/

/-- What an access writes to the status. -/
def statusWrite (t : Transport) : Access → List (BitVec 32)
  | .write offset value => if offset = t.base + statusReg then [value] else []
  | _ => []

/-- The status as it is written, one after the other. -/
def statuses (t : Transport) (l : List Access) : List (BitVec 32) := l.flatMap t.statusWrite

/-- A device that does anything, and remembers how the status was written. -/
def Records (t : Transport) (s : List (BitVec 32)) (e : Access) (s' : List (BitVec 32)) : Prop :=
  s' = s ++ t.statusWrite e

theorem records_path (s : List (BitVec 32)) (l : List Access) : Path t.Records s l (s ++ t.statuses l) := by
  induction l generalizing s with
  | nil =>
    rw [statuses, List.flatMap_nil, List.append_nil]
    exact .nil s
  | cons e l ih =>
    rw [statuses, List.flatMap_cons, ← List.append_assoc]
    exact .cons rfl (ih _)

/-- The status as negotiation writes it, by how it ends. -/
def outcome : Except Error (BitVec 64) → List (BitVec 32)
  | .ok _ => [0, 1, 3, 11]
  | .error .featuresRefused => [0, 1, 3, 11, 128]
  | .error _ => [0, 1, 3, 128]

@[simp] theorem statusWrite_read (offset : Nat) (v : BitVec 32) : t.statusWrite (.read offset v) = [] := rfl

@[simp] theorem statusWrite_status (v : BitVec 32) : t.statusWrite (.write (t.base + statusReg) v) = [v] := if_pos rfl

theorem statusWrite_other {offset : Nat} (h : offset ≠ statusReg) (v : BitVec 32) :
    t.statusWrite (.write (t.base + offset) v) = [] := if_neg fun heq => h (Nat.add_left_cancel heq)

@[simp] theorem statusWrite_deviceSel (v : BitVec 32) : t.statusWrite (.write (t.base + deviceFeaturesSel) v) = [] :=
  statusWrite_other (by decide) v

@[simp] theorem statusWrite_driverSel (v : BitVec 32) : t.statusWrite (.write (t.base + driverFeaturesSel) v) = [] :=
  statusWrite_other (by decide) v

@[simp] theorem statusWrite_driver (v : BitVec 32) : t.statusWrite (.write (t.base + driverFeaturesReg) v) = [] :=
  statusWrite_other (by decide) v

/-- What is agreed on has the feature of version 1 if the offer does. -/
theorem and_version1 (offered wanted : BitVec 64) :
    offered &&& (wanted ||| version1) &&& version1 = offered &&& version1 := by
  ext i
  simp only [BitVec.getElem_and, BitVec.getElem_or]
  cases version1[i] <;> simp

theorem and_wanted (offered wanted : BitVec 64) :
    offered &&& (wanted ||| version1) &&& (wanted ||| version1) = offered &&& (wanted ||| version1) := by
  rw [BitVec.and_assoc, BitVec.and_self]

theorem negotiate_records (t : Transport) (wanted : BitVec 64) :
    Achieves t.Records [] (t.negotiate wanted) fun r s => s = outcome r ∧
      (∀ f, r = .ok f → f &&& version1 ≠ 0 ∧ f &&& (wanted ||| version1) = f) ∧
      ∀ found, r ≠ .error (.notVirtio found) ∧ r ≠ .error (.wrongVersion found) := by
  unfold negotiate reset deviceFeatures setDriverFeatures Records
  simp only [read, write, Driver.put_bind, Driver.get_bind, Driver.await_bind, Driver.write_bind,
    Driver.read_bind, Driver.pure_eq, Driver.bind_done]
  refine .write trivial fun s h => .poll (J := (· = [0])) (by simpa using h) (fun _ _ => trivial) (fun s v s' h h' _ => ?_) fun s v s' h h' _ => ?_
  · rw [h', h, statusWrite_read, List.append_nil]
  obtain rfl : s' = [0] := by rw [h', h, statusWrite_read, List.append_nil]
  refine .write trivial fun s₁ h₁ => .write trivial fun s₂ h₂ => .write trivial fun s₃ h₃ => .read trivial fun high s₄ h₄ =>
    .write trivial fun s₅ h₅ => .read trivial fun low s₆ h₆ => ?_
  simp only [statusWrite_status, statusWrite_deviceSel, statusWrite_read, List.append_nil] at h₁ h₂ h₃ h₄ h₅ h₆
  subst h₁ h₂ h₃ h₄ h₅ h₆
  generalize high.setWidth 64 <<< 32 ||| low.setWidth 64 = offered
  split
  · refine .write trivial fun s₇ h₇ => .done trivial ⟨?_, nofun, fun found => ⟨nofun, nofun⟩⟩
    rw [h₇, statusWrite_status]
    rfl
  · rename_i hversion
    refine .write trivial fun s₇ h₇ => .write trivial fun s₈ h₈ => .write trivial fun s₉ h₉ => .write trivial fun s₁₀ h₁₀ => .write trivial fun s₁₁ h₁₁ =>
      .read trivial fun v s₁₂ h₁₂ => ?_
    simp only [statusWrite_status, statusWrite_driverSel, statusWrite_driver, statusWrite_read,
      List.append_nil] at h₇ h₈ h₉ h₁₀ h₁₁ h₁₂
    subst h₇ h₈ h₉ h₁₀ h₁₁ h₁₂
    split
    · refine .write trivial fun s₁₃ h₁₃ => .done trivial ⟨?_, nofun, fun found => ⟨nofun, nofun⟩⟩
      rw [h₁₃, statusWrite_status]
      rfl
    · refine .done trivial ⟨rfl, fun f hf => ?_, fun found => ⟨nofun, nofun⟩⟩
      obtain rfl := Except.ok.inj hf
      exact ⟨by rwa [and_version1], and_wanted _ _⟩

theorem negotiate_pollable (t : Transport) (wanted : BitVec 64) : (t.negotiate wanted).Pollable := by
  unfold negotiate reset deviceFeatures setDriverFeatures
  simp only [read, write, Driver.put_bind, Driver.get_bind, Driver.await_bind, Driver.write_bind,
    Driver.read_bind, Driver.pure_eq, Driver.bind_done]
  refine ⟨⟨0, rfl⟩, fun high low => ?_⟩
  dsimp only
  split
  · trivial
  · intro v
    dsimp only
    split <;> trivial

/-- Whatever the device answers, and wherever it stops to, the status has been written in
the one order; negotiation that fails ends with `STATUS_FAILED`, and what it agrees on is
nothing that was not wanted, and version 1. -/
theorem negotiate_keeps_order (t : Transport) (wanted : BitVec 64) :
    (∀ l p, (t.negotiate wanted).run l = some p → ∃ r, t.statuses l <+: outcome r) ∧
    ∀ l r, (t.negotiate wanted).run l = some (.done r) → t.statuses l = outcome r ∧
      (∀ f, r = .ok f → f &&& version1 ≠ 0 ∧ f &&& (wanted ||| version1) = f) ∧
      ∀ found, r ≠ .error (.notVirtio found) ∧ r ≠ .error (.wrongVersion found) := by
  have hdone : ∀ l r, (t.negotiate wanted).run l = some (.done r) → _ := fun l r hrun =>
    (negotiate_records t wanted l _ _ (records_path [] l) hrun).2 r rfl
  refine ⟨fun l p hrun => ?_, hdone⟩
  obtain ⟨l', r, hends⟩ := (negotiate_pollable t wanted).extends hrun
  refine ⟨r, ?_⟩
  have hall : t.statuses (l ++ l') = outcome r := (hdone _ r hends).1
  have happend : t.statuses (l ++ l') = t.statuses l ++ t.statuses l' := List.flatMap_append
  rw [← hall, happend]
  exact List.prefix_append _ _

/-- A device that offers version 1 and feature 5, and takes a while to reset. -/
def agreeable : List Access :=
  [.write 0x070 0, .read 0x070 7, .read 0x070 0, .write 0x070 1, .write 0x070 3, .write 0x014 1, .read 0x010 1,
   .write 0x014 0, .read 0x010 0x20, .write 0x024 1, .write 0x020 1, .write 0x024 0, .write 0x020 0x20,
   .write 0x070 11, .read 0x070 11]

theorem negotiate_keeps_order_agreeable :
    statuses ⟨0, 0, 0, 0⟩ agreeable = [0, 1, 3, 11] ∧ (0x100000020 : BitVec 64) &&& version1 ≠ 0 := by
  have hrun : (negotiate ⟨0, 0, 0, 0⟩ 0x20).run agreeable = some (.done (.ok 0x100000020)) := rfl
  obtain ⟨hstatuses, hok, -⟩ := (negotiate_keeps_order ⟨0, 0, 0, 0⟩ 0x20).2 agreeable _ hrun
  exact ⟨hstatuses, (hok _ rfl).1⟩

/-! ## A device that keeps to its registers -/

/-- What the registers of a device hold. -/
structure Registers where
  status : BitVec 32
  /-- the features the driver has written -/
  taken : BitVec 64
  deviceSel : BitVec 32
  driverSel : BitVec 32
  resetting : Bool

/-- The registers after a reset. -/
def Registers.fresh : Registers := ⟨0, 0, 0, 0, false⟩

/-- The half of the features that is selected. -/
def half (features : BitVec 64) (sel : BitVec 32) : BitVec 32 :=
  if sel = 0 then features.setWidth 32 else if sel = 1 then (features >>> 32).setWidth 32 else 0

/-- The features with the half that is selected written over. -/
def setHalf (features : BitVec 64) (sel v : BitVec 32) : BitVec 64 :=
  if sel = 0 then (features >>> 32) <<< 32 ||| v.setWidth 64
  else if sel = 1 then v.setWidth 64 <<< 32 ||| (features.setWidth 32).setWidth 64 else features

variable {σ : Type} {D : σ → Access → σ → Prop} {offers : BitVec 64} {accepts : BitVec 64 → Bool} {regs : σ → Registers}

/-- The device keeps to the registers: it shows the features it offers, takes those it
is written, drops `FEATURES_OK` when it does not accept them, and holds the status it is
written, which reads 0 once a reset is over. -/
structure Conforms (D : σ → Access → σ → Prop) (t : Transport) (offers : BitVec 64) (accepts : BitVec 64 → Bool)
    (regs : σ → Registers) : Prop where
  selectsDevice : ∀ s v s', D s (.write (t.base + deviceFeaturesSel) v) s' →
    regs s' = { regs s with deviceSel := v }
  shows : ∀ s v s', D s (.read (t.base + deviceFeaturesReg) v) s' →
    regs s' = regs s ∧ v = half offers (regs s).deviceSel
  selectsDriver : ∀ s v s', D s (.write (t.base + driverFeaturesSel) v) s' →
    regs s' = { regs s with driverSel := v }
  takes : ∀ s v s', D s (.write (t.base + driverFeaturesReg) v) s' →
    regs s' = { regs s with taken := setHalf (regs s).taken (regs s).driverSel v }
  holds : ∀ s v s', D s (.write (t.base + statusReg) v) s' → v ≠ 0 →
    regs s' = { regs s with
      status := if v &&& featuresOk ≠ 0 ∧ accepts (regs s).taken = false then v &&& ~~~featuresOk else v }
  resets : ∀ s s', D s (.write (t.base + statusReg) 0) s' → (regs s').resetting = true
  showsStatus : ∀ s v s', D s (.read (t.base + statusReg) v) s' →
    if (regs s).resetting then (v = 0 ∧ regs s' = .fresh) ∨ (v ≠ 0 ∧ (regs s').resetting = true)
    else v = (regs s).status ∧ regs s' = regs s

theorem halves (v : BitVec 64) : ((v >>> 32).setWidth 32).setWidth 64 <<< 32 ||| (v.setWidth 32).setWidth 64 = v := by
  apply BitVec.eq_of_getLsbD_eq
  intro i hi
  simp only [BitVec.getLsbD_or, BitVec.getLsbD_shiftLeft, BitVec.getLsbD_setWidth, BitVec.getLsbD_ushiftRight]
  by_cases hlow : i < 32
  · simp [hlow, hi]
  · have h1 : i - 32 < 32 := by omega
    have h2 : i - 32 < 64 := by omega
    have h3 : 32 + (i - 32) = i := by omega
    simp [hlow, hi, h1, h2, h3]

theorem high_half (a b : BitVec 32) :
    ((a.setWidth 64 <<< 32 ||| b.setWidth 64) >>> 32) <<< 32 = a.setWidth 64 <<< 32 := by
  apply BitVec.eq_of_getLsbD_eq
  intro i hi
  simp only [BitVec.getLsbD_or, BitVec.getLsbD_shiftLeft, BitVec.getLsbD_setWidth, BitVec.getLsbD_ushiftRight]
  by_cases hlow : i < 32
  · simp [hlow, hi]
  · have h3 : 32 + (i - 32) = i := by omega
    simp [hlow, hi, h3, BitVec.getLsbD_of_ge b i (by omega)]

/-- The features that are written half by half. -/
theorem setHalf_setHalf (v w : BitVec 64) :
    setHalf (setHalf v 1 ((w >>> 32).setWidth 32)) 0 (w.setWidth 32) = w := by
  have hhigh : setHalf v 1 ((w >>> 32).setWidth 32) =
      ((w >>> 32).setWidth 32).setWidth 64 <<< 32 ||| (v.setWidth 32).setWidth 64 := rfl
  rw [hhigh, setHalf, if_pos rfl, high_half, halves]

/-- After a reset the registers are fresh. -/
theorem reset_ends (h : Conforms D t offers accepts regs) (s : σ) :
    Achieves D s t.reset fun _ s' => regs s' = .fresh := by
  unfold reset
  simp only [write, Driver.put_bind]
  refine .write trivial fun s₁ h₁ => .poll (J := fun s => (regs s).resetting = true) (h.resets _ _ h₁)
    (fun _ _ => trivial) (fun s v s' hI hd hr => ?_) fun s v s' hI hd hr => .done trivial ?_
  · have hstatus := h.showsStatus s v s' hd
    rw [if_pos hI] at hstatus
    rcases hstatus with ⟨rfl, -⟩ | ⟨-, hgo⟩
    · exact nomatch hr
    · exact hgo
  · have hstatus := h.showsStatus s v s' hd
    rw [if_pos hI] at hstatus
    rcases hstatus with ⟨-, hfresh⟩ | ⟨hne, -⟩
    · exact hfresh
    · exact absurd (by simpa using hr) hne

/-- What negotiation leaves behind: features that both sides have, or a device that was
given up. -/
def Settled (offers : BitVec 64) (accepts : BitVec 64 → Bool) (wanted : BitVec 64) (r : Except Error (BitVec 64))
    (g : Registers) : Prop :=
  if offers &&& version1 = 0 then r = .error .legacy ∧ g.status = 128
  else if accepts (offers &&& (wanted ||| version1)) = true then
    r = .ok (offers &&& (wanted ||| version1)) ∧ g = ⟨11, offers &&& (wanted ||| version1), 0, 0, false⟩
  else r = .error .featuresRefused ∧ g.status = 128

theorem negotiate_agrees (h : Conforms D t offers accepts regs) (wanted : BitVec 64) (s : σ) :
    Achieves D s (t.negotiate wanted) fun r s' => Settled offers accepts wanted r (regs s') := by
  unfold negotiate
  refine .bind ((reset_ends h s).mono (fun _ _ => trivial) fun _ s₀ h₀ => ?_)
  unfold deviceFeatures setDriverFeatures
  simp only [read, write, Driver.put_bind, Driver.get_bind, Driver.write_bind,
    Driver.read_bind, Driver.pure_eq, Driver.bind_done]
  refine .write trivial fun s₁ h₁ => .write trivial fun s₂ h₂ => .write trivial fun s₃ h₃ => .read trivial fun high s₄ h₄ =>
    .write trivial fun s₅ h₅ => .read trivial fun low s₆ h₆ => ?_
  have g₁ : regs s₁ = ⟨1, 0, 0, 0, false⟩ := (h.holds _ _ _ h₁ (by decide)).trans (by rw [h₀]; rfl)
  have g₂ : regs s₂ = ⟨3, 0, 0, 0, false⟩ := (h.holds _ _ _ h₂ (by decide)).trans (by rw [g₁]; rfl)
  have g₃ : regs s₃ = ⟨3, 0, 1, 0, false⟩ := (h.selectsDevice _ _ _ h₃).trans (by rw [g₂])
  obtain ⟨g₄, hhigh⟩ := h.shows _ _ _ h₄
  rw [g₃] at g₄ hhigh
  have g₅ : regs s₅ = ⟨3, 0, 0, 0, false⟩ := (h.selectsDevice _ _ _ h₅).trans (by rw [g₄])
  obtain ⟨g₆, hlow⟩ := h.shows _ _ _ h₆
  rw [g₅] at g₆ hlow
  have hoffer : high.setWidth 64 <<< 32 ||| low.setWidth 64 = offers := by
    rw [hhigh, hlow]
    exact halves offers
  rw [hoffer]
  unfold Settled
  split
  · refine .write trivial fun s₇ h₇ => .done trivial ?_
    have g₇ := h.holds _ _ _ h₇ (by decide)
    rw [g₆] at g₇
    exact ⟨rfl, congrArg Registers.status g₇⟩
  · generalize offers &&& (wanted ||| version1) = agreed
    refine .write trivial fun s₇ h₇ => .write trivial fun s₈ h₈ => .write trivial fun s₉ h₉ => .write trivial fun s₁₀ h₁₀ => .write trivial fun s₁₁ h₁₁ =>
      .read trivial fun v s₁₂ h₁₂ => ?_
    have g₇ : regs s₇ = ⟨3, 0, 0, 1, false⟩ := (h.selectsDriver _ _ _ h₇).trans (by rw [g₆])
    have g₈ := h.takes _ _ _ h₈
    rw [g₇] at g₈
    have g₉ := h.selectsDriver _ _ _ h₉
    rw [g₈] at g₉
    have g₁₀ : regs s₁₀ = ⟨3, agreed, 0, 0, false⟩ := by
      rw [h.takes _ _ _ h₁₀, g₉]
      dsimp only
      rw [setHalf_setHalf]
    have g₁₁ := h.holds _ _ _ h₁₁ (by decide)
    have g₁₂ := h.showsStatus _ _ _ h₁₂
    rw [g₁₀] at g₁₁
    have g₁₁ : regs s₁₁ = ⟨if accepts agreed then 11 else 3, agreed, 0, 0, false⟩ := by
      rw [g₁₁]
      cases accepts agreed <;> rfl
    rw [g₁₁] at g₁₂
    obtain ⟨hv, g₁₂⟩ : v = (if accepts agreed then 11 else 3) ∧
        regs s₁₂ = ⟨if accepts agreed then 11 else 3, agreed, 0, 0, false⟩ := g₁₂
    cases haccepts : accepts agreed with
    | true =>
      rw [haccepts, if_pos rfl] at hv g₁₂
      rw [hv, if_neg (by decide)]
      simp only [if_true]
      exact .done trivial ⟨rfl, g₁₂⟩
    | false =>
      rw [haccepts, if_neg Bool.false_ne_true] at hv g₁₂
      rw [hv, if_pos (by decide)]
      simp only [Bool.false_eq_true, if_false]
      refine .write trivial fun s₁₃ h₁₃ => .done trivial ⟨rfl, ?_⟩
      have g₁₃ := h.holds _ _ _ h₁₃ (by decide)
      rw [g₁₂] at g₁₃
      exact congrArg Registers.status g₁₃

/-- The device answers everything, and a reset is over by the time the status was read
`bound` times. -/
structure Prompt (D : σ → Access → σ → Prop) (t : Transport) (regs : σ → Registers) (left : σ → Nat) (bound : Nat) :
    Prop where
  reads : ∀ s offset, ∃ v s', D s (.read offset v) s'
  writes : ∀ s offset v, ∃ s', D s (.write offset v) s'
  left_le : ∀ s, left s ≤ bound
  resets : ∀ s v s', D s (.read (t.base + statusReg) v) s' → (regs s).resetting = true → v ≠ 0 → left s' < left s

theorem negotiate_finishes {left : σ → Nat} {bound : Nat} (h : Conforms D t offers accepts regs)
    (hp : Prompt D t regs left bound) (wanted : BitVec 64) (s : σ) :
    Finishes D (13 + 1 + bound + 1) s (t.negotiate wanted) := by
  unfold negotiate reset deviceFeatures setDriverFeatures
  simp only [read, write, Driver.put_bind, Driver.get_bind, Driver.await_bind, Driver.write_bind,
    Driver.read_bind, Driver.pure_eq, Driver.bind_done]
  refine .write (hp.writes _ _ _) fun s₁ h₁ => ?_
  refine (Finishes.poll (n := 13) (fun m s => (regs s).resetting = true ∧ left s = m)
    ⟨h.resets _ _ h₁, rfl⟩ (fun m s _ => hp.reads _ _) (fun m s v s' hI hd hr => ?_)
    fun m s v s' _ _ _ => ?_).mono (Nat.add_le_add_left (hp.left_le s₁) _)
  · obtain ⟨hresetting, rfl⟩ := hI
    have hne : v ≠ 0 := by simpa using hr
    have hstatus := h.showsStatus s v s' hd
    rw [if_pos hresetting] at hstatus
    rcases hstatus with ⟨hzero, -⟩ | ⟨-, hgo⟩
    · exact absurd hzero hne
    · exact ⟨left s', hp.resets s v s' hd hresetting hne, hgo, rfl⟩
  · refine .write (hp.writes _ _ _) fun _ _ => .write (hp.writes _ _ _) fun _ _ => .write (hp.writes _ _ _) fun _ _ =>
      .read (hp.reads _ _) fun high _ _ => .write (hp.writes _ _ _) fun _ _ => .read (hp.reads _ _) fun low _ _ => ?_
    split
    · exact .write (hp.writes _ _ _) fun _ _ => .done _
    · refine .write (hp.writes _ _ _) fun _ _ => .write (hp.writes _ _ _) fun _ _ =>
        .write (hp.writes _ _ _) fun _ _ => .write (hp.writes _ _ _) fun _ _ => .write (hp.writes _ _ _) fun _ _ =>
          .read (hp.reads _ _) fun v _ _ => ?_
      split
      · exact .write (hp.writes _ _ _) fun _ _ => .done _
      · exact .done _

/-- With a device that keeps to its registers negotiation comes to an end, and then both
sides have the features that were offered and wanted, or the device was given up. -/
theorem both_sides_agree {left : σ → Nat} {bound : Nat} (h : Conforms D t offers accepts regs)
    (hp : Prompt D t regs left bound) (wanted : BitVec 64) (s : σ) {l : List Access} {s' : σ}
    {p : Driver (Except Error (BitVec 64))} (hpath : Path D s l s') (hrun : (t.negotiate wanted).run l = some p) :
    (∀ r, p = .done r → Settled offers accepts wanted r (regs s')) ∧
    l.length ≤ 15 + bound ∧
    ∃ l' r s'', Path D s' l' s'' ∧ p.run l' = some (.done r) := by
  obtain ⟨hlen, hends⟩ := (negotiate_finishes h hp wanted s).ends hpath hrun
  refine ⟨fun r hr => ?_, by omega, hends⟩
  subst hr
  exact (negotiate_agrees h wanted s l _ s' hpath hrun).2 r rfl

/-- Once the two have agreed the device is set going with what they agreed on. -/
theorem setDriverOk_achieves (h : Conforms D t offers accepts regs) {s : σ} {agreed : BitVec 64}
    (hs : regs s = ⟨11, agreed, 0, 0, false⟩) (haccepts : accepts agreed = true) :
    Achieves D s t.setDriverOk fun _ s' => regs s' = ⟨15, agreed, 0, 0, false⟩ := by
  unfold setDriverOk
  simp only [read, write, Driver.get_bind]
  refine .read trivial fun v s₁ h₁ => .write trivial fun s₂ h₂ => .done trivial ?_
  have g₁ := h.showsStatus _ _ _ h₁
  rw [hs] at g₁
  obtain ⟨rfl, g₁⟩ : v = 11 ∧ regs s₁ = ⟨11, agreed, 0, 0, false⟩ := g₁
  have g₂ := h.holds _ _ _ h₂ (by decide)
  rw [g₁, haccepts] at g₂
  exact g₂

/-- What is acknowledged is what the device showed, and nothing if that was nothing. -/
theorem ackInterrupt_run {l : List Access} {v : BitVec 32} (hrun : t.ackInterrupt.run l = some (.done v)) :
    l = .read (t.base + interruptStatus) v :: if v = 0 then [] else [.write (t.base + interruptAck) v] := by
  suffices hruns : Achieves Recorder [] t.ackInterrupt fun v l =>
      l = .read (t.base + interruptStatus) v :: if v = 0 then [] else [.write (t.base + interruptAck) v] from
    (hruns.recorded hrun).2 v rfl
  unfold ackInterrupt
  simp only [read, write, Driver.get_bind]
  refine .read trivial fun v s₁ h₁ => ?_
  split
  · rename_i hv
    refine .write trivial fun s₂ h₂ => .done trivial ?_
    rw [h₂, h₁, if_neg hv]
    rfl
  · rename_i hv
    refine .done trivial ?_
    rw [h₁, if_pos (Decidable.not_not.mp hv)]
    rfl

/-- The access disturbs no device: it reads, or selects what to read. -/
def Harmless (t : Transport) : Access → Prop
  | .read _ _ => True
  | .write offset _ => offset = t.base + deviceFeaturesSel
  | .writeByte _ _ => False

theorem harmless_read {offset : Nat} {v : BitVec 32} : t.Harmless (.read offset v) := trivial

theorem harmless_sel {v : BitVec 32} : t.Harmless (.write (t.base + deviceFeaturesSel) v) := rfl

/-- Looking whether there is a device disturbs none, and takes for one what has the magic
number and the version. -/
theorem probe_runs (t : Transport) :
    Runs Recorder (fun l => ∀ e ∈ l, t.Harmless e) [] t.probe fun r l =>
      ∀ t', r = .ok t' → .read (t.base + magicValue) magic ∈ l ∧ .read (t.base + versionReg) version ∈ l ∧
        t'.base = t.base ∧ t'.intid = t.intid := by
  have hnext : ∀ {l l' : List Access} {e : Access}, (∀ e ∈ l, t.Harmless e) → t.Harmless e → Recorder l e l' →
      ∀ e ∈ l', t.Harmless e := by
    intro l l' e hl he hrec e' he'
    rw [hrec, List.mem_append, List.mem_singleton] at he'
    rcases he' with he' | rfl
    · exact hl e' he'
    · exact he
  unfold probe deviceFeatures
  simp only [read, write, Driver.get_bind, Driver.put_bind, Driver.pure_eq]
  have hnone : ∀ e ∈ ([] : List Access), t.Harmless e := fun e he => absurd he List.not_mem_nil
  refine .read hnone fun m l₁ h₁ => ?_
  have i₁ := hnext hnone harmless_read h₁
  split
  · exact .done i₁ nofun
  rename_i hmagic
  refine .read i₁ fun v l₂ h₂ => ?_
  have i₂ := hnext i₁ harmless_read h₂
  split
  · exact .done i₂ nofun
  rename_i hversion
  obtain rfl := Decidable.not_not.mp hmagic
  obtain rfl := Decidable.not_not.mp hversion
  refine .read i₂ fun deviceId l₃ h₃ => ?_
  have i₃ := hnext i₂ harmless_read h₃
  simp only [Driver.write_bind, Driver.read_bind, Driver.bind_done]
  refine .write i₃ fun l₄ h₄ => ?_
  have i₄ := hnext i₃ harmless_sel h₄
  refine .read i₄ fun high l₅ h₅ => ?_
  have i₅ := hnext i₄ harmless_read h₅
  refine .write i₅ fun l₆ h₆ => ?_
  have i₆ := hnext i₅ harmless_sel h₆
  refine .read i₆ fun low l₇ h₇ => .done (hnext i₆ harmless_read h₇) fun t' ht' => ?_
  obtain rfl := Except.ok.inj ht'
  refine ⟨?_, ?_, rfl, rfl⟩
  · rw [h₇, h₆, h₅, h₄, h₃, h₂, h₁]
    simp
  · rw [h₇, h₆, h₅, h₄, h₃, h₂]
    simp

/-- A device at 0 that resets at once, offers version 1 and features 3 and 5, and accepts
what has feature 5. -/
def sample (g : Registers) : Access → Registers → Prop
  | .read offset v, g' =>
    (v, g') = if offset = statusReg then if g.resetting then (0, .fresh) else (g.status, g)
      else if offset = deviceFeaturesReg then (half 0x100000028 g.deviceSel, g)
      else (0, g)
  | .write offset v, g' =>
    g' = if offset = statusReg then
        if v = 0 then { g with resetting := true }
        else { g with
          status := if v &&& featuresOk ≠ 0 ∧ g.taken.getLsbD 5 = false then v &&& ~~~featuresOk else v }
      else if offset = deviceFeaturesSel then { g with deviceSel := v }
      else if offset = driverFeaturesSel then { g with driverSel := v }
      else if offset = driverFeaturesReg then { g with taken := setHalf g.taken g.driverSel v }
      else g
  | .writeByte _ _, g' => g' = g

theorem sample_conforms :
    Conforms sample ⟨0, 0, 0, 0⟩ 0x100000028 (fun features => features.getLsbD 5) id where
  selectsDevice s v s' h := h
  shows s v s' h := (Prod.mk.inj h).symm
  selectsDriver s v s' h := h
  takes s v s' h := h
  holds s v s' h hv := by
    exact (show s' = if v = 0 then _ else _ from h).trans (if_neg hv)
  resets s s' h := congrArg Registers.resetting h
  showsStatus s v s' h := by
    have h : (v, s') = if s.resetting then (0, .fresh) else (s.status, s) := h
    cases hr : s.resetting with
    | true =>
      rw [if_pos hr] at h
      rw [if_pos (show (id s).resetting = true from hr)]
      exact .inl (Prod.mk.inj h)
    | false =>
      rw [hr, if_neg Bool.false_ne_true] at h
      simpa [hr] using h

theorem sample_prompt : Prompt sample ⟨0, 0, 0, 0⟩ id (fun _ => 0) 0 where
  reads s offset := ⟨_, _, rfl⟩
  writes s offset v := ⟨_, rfl⟩
  left_le s := Nat.le_refl 0
  resets s v s' h hr hv := by
    have h : (v, s') = if s.resetting then (0, .fresh) else (s.status, s) := h
    rw [if_pos (show s.resetting = true from hr)] at h
    exact absurd (Prod.mk.inj h).1 hv

theorem both_sides_agree_sample : ∃ l r s', Path sample .fresh l s' ∧
    (negotiate ⟨0, 0, 0, 0⟩ 0x20).run l = some (.done r) ∧ r = .ok 0x100000020 ∧
      s' = ⟨11, 0x100000020, 0, 0, false⟩ := by
  obtain ⟨-, -, l, r, s', hpath, hrun⟩ :=
    both_sides_agree sample_conforms sample_prompt 0x20 .fresh (.nil _) (Driver.run_nil _)
  obtain ⟨hsettled, -⟩ := both_sides_agree sample_conforms sample_prompt 0x20 .fresh hpath hrun
  exact ⟨l, r, s', hpath, hrun, hsettled r rfl⟩

end Transport

end TheRack
