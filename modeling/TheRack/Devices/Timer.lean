/-
  Devices/Timer.lean --- the tick of timer.rs.

  The timer fires when the counter gets to the deadline, and every tick sets the
  next deadline itself: an interval after the last one, or after now when that has
  passed already.  Over a whole run the ticks never get ahead of the counter, and
  they keep up with it exactly when no tick was taken an interval late.
-/
import TheRack.Crash
import TheRack.Lib.Refines

set_option autoImplicit false

namespace TheRack

open Lib

/-- The counter, its compare register, and `TICKS`. -/
structure Timer where
  /-- `CNTFRQ_EL0` -/
  frequency : Nat
  /-- `CNTPCT_EL0` -/
  count : Nat
  /-- `CNTP_CVAL_EL0` -/
  deadline : Nat
  /-- `TICKS` -/
  ticks : Nat

namespace Timer

/-- `TICK_HZ`. -/
def tickHz : Nat := 100

/-- `interval`. -/
def interval (t : Timer) : Nat := t.frequency / tickHz

/-- `arm_first`. -/
def armFirst : Code Timer Unit := do
  let t ← get
  set { t with deadline := (← Code.lift (add64 t.count t.interval)) }

/-- `arm_next`. -/
def armNext : Code Timer Unit := do
  let t ← get
  let next ← Code.lift (add64 t.deadline t.interval)
  if next ≤ t.count then
    set { t with deadline := (← Code.lift (add64 t.count t.interval)) }
  else
    set { t with deadline := next }

/-- `on_tick`, up to asking for a reschedule. -/
def onTick : Code Timer Unit := do
  armNext
  let t ← get
  set { t with ticks := (← Code.lift (add64 t.ticks 1)) }

/-- `init`, with the counter as it finds it. -/
def start (t : Timer) : Except Crash Timer := (armFirst { t with ticks := 0 }).map (·.2)

/-- What happens: time passes, and a tick is taken, an interval after its deadline or
not. -/
inductive Event
  | pass
  | tick (late : Bool)

/-- A tick is taken once its deadline has come, at the time that `arm_next` reads. -/
inductive Step : Timer → Event → Timer → Prop
  | pass {t : Timer} {now : Nat} (h : t.count ≤ now) : Step t .pass { t with count := now }
  | tick {t t' : Timer} (hdue : t.deadline ≤ t.count) (htick : onTick t = .ok ((), t')) :
      Step t (.tick (decide (t.deadline + t.interval ≤ t.count))) t'

variable {t t' : Timer} {a : Event} {l : List Event}

/-- What a sum that did not overflow is. -/
theorem add64_eq {a b c : Nat} (h : add64 a b = .ok c) : c = a + b := by
  unfold add64 at h
  split at h
  · exact (Except.ok.inj h).symm
  · exact nomatch h

/-- What a tick does. -/
theorem onTick_ok (h : onTick t = .ok ((), t')) :
    t' = { t with
      deadline := if t.deadline + t.interval ≤ t.count then t.count + t.interval else t.deadline + t.interval
      ticks := t.ticks + 1 } := by
  obtain ⟨⟨⟩, t₁, harm, hcount⟩ := Code.of_bind_ok h
  unfold armNext at harm
  rw [Code.bind_ok (Code.get_apply t)] at harm
  obtain ⟨next, hnext, harm⟩ := Code.of_lift_bind_ok harm
  rw [Code.bind_ok (Code.get_apply t₁)] at hcount
  obtain ⟨ticks, hticks, hset⟩ := Code.of_lift_bind_ok hcount
  have hlast : t' = { t₁ with ticks } := (congrArg Prod.snd (Except.ok.inj hset)).symm
  rw [add64_eq hnext] at harm
  by_cases hle : t.deadline + t.interval ≤ t.count
  · simp only [hle, if_true] at harm ⊢
    obtain ⟨later, hlater, harm⟩ := Code.of_lift_bind_ok harm
    have ht₁ : t₁ = { t with deadline := later } := (congrArg Prod.snd (Except.ok.inj harm)).symm
    rw [hlast, add64_eq hticks, ht₁, add64_eq hlater]
  · simp only [hle, if_false] at harm ⊢
    have ht₁ : t₁ = { t with deadline := t.deadline + t.interval } :=
      (congrArg Prod.snd (Except.ok.inj harm)).symm
    rw [hlast, add64_eq hticks, ht₁]

/-- What `init` leaves. -/
theorem start_ok (h : start t = .ok t') :
    t' = { t with deadline := t.count + t.interval, ticks := 0 } := by
  unfold start at h
  cases hr : armFirst { t with ticks := 0 } with
  | error e =>
    rw [hr] at h
    exact nomatch h
  | ok r =>
    rw [hr] at h
    have hlast : t' = r.2 := (Except.ok.inj h).symm
    unfold armFirst at hr
    rw [Code.bind_ok (Code.get_apply _)] at hr
    obtain ⟨d, hd, hset⟩ := Code.of_lift_bind_ok (b := r.1) hr
    have hsum : d = t.count + t.interval := add64_eq hd
    rw [hlast, ← hsum]
    exact (congrArg Prod.snd (Except.ok.inj hset)).symm

/-- The accounts of a run that began at `c₀` with the interval `i`, where `late` tells
whether a tick was taken late.  Then the deadline is an interval off for good. -/
structure Accounts (c₀ i : Nat) (late : Bool) (t : Timer) : Prop where
  interval : t.interval = i
  count : c₀ + t.ticks * i ≤ t.count
  soon : t.deadline ≤ t.count + i
  onTime : late = false → t.deadline = c₀ + (t.ticks + 1) * i
  behind : late = true → c₀ + (t.ticks + 2) * i ≤ t.deadline ∧ c₀ + (t.ticks + 1) * i ≤ t.count

theorem accounts_start (h : start t = .ok t') : Accounts t.count t.interval false t' := by
  rw [start_ok h]
  constructor
  · rfl
  · simp
  · simp
  · intro
    simp
  · intro hl
    exact nomatch hl

/-- Whether a tick was taken late. -/
def Event.isLate : Event → Bool
  | pass => false
  | tick late => late

/-- What time that passes keeps. -/
theorem accounts_pass {c₀ i now : Nat} {late : Bool} (hA : Accounts c₀ i late t) (h : t.count ≤ now) :
    Accounts c₀ i late { t with count := now } := by
  constructor
  · exact hA.interval
  · exact Nat.le_trans hA.count h
  · exact Nat.le_trans hA.soon (Nat.add_le_add_right h i)
  · exact hA.onTime
  · intro hl
    exact ⟨(hA.behind hl).1, Nat.le_trans (hA.behind hl).2 h⟩

/-- What a tick keeps. -/
theorem accounts_tick {c₀ i : Nat} {late : Bool} (hA : Accounts c₀ i late t) (hdue : t.deadline ≤ t.count)
    (h : onTick t = .ok ((), t')) :
    Accounts c₀ i (late || decide (t.deadline + t.interval ≤ t.count)) t' := by
  obtain ⟨f, c, d, k⟩ := t
  obtain ⟨hint, hcount, -, honTime, hbehind⟩ := hA
  rw [onTick_ok h]
  simp only [hint] at hdue hcount honTime hbehind ⊢
  have h1 : (k + 1) * i = k * i + i := Nat.succ_mul k i
  have h2 : (k + 2) * i = k * i + i + i := by rw [Nat.succ_mul, h1]
  have h3 : (k + 3) * i = k * i + i + i + i := by rw [Nat.succ_mul, h2]
  simp only [h1, h2] at honTime hbehind
  -- the deadline that has come is the one of this tick, or a later one
  have hdeadline : c₀ + k * i + i ≤ d ∧ (late = true → c₀ + k * i + i + i ≤ d) := by
    cases late with
    | false =>
      have := honTime rfl
      exact ⟨by omega, nofun⟩
    | true =>
      have := (hbehind rfl).1
      exact ⟨by omega, fun _ => by omega⟩
  constructor
  · exact hint
  · simp only [h1]
    omega
  · dsimp only
    split <;> omega
  · intro hl
    simp only [Bool.or_eq_false_iff, decide_eq_false_iff_not] at hl
    have hd := honTime hl.1
    simp only [hl.2, if_false, h2]
    omega
  · intro hl
    simp only [h2, h3]
    split
    · omega
    · next hnow =>
      simp only [hnow, decide_false, Bool.or_false] at hl
      have := hdeadline.2 hl
      omega

/-- The accounts are kept. -/
theorem accounts_step {c₀ i : Nat} {late : Bool} (hA : Accounts c₀ i late t) (h : Step t a t') :
    Accounts c₀ i (late || a.isLate) t' := by
  cases h with
  | pass hle =>
    rw [show (late || Event.pass.isLate) = late from Bool.or_false late]
    exact accounts_pass hA hle
  | tick hdue htick => exact accounts_tick hA hdue htick

/-- And over a run, whose lateness is that of any of its ticks. -/
theorem accounts_run {c₀ i : Nat} {late : Bool} (h : Path Step t l t') (hA : Accounts c₀ i late t) :
    Accounts c₀ i (late || l.any Event.isLate) t' := by
  induction h generalizing late with
  | nil =>
    rw [List.any_nil, Bool.or_false]
    exact hA
  | cons hstep _ ih =>
    rw [List.any_cons, ← Bool.or_assoc]
    exact ih (accounts_step hA hstep)

theorem any_isLate : l.any Event.isLate = true ↔ .tick true ∈ l := by
  rw [List.any_eq_true]
  constructor
  · rintro ⟨a, ha, hlate⟩
    cases a with
    | pass => exact nomatch hlate
    | tick late =>
      cases hlate
      exact ha
  · intro h
    exact ⟨_, h, rfl⟩

/-- The ticks of the kernel's life never get ahead of the counter, the next one is never
more than an interval away, and while none is due there have been as many as intervals
have passed exactly when none was ever taken an interval late. -/
theorem ticks_keep_time {t t₀ t' : Timer} {l : List Event} (hstart : start t = .ok t₀)
    (hrun : Path Step t₀ l t') (hi : 0 < t.interval) :
    t'.ticks ≤ (t'.count - t.count) / t.interval ∧
    t'.deadline ≤ t'.count + t.interval ∧
    (t'.count < t'.deadline →
      (t'.ticks = (t'.count - t.count) / t.interval ↔ .tick true ∉ l)) := by
  have hA := accounts_run hrun (accounts_start hstart)
  rw [Bool.false_or] at hA
  have h1 : (t'.ticks + 1) * t.interval = t'.ticks * t.interval + t.interval := Nat.succ_mul _ _
  have hcount := hA.count
  refine ⟨?_, hA.soon, ?_⟩
  · rw [Nat.le_div_iff_mul_le hi]
    omega
  · intro hnext
    rw [← any_isLate, Bool.not_eq_true]
    constructor
    · intro hticks
      by_contra hlate
      have hbehind := (hA.behind (by simpa using hlate)).2
      have : t'.ticks + 1 ≤ (t'.count - t.count) / t.interval := by
        rw [Nat.le_div_iff_mul_le hi]
        omega
      omega
    · intro hlate
      have hd := hA.onTime hlate
      rw [eq_comm, Nat.div_eq_iff hi]
      omega

/-- A tick on time, then one late: two ticks in more than three intervals. -/
theorem ticks_keep_time_late :
    ∃ t₀ t' l, start ⟨1000, 0, 0, 0⟩ = .ok t₀ ∧ Path Step t₀ l t' ∧ t'.ticks = 2 ∧
      t'.count / 10 = 3 ∧ t'.deadline ≤ t'.count + 10 ∧ ¬ t'.ticks = t'.count / 10 := by
  have hrun : Path Step ⟨1000, 0, 10, 0⟩ [.pass, .tick false, .pass, .tick true] ⟨1000, 35, 45, 2⟩ := by
    apply Path.cons (@Step.pass _ 11 (by decide))
    apply Path.cons (@Step.tick _ ⟨1000, 11, 20, 1⟩ (by decide) rfl)
    apply Path.cons (@Step.pass _ 35 (by decide))
    apply Path.cons (@Step.tick _ ⟨1000, 35, 45, 2⟩ (by decide) rfl)
    exact Path.nil _
  have h := ticks_keep_time (t := ⟨1000, 0, 0, 0⟩) rfl hrun (by decide)
  refine ⟨_, _, _, rfl, hrun, rfl, rfl, h.2.1, ?_⟩
  intro hticks
  exact (h.2.2 (by decide)).mp hticks (by simp)

end Timer

end TheRack
