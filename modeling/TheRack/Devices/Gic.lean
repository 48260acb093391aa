/-
  Devices/Gic.lean --- the interrupt controller, from gic.rs.

  The distributor is switched off, every line is set up, and both halves are switched on
  with no line enabled.  From then on the lines that get through to the core are those
  that were asked for, and until then none does.
-/
import TheRack.Lib.Mmio

set_option autoImplicit false

namespace TheRack

open Lib Lib.Mmio

/-- `GICD` and `GICC`. -/
structure Gic where
  gicd : Nat
  gicc : Nat

namespace Gic

/-- `GICD_CTLR`. -/
def gicdCtlr : Nat := 0x000

/-- `GICD_TYPER`. -/
def gicdTyper : Nat := 0x004

/-- `GICD_IGROUPR`. -/
def gicdIgroupr : Nat := 0x080

/-- `GICD_ISENABLER`. -/
def gicdIsenabler : Nat := 0x100

/-- `GICD_ICENABLER`. -/
def gicdIcenabler : Nat := 0x180

/-- `GICD_ICPENDR`. -/
def gicdIcpendr : Nat := 0x280

/-- `GICD_IPRIORITYR`. -/
def gicdIpriorityr : Nat := 0x400

/-- `GICD_ITARGETSR`. -/
def gicdItargetsr : Nat := 0x800

/-- `GICC_CTLR`. -/
def giccCtlr : Nat := 0x00

/-- `GICC_PMR`. -/
def giccPmr : Nat := 0x04

/-- `GICC_BPR`. -/
def giccBpr : Nat := 0x08

/-- `DEFAULT_PRIORITY`. -/
def defaultPriority : BitVec 8 := 0xa0

/-- `gicd_read`. -/
def gicdRead (g : Gic) (offset : Nat) : Driver (BitVec 32) := .get (g.gicd + offset)

/-- `gicd_write`. -/
def gicdWrite (g : Gic) (offset : Nat) (value : BitVec 32) : Driver Unit := .put (g.gicd + offset) value

/-- `gicd_write_byte`. -/
def gicdWriteByte (g : Gic) (offset : Nat) (value : BitVec 8) : Driver Unit := .putByte (g.gicd + offset) value

/-- `gicc_write`. -/
def giccWrite (g : Gic) (offset : Nat) (value : BitVec 32) : Driver Unit := .put (g.gicc + offset) value

/-- `num_interrupts`. -/
def numInterrupts (g : Gic) : Driver (BitVec 32) := do
  let typer ← g.gicdRead gicdTyper
  return 32 * ((typer &&& 0x1f) + 1)

/-- `init`. -/
def init (g : Gic) : Driver PUnit := do
  let lines ← g.numInterrupts
  g.gicdWrite gicdCtlr 0
  (List.range ((lines.toNat + 31) / 32)).forM fun reg => do
    g.gicdWrite (gicdIcenabler + reg * 4) 0xffffffff
    g.gicdWrite (gicdIcpendr + reg * 4) 0xffffffff
    g.gicdWrite (gicdIgroupr + reg * 4) 0
  (List.range lines.toNat).forM fun intid => g.gicdWriteByte (gicdIpriorityr + intid) defaultPriority
  (List.range' 32 (lines.toNat - 32)).forM fun intid => g.gicdWriteByte (gicdItargetsr + intid) 1
  g.gicdWrite gicdCtlr 1
  g.giccWrite giccPmr 0xff
  g.giccWrite giccBpr 0
  g.giccWrite giccCtlr 1

/-- `enable`. -/
def enable (g : Gic) (intid : Nat) : Driver PUnit :=
  g.gicdWrite (gicdIsenabler + intid / 32 * 4) ((1 : BitVec 32) <<< (intid % 32))

/-! ## A GICv2 -/

/-- How a line is set up. -/
structure Line where
  enabled : Bool
  group1 : Bool
  priority : BitVec 8
  target : BitVec 8

/-- How the two halves are. -/
structure Face where
  forwards : Bool
  signals : Bool
  mask : BitVec 8

/-- The line gets through to core 0 when it is pending.  Lines below 32 have one core. -/
structure Line.Through (f : Face) (i : Nat) (x : Line) : Prop where
  forwards : f.forwards = true
  signals : f.signals = true
  enabled : x.enabled = true
  group : x.group1 = false
  priority : x.priority < f.mask
  target : 32 ≤ i → x.target.getLsbD 0 = true

variable {σ : Type} {D : σ → Access → σ → Prop} {g : Gic} {n : Nat} {levels : BitVec 8} {line : σ → Nat → Line}
  {face : σ → Face}

/-- The lines that are not for software: their setup changes as `f` says. -/
def Lines (n : Nat) (line : σ → Nat → Line) (s s' : σ) (f : Nat → Line → Line) : Prop :=
  ∀ i, 16 ≤ i → i < 32 * (n + 1) → line s' i = f i (line s i)

/-- The device is a GICv2 with `32 * (n + 1)` lines, of whose priorities it implements the
bits `levels`. -/
structure Conforms (D : σ → Access → σ → Prop) (g : Gic) (n : Nat) (levels : BitVec 8) (line : σ → Nat → Line)
    (face : σ → Face) : Prop where
  le : n ≤ 31
  levels_high : 0xf0 &&& levels = 0xf0
  counts : ∀ s v s', D s (.read (g.gicd + gicdTyper) v) s' →
    v &&& 0x1f = BitVec.ofNat 32 n ∧ Lines n line s s' (fun _ x => x) ∧ face s' = face s
  forwards : ∀ s v s', D s (.write (g.gicd + gicdCtlr) v) s' →
    Lines n line s s' (fun _ x => x) ∧ face s' = { face s with forwards := v.getLsbD 0 }
  disables : ∀ s r v s', r ≤ n → D s (.write (g.gicd + (gicdIcenabler + r * 4)) v) s' →
    Lines n line s s' (fun i x => if i / 32 = r ∧ v.getLsbD (i % 32) = true then { x with enabled := false } else x) ∧
      face s' = face s
  enables : ∀ s r v s', r ≤ n → D s (.write (g.gicd + (gicdIsenabler + r * 4)) v) s' →
    Lines n line s s' (fun i x => if i / 32 = r ∧ v.getLsbD (i % 32) = true then { x with enabled := true } else x) ∧
      face s' = face s
  clears : ∀ s r v s', r ≤ n → D s (.write (g.gicd + (gicdIcpendr + r * 4)) v) s' →
    Lines n line s s' (fun _ x => x) ∧ face s' = face s
  groups : ∀ s r v s', r ≤ n → D s (.write (g.gicd + (gicdIgroupr + r * 4)) v) s' →
    Lines n line s s' (fun i x => if i / 32 = r then { x with group1 := v.getLsbD (i % 32) } else x) ∧ face s' = face s
  ranks : ∀ s j v s', j < 32 * (n + 1) → D s (.writeByte (g.gicd + (gicdIpriorityr + j)) v) s' →
    Lines n line s s' (fun i x => if i = j then { x with priority := v &&& levels } else x) ∧ face s' = face s
  routes : ∀ s j v s', 32 ≤ j → j < 32 * (n + 1) → D s (.writeByte (g.gicd + (gicdItargetsr + j)) v) s' →
    Lines n line s s' (fun i x => if i = j then { x with target := v } else x) ∧ face s' = face s
  masks : ∀ s v s', D s (.write (g.gicc + giccPmr) v) s' →
    Lines n line s s' (fun _ x => x) ∧ face s' = { face s with mask := v.setWidth 8 &&& levels }
  splits : ∀ s v s', D s (.write (g.gicc + giccBpr) v) s' → Lines n line s s' (fun _ x => x) ∧ face s' = face s
  signals : ∀ s v s', D s (.write (g.gicc + giccCtlr) v) s' →
    Lines n line s s' (fun _ x => x) ∧ face s' = { face s with signals := v.getLsbD 0 }

/-- The lines that get through are among `ids`. -/
def Among (n : Nat) (line : σ → Nat → Line) (face : σ → Face) (ids : List Nat) (s : σ) : Prop :=
  ∀ i, 16 ≤ i → i < 32 * (n + 1) → (line s i).Through (face s) i → i ∈ ids

/-- The lines are all set up as `f` says. -/
def All (n : Nat) (line : σ → Nat → Line) (s : σ) (P : Nat → Line → Prop) : Prop :=
  ∀ i, 16 ≤ i → i < 32 * (n + 1) → P i (line s i)

theorem All.of_lines {s s' : σ} {f : Nat → Line → Line} {P Q : Nat → Line → Prop} (h : All n line s P)
    (hl : Lines n line s s' f) (hQ : ∀ i x, P i x → Q i (f i x)) : All n line s' Q := by
  intro i hlow hi
  rw [hl i hlow hi]
  exact hQ i _ (h i hlow hi)

theorem Among.of_off {ids : List Nat} {s : σ} (h : (face s).forwards = false) : Among n line face ids s := by
  intro i _ _ hthrough
  exact nomatch h.symm.trans hthrough.forwards

theorem Among.of_disabled {ids : List Nat} {s : σ} (h : All n line s fun i x => x.enabled = true → i ∈ ids) :
    Among n line face ids s := fun i hlow hi hthrough => h i hlow hi hthrough.enabled

/-- Off, and no line is enabled or in group 1 that is in a register gone over. -/
def Cleared (n : Nat) (line : σ → Nat → Line) (face : σ → Face) (regs : List Nat) (s : σ) : Prop :=
  (face s).forwards = false ∧ All n line s fun i x => i / 32 ∈ regs → x.enabled = false ∧ x.group1 = false

theorem clear_round (h : Conforms D g n levels line face) {I : σ → Prop} {s : σ} {regs : List Nat} {r : Nat}
    (hr : r ≤ n) (hI : ∀ s', (face s').forwards = false → I s') (hs : Cleared n line face regs s) :
    Runs D I s
      (do
        g.gicdWrite (gicdIcenabler + r * 4) 0xffffffff
        g.gicdWrite (gicdIcpendr + r * 4) 0xffffffff
        g.gicdWrite (gicdIgroupr + r * 4) 0) fun _ s' => Cleared n line face (regs ++ [r]) s' := by
  obtain ⟨hoff, hall⟩ := hs
  have hones : ∀ i, (0xffffffff : BitVec 32).getLsbD (i % 32) = true := by
    intro i
    have hi : i % 32 < 32 := Nat.mod_lt i (by decide)
    generalize i % 32 = j at hi
    revert j
    decide
  simp only [gicdWrite, Driver.put_bind]
  refine .write (hI _ hoff) fun s₁ h₁ => ?_
  obtain ⟨l₁, f₁⟩ := h.disables _ r _ _ hr h₁
  refine .write (hI _ (by rw [f₁, hoff])) fun s₂ h₂ => ?_
  obtain ⟨l₂, f₂⟩ := h.clears _ r _ _ hr h₂
  refine .write (hI _ (by rw [f₂, f₁, hoff])) fun s₃ h₃ => ?_
  obtain ⟨l₃, f₃⟩ := h.groups _ r _ _ hr h₃
  have hoff₃ : (face s₃).forwards = false := by rw [f₃, f₂, f₁, hoff]
  refine .done (hI _ hoff₃) ⟨hoff₃, ?_⟩
  have hall₁ : All n line s₁ fun i x =>
      (i / 32 = r → x.enabled = false) ∧ (i / 32 ∈ regs → x.enabled = false ∧ x.group1 = false) := by
    refine hall.of_lines l₁ fun i x hx => ?_
    by_cases hir : i / 32 = r
    · rw [if_pos ⟨hir, hones i⟩]
      exact ⟨fun _ => rfl, fun hi => ⟨rfl, (hx hi).2⟩⟩
    · rw [if_neg fun h => hir h.1]
      exact ⟨fun h => absurd h hir, hx⟩
  refine (hall₁.of_lines l₂ fun i x hx => hx).of_lines l₃ fun i x hx hi => ?_
  rw [List.mem_append, List.mem_singleton] at hi
  by_cases hir : i / 32 = r
  · rw [if_pos hir]
    exact ⟨hx.1 hir, BitVec.getLsbD_zero⟩
  · rw [if_neg hir]
    exact hx.2 (hi.resolve_right hir)

/-- A loop that writes the byte of one line after the other. -/
theorem bytes_runs {I : σ → Prop} {s : σ} {l : List Nat} {base : Nat} {v : BitVec 8} {f : Line → Line}
    {P : Nat → Line → Prop} {Q : Line → Prop}
    (hwrite : ∀ s j s', j ∈ l → D s (.writeByte (g.gicd + (base + j)) v) s' →
      Lines n line s s' (fun i x => if i = j then f x else x) ∧ face s' = face s)
    (hP : ∀ i x, P i x → P i (f x)) (hQ : ∀ x, Q (f x)) (hI : ∀ s', (face s').forwards = false → I s')
    (hoff : (face s).forwards = false) (hall : All n line s P) :
    Runs D I s (l.forM fun j => g.gicdWriteByte (base + j) v) fun _ s' =>
      (face s').forwards = false ∧ All n line s' fun i x => P i x ∧ (i ∈ l → Q x) := by
  refine .forM (fun pre s' => (face s').forwards = false ∧ All n line s' fun i x => P i x ∧ (i ∈ pre → Q x))
    ⟨hoff, fun i hlow hi => ⟨hall i hlow hi, fun hi => absurd hi List.not_mem_nil⟩⟩ (fun s' hs' => hI s' hs'.1)
    fun pre j post hj s' hs' => ?_
  have hmem : j ∈ l := by
    rw [hj]
    exact List.mem_append_right _ List.mem_cons_self
  refine .writeByte (hI _ hs'.1) fun s₁ h₁ => ?_
  obtain ⟨l₁, f₁⟩ := hwrite _ j _ hmem h₁
  have hoff₁ : (face s₁).forwards = false := by rw [f₁, hs'.1]
  refine .done (hI _ hoff₁) ⟨hoff₁, hs'.2.of_lines l₁ fun i x hx => ?_⟩
  by_cases hij : i = j
  · rw [if_pos hij]
    exact ⟨hP i x hx.1, fun _ => hQ x⟩
  · rw [if_neg hij]
    refine ⟨hx.1, fun hi => hx.2 ?_⟩
    rw [List.mem_append, List.mem_singleton] at hi
    exact hi.resolve_right hij

/-- How `init` leaves a line: ready but for being enabled. -/
structure Line.Ready (levels : BitVec 8) (i : Nat) (x : Line) : Prop where
  group : x.group1 = false
  priority : x.priority = defaultPriority &&& levels
  target : 32 ≤ i → x.target = 1

/-- How it leaves the two halves. -/
def on (levels : BitVec 8) : Face := ⟨true, true, 0xff &&& levels⟩

theorem lines_eq (hn : n ≤ 31) {v : BitVec 32} (hv : v &&& 0x1f = BitVec.ofNat 32 n) :
    (32 * ((v &&& 0x1f) + 1) : BitVec 32).toNat = 32 * (n + 1) := by
  have h32 : (32 : BitVec 32).toNat = 32 := rfl
  have h1 : (1 : BitVec 32).toNat = 1 := rfl
  rw [hv, BitVec.toNat_mul, BitVec.toNat_add, BitVec.toNat_ofNat, h32, h1]
  omega

theorem init_runs (h : Conforms D g n levels line face) {I : σ → Prop} {s : σ} (hI : I s)
    (hsame : ∀ s', Lines n line s s' (fun _ x => x) → face s' = face s → I s')
    (hamong : ∀ s', Among n line face [] s' → I s') :
    Runs D I s g.init fun _ s' => face s' = on levels ∧
      All n line s' fun i x => x.enabled = false ∧ x.Ready levels i := by
  have hoff : ∀ s', (face s').forwards = false → I s' := fun s' hs' => hamong s' (.of_off hs')
  unfold init numInterrupts
  simp only [gicdRead, gicdWrite, giccWrite, gicdWriteByte, Driver.get_bind, Driver.read_bind, Driver.pure_eq,
    Driver.bind_done, Driver.put_bind]
  refine .read hI fun v s₀ h₀ => ?_
  obtain ⟨hv, l₀, f₀⟩ := h.counts _ _ _ h₀
  have hlines := lines_eq h.le hv
  have hregs : (32 * (n + 1) + 31) / 32 = n + 1 := by omega
  have hspis : 32 * (n + 1) - 32 = 32 * n := by omega
  rw [hlines, hregs, hspis]
  refine .write (hsame _ l₀ f₀) fun s₁ h₁ => ?_
  obtain ⟨-, f₁⟩ := h.forwards _ _ _ h₁
  have hoff₁ : (face s₁).forwards = false := by
    rw [f₁]
    rfl
  refine .bind ((Runs.forM (Cleared n line face) ⟨hoff₁, fun i _ _ hi => nomatch hi⟩ (fun s' hs' => hoff s' hs'.1)
    fun pre r post hr s' hs' => clear_round h ?_ hoff hs').mono (fun _ hi => hi) fun _ s₂ h₂ => ?_)
  · have hmem : r ∈ List.range (n + 1) := by
      rw [hr]
      exact List.mem_append_right _ List.mem_cons_self
    exact Nat.le_of_lt_succ (List.mem_range.mp hmem)
  obtain ⟨hoff₂, hall₂⟩ := h₂
  -- every line has a priority then
  have hall₂ : All n line s₂ fun _ x => x.enabled = false ∧ x.group1 = false :=
    fun i hlow hi => hall₂ i hlow hi (List.mem_range.mpr (by omega))
  refine .bind ((bytes_runs (Q := fun x => x.priority = defaultPriority &&& levels)
    (fun s' j s'' hj h' => h.ranks s' j _ s'' (List.mem_range.mp hj) h') (fun _ _ hx => hx) (fun _ => rfl)
    hoff hoff₂ hall₂).mono (fun _ hi => hi) fun _ s₃ h₃ => ?_)
  obtain ⟨hoff₃, hall₃⟩ := h₃
  -- and the lines that are shared a core
  refine .bind ((bytes_runs (Q := fun x => x.target = 1)
    (fun s' j s'' hj h' => h.routes s' j _ s'' (List.mem_range'_1.mp hj).1 ?_ h') (fun _ _ hx => hx) (fun _ => rfl)
    hoff hoff₃ hall₃).mono (fun _ hi => hi) fun _ s₄ h₄ => ?_)
  · have hhigh := (List.mem_range'_1.mp hj).2
    omega
  obtain ⟨hoff₄, hall₄⟩ := h₄
  have hready : All n line s₄ fun i x => x.enabled = false ∧ x.Ready levels i := by
    intro i hlow hi
    obtain ⟨⟨⟨he, hg⟩, hp⟩, ht⟩ := hall₄ i hlow hi
    exact ⟨he, hg, hp (List.mem_range.mpr hi), fun h32 => ht (List.mem_range'_1.mpr ⟨h32, by omega⟩)⟩
  have hsilent : ∀ s', (All n line s' fun i x => x.enabled = false ∧ x.Ready levels i) → I s' := by
    intro s' hs'
    refine hamong s' (.of_disabled fun i hlow hi he => ?_)
    exact nomatch (hs' i hlow hi).1.symm.trans he
  refine .write (hoff _ hoff₄) fun s₅ h₅ => ?_
  obtain ⟨l₅, f₅⟩ := h.forwards _ _ _ h₅
  have r₅ := hready.of_lines l₅ fun i x hx => hx
  refine .write (hsilent _ r₅) fun s₆ h₆ => ?_
  obtain ⟨l₆, f₆⟩ := h.masks _ _ _ h₆
  have r₆ := r₅.of_lines l₆ fun i x hx => hx
  refine .write (hsilent _ r₆) fun s₇ h₇ => ?_
  obtain ⟨l₇, f₇⟩ := h.splits _ _ _ h₇
  have r₇ := r₆.of_lines l₇ fun i x hx => hx
  refine .write (hsilent _ r₇) fun s₈ h₈ => ?_
  obtain ⟨l₈, f₈⟩ := h.signals _ _ _ h₈
  have r₈ := r₇.of_lines l₈ fun i x hx => hx
  refine .done (hsilent _ r₈) ⟨?_, r₈⟩
  rw [f₈, f₇, f₆, f₅]
  rfl

/-- The controller is set up, and some lines are enabled. -/
def bringUp (g : Gic) (ids : List Nat) : Driver PUnit := do
  g.init
  ids.forM g.enable

theorem through_ready (hlevels : 0xf0 &&& levels = 0xf0) {i : Nat} {x : Line} (hx : x.Ready levels i) :
    x.Through (on levels) i ↔ x.enabled = true := by
  refine ⟨fun h => h.enabled, fun h => ⟨rfl, rfl, h, hx.group, ?_, fun h32 => ?_⟩⟩
  · rw [hx.priority]
    show (0xa0 &&& levels) < (0xff &&& levels)
    clear hx
    revert levels
    decide
  · rw [hx.target h32]
    rfl

theorem bringUp_runs (h : Conforms D g n levels line face) {ids : List Nat}
    (hids : ∀ i ∈ ids, i < 32 * (n + 1)) (s : σ) :
    Runs D (fun s' => (Lines n line s s' (fun _ x => x) ∧ face s' = face s) ∨ Among n line face ids s') s
      (g.bringUp ids) fun _ s' =>
        ∀ i, 16 ≤ i → i < 32 * (n + 1) → ((line s' i).Through (face s') i ↔ i ∈ ids) := by
  have hinit : Runs D _ s g.init _ := init_runs h
    (I := fun s' => (Lines n line s s' (fun _ x => x) ∧ face s' = face s) ∨ Among n line face ids s')
    (.inl ⟨fun _ _ _ => rfl, rfl⟩) (fun s' hl hf => .inl ⟨hl, hf⟩)
    fun s' hs' => .inr fun i hlow hi hthrough => nomatch hs' i hlow hi hthrough
  refine .bind (hinit.mono (fun _ hi => hi) fun _ s₁ h₁ => ?_)
  obtain ⟨f₁, r₁⟩ := h₁
  refine (Runs.forM (fun pre s' => face s' = on levels ∧
    All n line s' fun i x => (x.enabled = true ↔ i ∈ pre) ∧ x.Ready levels i) ⟨f₁, fun i hlow hi => ?_⟩
    (fun s' hs' => .inr (.of_disabled fun i hlow hi he => ((hs'.2 i hlow hi).1.mp he)))
    fun pre j post hj s' hs' => ?_).mono (fun _ hi => hi) fun _ s' hs' i hlow hi => ?_
  · obtain ⟨he, hr⟩ := r₁ i hlow hi
    refine ⟨⟨fun h => absurd h (by rw [he]; exact Bool.false_ne_true), fun h => absurd h List.not_mem_nil⟩, hr⟩
  · have hmem : j ∈ ids := by
      rw [hj]
      exact List.mem_append_right _ List.mem_cons_self
    have hsub : ∀ i ∈ pre ++ [j], i ∈ ids := by
      intro i hi
      rw [hj, List.append_cons]
      exact List.mem_append_left _ hi
    have hjn := hids j hmem
    refine .write (.inr (.of_disabled fun i hlow hi he => ?_)) fun s₂ h₂ => ?_
    · exact hsub i (List.mem_append_left _ ((hs'.2 i hlow hi).1.mp he))
    obtain ⟨l₂, f₂⟩ := h.enables _ (j / 32) _ _ (by omega) h₂
    have hbit : ∀ i, i / 32 = j / 32 → (((1 : BitVec 32) <<< (j % 32)).getLsbD (i % 32) = true ↔ i = j) := by
      intro i hij
      have hi32 : i % 32 < 32 := Nat.mod_lt i (by decide)
      have hone : ∀ k, (1 : BitVec 32).getLsbD k = decide (k = 0) := by
        intro k
        exact (@BitVec.getLsbD_one 32 k).trans (by simp)
      rw [BitVec.getLsbD_shiftLeft, hone]
      simp only [hi32, decide_true, Bool.true_and, Bool.and_eq_true, Bool.not_eq_true', decide_eq_false_iff_not,
        decide_eq_true_eq]
      omega
    have r₂ : All n line s₂ fun i x => (x.enabled = true ↔ i ∈ pre ++ [j]) ∧ x.Ready levels i := by
      refine hs'.2.of_lines l₂ fun i x hx => ?_
      by_cases hij : i = j
      · rw [if_pos ⟨by rw [hij], (hbit i (by rw [hij])).mpr hij⟩]
        refine ⟨⟨fun _ => ?_, fun _ => rfl⟩, hx.2.group, hx.2.priority, hx.2.target⟩
        rw [hij]
        exact List.mem_append_right _ (List.mem_singleton_self j)
      · rw [if_neg fun h => hij ((hbit i h.1).mp h.2)]
        refine ⟨hx.1.trans ?_, hx.2⟩
        rw [List.mem_append, List.mem_singleton]
        exact ⟨.inl, fun h => h.resolve_right hij⟩
    refine .done (.inr (.of_disabled fun i hlow hi he => hsub i ((r₂ i hlow hi).1.mp he))) ⟨f₂.trans hs'.1, r₂⟩
  · obtain ⟨he, hr⟩ := hs'.2 i hlow hi
    rw [hs'.1, through_ready h.levels_high hr]
    exact he

/-- The device answers everything. -/
structure Answers (D : σ → Access → σ → Prop) : Prop where
  reads : ∀ s offset, ∃ v s', D s (.read offset v) s'
  writes : ∀ s offset v, ∃ s', D s (.write offset v) s'
  bytes : ∀ s offset v, ∃ s', D s (.writeByte offset v) s'

theorem init_finishes (h : Conforms D g n levels line face) (ha : Answers D) (s : σ) :
    Finishes D (4 + ((List.range' 32 (32 * n)).map fun _ => 1).sum + ((List.range (32 * (n + 1))).map fun _ => 1).sum +
      ((List.range (n + 1)).map fun _ => 3).sum + 1 + 1) s g.init := by
  have hanyway : ∀ {s : σ} {p : Driver PUnit}, Achieves D s p fun _ _ => True :=
    fun _ _ _ _ _ => ⟨trivial, fun _ _ => trivial⟩
  unfold init numInterrupts
  simp only [gicdRead, gicdWrite, giccWrite, gicdWriteByte, Driver.get_bind, Driver.read_bind, Driver.pure_eq,
    Driver.bind_done, Driver.put_bind]
  refine .read (ha.reads _ _) fun v s₀ h₀ => ?_
  rw [lines_eq h.le (h.counts _ _ _ h₀).1]
  have hregs : (32 * (n + 1) + 31) / 32 = n + 1 := by omega
  have hspis : 32 * (n + 1) - 32 = 32 * n := by omega
  rw [hregs, hspis]
  refine .write (ha.writes _ _ _) fun s₁ _ => ?_
  rw [Nat.add_comm _ (List.sum _)]
  refine .bind (.forM (fun _ _ => True) trivial (fun _ _ _ _ _ _ => hanyway) fun _ r _ _ s _ => ?_)
    (hanyway.mono (fun _ hi => hi) fun _ s₂ _ => ?_)
  · exact .write (ha.writes _ _ _) fun _ _ => .write (ha.writes _ _ _) fun _ _ => .write (ha.writes _ _ _) fun _ _ =>
      .done _
  rw [Nat.add_comm _ (List.sum _)]
  refine .bind (.forM (fun _ _ => True) trivial (fun _ _ _ _ _ _ => hanyway) fun _ j _ _ s _ => ?_)
    (hanyway.mono (fun _ hi => hi) fun _ s₃ _ => ?_)
  · exact .writeByte (ha.bytes _ _ _) fun _ _ => .done _
  rw [Nat.add_comm _ (List.sum _)]
  refine .bind (.forM (fun _ _ => True) trivial (fun _ _ _ _ _ _ => hanyway) fun _ j _ _ s _ => ?_)
    (hanyway.mono (fun _ hi => hi) fun _ s₄ _ => ?_)
  · exact .writeByte (ha.bytes _ _ _) fun _ _ => .done _
  · exact .write (ha.writes _ _ _) fun _ _ => .write (ha.writes _ _ _) fun _ _ => .write (ha.writes _ _ _) fun _ _ =>
      .write (ha.writes _ _ _) fun _ _ => .done _

theorem bringUp_finishes (h : Conforms D g n levels line face) (ha : Answers D) (ids : List Nat) (s : σ) :
    ∃ m, Finishes D m s (g.bringUp ids) := by
  have hanyway : ∀ {s : σ} {p : Driver PUnit}, Achieves D s p fun _ _ => True :=
    fun _ _ _ _ _ => ⟨trivial, fun _ _ => trivial⟩
  refine ⟨_, .bind (m := (ids.map fun _ => 1).sum) (init_finishes h ha s) (hanyway.mono (fun _ hi => hi) fun _ s₁ _ => ?_)⟩
  refine .forM (fun _ _ => True) trivial (fun _ _ _ _ _ _ => hanyway) fun _ j _ _ s _ => ?_
  exact .write (ha.writes _ _ _) fun _ _ => .done _

/-- Whatever state the controller is found in, from the first register written nothing
gets through that was not asked for; when it is set up exactly what was asked for gets
through; and it comes to that. -/
theorem only_enabled_get_through (h : Conforms D g n levels line face) (ha : Answers D) {ids : List Nat}
    (hids : ∀ i ∈ ids, i < 32 * (n + 1)) {s s' : σ} {l : List Access} {p : Driver PUnit} (hpath : Path D s l s')
    (hrun : (g.bringUp ids).run l = some p) :
    ((Lines n line s s' (fun _ x => x) ∧ face s' = face s) ∨ Among n line face ids s') ∧
    (∀ a, p = .done a → ∀ i, 16 ≤ i → i < 32 * (n + 1) → ((line s' i).Through (face s') i ↔ i ∈ ids)) ∧
    ∃ l' a s'', Path D s' l' s'' ∧ p.run l' = some (.done a) := by
  obtain ⟨m, hm⟩ := bringUp_finishes h ha ids s
  obtain ⟨halways, hdone⟩ := bringUp_runs h hids s l p s' hpath hrun
  exact ⟨halways, hdone, (hm.ends hpath hrun).2⟩

/-! ## A controller -/

/-- A controller at 0 with 64 lines, 16 priorities, and its other half at `0x10000`. -/
structure Sample where
  line : Nat → Line
  face : Face

namespace Sample

/-- What a write to a register does. -/
def write (s : Sample) (o : Nat) (v : BitVec 32) : Sample :=
  if o = 0 then { s with face := { s.face with forwards := v.getLsbD 0 } }
  else if o / 0x80 = 1 then
    { s with line := fun i =>
        if i / 32 = o % 0x80 / 4 then { s.line i with group1 := v.getLsbD (i % 32) } else s.line i }
  else if o / 0x80 = 2 then
    { s with line := fun i =>
        if i / 32 = o % 0x80 / 4 ∧ v.getLsbD (i % 32) = true then { s.line i with enabled := true } else s.line i }
  else if o / 0x80 = 3 then
    { s with line := fun i =>
        if i / 32 = o % 0x80 / 4 ∧ v.getLsbD (i % 32) = true then { s.line i with enabled := false } else s.line i }
  else if o = 0x10000 then { s with face := { s.face with signals := v.getLsbD 0 } }
  else if o = 0x10004 then { s with face := { s.face with mask := v.setWidth 8 &&& 0xf0 } }
  else s

/-- What a write to a byte of one does. -/
def writeByte (s : Sample) (o : Nat) (v : BitVec 8) : Sample :=
  if o < 0x800 then
    { s with line := fun i => if i = o - 0x400 then { s.line i with priority := v &&& 0xf0 } else s.line i }
  else { s with line := fun i => if i = o - 0x800 then { s.line i with target := v } else s.line i }

/-- How it answers. -/
def answers (s : Sample) : Access → Sample → Prop
  | .read _ v, s' => v = 1 ∧ s' = s
  | .write o v, s' => s' = s.write o v
  | .writeByte o v, s' => s' = s.writeByte o v

theorem conforms : Conforms answers ⟨0, 0x10000⟩ 1 0xf0 Sample.line Sample.face where
  le := by decide
  levels_high := by decide
  counts s v s' h := by
    obtain ⟨rfl, rfl⟩ := h
    exact ⟨rfl, fun _ _ _ => rfl, rfl⟩
  forwards s v s' h := by
    obtain rfl : s' = s.write 0 v := h
    exact ⟨fun _ _ _ => rfl, rfl⟩
  disables s r v s' hr h := by
    obtain rfl : s' = s.write (0 + (0x180 + r * 4)) v := h
    have h0 : 0 + (0x180 + r * 4) ≠ 0 := by omega
    have hblock : (0 + (0x180 + r * 4)) / 0x80 = 3 := by omega
    have hreg : (0 + (0x180 + r * 4)) % 0x80 / 4 = r := by omega
    simp only [write, if_neg h0, hblock, hreg]
    exact ⟨fun _ _ _ => rfl, rfl⟩
  enables s r v s' hr h := by
    obtain rfl : s' = s.write (0 + (0x100 + r * 4)) v := h
    have h0 : 0 + (0x100 + r * 4) ≠ 0 := by omega
    have hblock : (0 + (0x100 + r * 4)) / 0x80 = 2 := by omega
    have hreg : (0 + (0x100 + r * 4)) % 0x80 / 4 = r := by omega
    simp only [write, if_neg h0, hblock, hreg]
    exact ⟨fun _ _ _ => rfl, rfl⟩
  clears s r v s' hr h := by
    obtain rfl : s' = s.write (0 + (0x280 + r * 4)) v := h
    have h0 : 0 + (0x280 + r * 4) ≠ 0 := by omega
    have hblock : (0 + (0x280 + r * 4)) / 0x80 = 5 := by omega
    have h1 : 0 + (0x280 + r * 4) ≠ 0x10000 := by omega
    have h2 : 0 + (0x280 + r * 4) ≠ 0x10004 := by omega
    simp only [write, if_neg h0, hblock, if_neg h1, if_neg h2]
    exact ⟨fun _ _ _ => rfl, rfl⟩
  groups s r v s' hr h := by
    obtain rfl : s' = s.write (0 + (0x080 + r * 4)) v := h
    have h0 : 0 + (0x080 + r * 4) ≠ 0 := by omega
    have hblock : (0 + (0x080 + r * 4)) / 0x80 = 1 := by omega
    have hreg : (0 + (0x080 + r * 4)) % 0x80 / 4 = r := by omega
    simp only [write, if_neg h0, hblock, hreg]
    exact ⟨fun _ _ _ => rfl, rfl⟩
  ranks s j v s' hj h := by
    obtain rfl : s' = s.writeByte (0 + (0x400 + j)) v := h
    have hlt : 0 + (0x400 + j) < 0x800 := by omega
    have hline : 0 + (0x400 + j) - 0x400 = j := by omega
    simp only [writeByte, if_pos hlt, hline]
    exact ⟨fun _ _ _ => rfl, trivial⟩
  routes s j v s' hlow hj h := by
    obtain rfl : s' = s.writeByte (0 + (0x800 + j)) v := h
    have hge : ¬ 0 + (0x800 + j) < 0x800 := by omega
    have hline : 0 + (0x800 + j) - 0x800 = j := by omega
    simp only [writeByte, if_neg hge, hline]
    exact ⟨fun _ _ _ => rfl, trivial⟩
  masks s v s' h := by
    obtain rfl : s' = s.write 0x10004 v := h
    exact ⟨fun _ _ _ => rfl, rfl⟩
  splits s v s' h := by
    obtain rfl : s' = s.write 0x10008 v := h
    exact ⟨fun _ _ _ => rfl, rfl⟩
  signals s v s' h := by
    obtain rfl : s' = s.write 0x10000 v := h
    exact ⟨fun _ _ _ => rfl, rfl⟩

theorem answers_all : Answers answers where
  reads s _ := ⟨1, s, rfl, rfl⟩
  writes _ _ _ := ⟨_, rfl⟩
  bytes _ _ _ := ⟨_, rfl⟩

end Sample

/-- Found with everything enabled, it lets the timer through in the end and nothing else. -/
theorem only_enabled_get_through_timer : ∃ (l : List Access) (s : Sample),
    Path Sample.answers ⟨fun _ => ⟨true, false, 0, 1⟩, ⟨true, true, 0xf0⟩⟩ l s ∧
    (bringUp ⟨0, 0x10000⟩ [30]).run l = some (.done ()) ∧
    (s.line 30).Through s.face 30 ∧ ¬ (s.line 33).Through s.face 33 := by
  have hids : ∀ i ∈ [30], i < 32 * (1 + 1) := by simp
  obtain ⟨-, -, l, a, s, hpath, hrun⟩ := only_enabled_get_through Sample.conforms Sample.answers_all hids
    (.nil ⟨fun _ => ⟨true, false, 0, 1⟩, ⟨true, true, 0xf0⟩⟩) (Driver.run_nil _)
  obtain ⟨-, hdone, -⟩ := only_enabled_get_through Sample.conforms Sample.answers_all hids hpath hrun
  have hthrough := hdone a rfl
  refine ⟨l, s, hpath, hrun, (hthrough 30 (by simp) (by simp)).mpr (by simp), fun h => ?_⟩
  have hmem := (hthrough 33 (by simp) (by simp)).mp h
  simp at hmem
end Gic

end TheRack
