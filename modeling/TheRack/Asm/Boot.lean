/-
  Asm/Boot.lean --- the first instructions, of boot.S.

  Every core starts at `_start`.  Core 0 takes a stack, clears the BSS and calls
  `kernel_main` with the address of the device tree; the others park.  Here the
  instructions are run on all cores at once, in any order, on one memory.
-/
import TheRack.Lib.A64.Contracts
import TheRack.Lib.A64.Cores

set_option autoImplicit false

namespace TheRack

open Lib Lib.A64

namespace Asm

/-- The symbols that `_start` uses, as it reaches them with translation off.  They are
where linker.ld puts them. -/
structure Placing where
  /-- `__bss_start` -/
  bssStart : Word
  /-- `__bss_end` -/
  bssEnd : Word
  /-- `__stack_top` -/
  stackTop : Word
  /-- `kernel_main` -/
  kernelMain : Word
  bssStart_aligned : bssStart.toNat % 16 = 0
  bssEnd_aligned : bssEnd.toNat % 16 = 0
  ordered : bssStart.toNat ≤ bssEnd.toNat
  stack : stackTop.toNat = bssEnd.toNat + 0x10000

/-- The first half of an address, which `adrp` and `add` put together. -/
def symbol (d : Reg) (v : Word) : List Op := [.adrp d v, .add d d (v &&& 0xfff)]

/-- `_start` up to `.Lprimary`, at `a`. -/
def start (a : Word) : List Instr :=
  [.op (.mov (.x 19) (.x 0)),
   .op (.mrs (.x 0) .mpidr),
   .op (.and (.x 0) (.x 0) 0xff),
   .cbz (.x 0) (instrAt a 6),
   -- `.Lpark`
   .wfe,
   .b (instrAt a 4)]

/-- The addresses of the stack and the BSS. -/
def takeStack (L : Placing) : List Op :=
  symbol (.x 0) L.stackTop ++ [.mov .sp (.x 0)] ++ symbol (.x 0) L.bssStart ++ symbol (.x 1) L.bssEnd

/-- `.Lzero_bss`, at `z`. -/
def zeroBss (z : Word) : List Instr :=
  [.op (.cmpr (.x 0) (.x 1)),
   .bc .hs (instrAt z 4),
   .op (.strPost .zr (.x 0) 8),
   .b z]

/-- `.Lzero_done`, at `d`. -/
def handOver (L : Placing) (d : Word) : List Instr :=
  [.op (.mov (.x 0) (.x 19)),
   .bl L.kernelMain,
   -- `.Lhalt`
   .wfe,
   .b (instrAt d 2)]

/-- `_start`, at `a`. -/
def boot (L : Placing) (a : Word) : List Instr :=
  start a ++ ((takeStack L).map .op ++ (zeroBss (instrAt a 13) ++ handOver L (instrAt a 17)))

variable {c : Text} {L : Placing} {m : Machine} {a z : Word}

/-! ## The cores that park -/

/-- The core is on its way into the park loop, or in it. -/
structure Parked (a : Word) (m : Machine) : Prop where
  el : m.el ≠ 0
  secondary : m.sys .mpidr &&& 0xff ≠ 0
  place : m.pc = a ∨ m.pc = instrAt a 1 ∨ (m.pc = instrAt a 2 ∧ m.x 0 = m.sys .mpidr) ∨
    (m.pc = instrAt a 3 ∧ m.x 0 = m.sys .mpidr &&& 0xff) ∨ m.pc = instrAt a 4 ∨ m.pc = instrAt a 5

/-- It goes on, stays there, and leaves memory alone. -/
theorem Parked.step (hc : Has c a (boot L a)) (h : Parked a m) :
    ∃ m', A64.step c m = some m' ∧ Parked a m' ∧ m'.mem = m.mem := by
  obtain ⟨hel, hsecondary, hpc | hpc | ⟨hpc, h0⟩ | ⟨hpc, h0⟩ | hpc | hpc⟩ := h
  · have hi : c m.pc = some (.op (.mov (.x 19) (.x 0))) := hpc ▸ hc.head
    refine ⟨_, step_op hi hel, ⟨hel, hsecondary, .inr (.inl ?_)⟩, rfl⟩
    rw [hpc]
    rfl
  · have hi : c m.pc = some (.op (.mrs (.x 0) .mpidr)) := hpc ▸ (hc.drop 1).head
    refine ⟨_, step_op hi hel, ⟨hel, hsecondary, .inr (.inr (.inl ⟨?_, rfl⟩))⟩, rfl⟩
    rw [hpc]
    exact instrAt_next a 1
  · have hi : c m.pc = some (.op (.and (.x 0) (.x 0) 0xff)) := hpc ▸ (hc.drop 2).head
    refine ⟨_, step_op hi hel, ⟨hel, hsecondary, .inr (.inr (.inr (.inl ⟨?_, ?_⟩)))⟩, rfl⟩
    · rw [hpc]
      exact instrAt_next a 2
    · exact congrArg (· &&& 0xff) h0
  · have hi : c m.pc = some (.cbz (.x 0) (instrAt a 6)) := hpc ▸ (hc.drop 3).head
    have hgo := step_cbz hi
    rw [show m.get (.x 0) = m.x 0 from rfl, h0, if_neg hsecondary, hpc, instrAt_next] at hgo
    exact ⟨_, hgo, ⟨hel, hsecondary, .inr (.inr (.inr (.inr (.inl rfl))))⟩, rfl⟩
  · have hi : c m.pc = some .wfe := hpc ▸ (hc.drop 4).head
    have hgo := step_wfe hi
    rw [hpc, instrAt_next] at hgo
    exact ⟨_, hgo, ⟨hel, hsecondary, .inr (.inr (.inr (.inr (.inr rfl))))⟩, rfl⟩
  · have hi : c m.pc = some (.b (instrAt a 4)) := hpc ▸ (hc.drop 5).head
    exact ⟨_, step_b hi, ⟨hel, hsecondary, .inr (.inr (.inr (.inr (.inl rfl))))⟩, rfl⟩

theorem idles_parked (hc : Has c a (boot L a)) : Cores.Idles c (Parked a) := by
  refine ⟨fun m m' h hstep => ?_, fun m mem h => ⟨h.el, h.secondary, h.place⟩⟩
  obtain ⟨m₁, hstep₁, hparked, hmem⟩ := h.step hc
  obtain rfl := Option.some.inj (hstep₁.symm.trans hstep)
  exact ⟨hparked, hmem⟩

/-! ## The BSS -/

theorem writeLE_zero (mem : Mem) (k : Nat) : mem.writeLE k 8 0 = mem.fill k 8 0 := by
  funext x
  unfold Mem.writeLE Mem.fill
  rw [Nat.zero_div]
  rfl

theorem fill_fill (mem : Mem) (k i j : Nat) : (mem.fill k i 0).fill (k + i) j 0 = mem.fill k (i + j) 0 := by
  funext x
  unfold Mem.fill
  split_ifs <;> first | rfl | omega

/-- The comparison at the top of the loop. -/
theorem zero_test (hc : Has c z (zeroBss z)) (hpc : m.pc = z) :
    ∃ m', Steps c m (m'.goto (if (m.x 1).toNat ≤ (m.x 0).toNat then instrAt z 4 else instrAt z 2)) ∧
      Keeps [.zr] m m' ∧ m'.mem = m.mem := by
  obtain ⟨m₁, hrun, hm₁, hk⟩ := straight (l := (zeroBss z).drop 1) [.cmpr (.x 0) (.x 1)] hc hpc (by decide)
  have hi : c m₁.pc = some (.bc .hs (instrAt z 4)) := by
    rw [hm₁]
    exact (hc.drop 1).head
  have hgo := step_bc hi
  have hholds : Cond.hs.holds m₁ = decide ((m.x 1).toNat ≤ (m.x 0).toNat) := by
    rw [hm₁]
    exact hs_subFlags m
  have hnext : m₁.pc + 4 = instrAt z 2 := by
    rw [hm₁]
    exact instrAt_next z 1
  rw [hholds, hnext] at hgo
  simp only [decide_eq_true_eq] at hgo
  refine ⟨m₁, hrun.trans (.one hgo), hk, ?_⟩
  rw [hm₁]
  rfl

/-- The loop clears everything from `x0` up to `x1`. -/
theorem zero_loop (hc : Has c z (zeroBss z)) {n : Nat} (hpc : m.pc = z)
    (hend : (m.x 0).toNat + 8 * n = (m.x 1).toNat) :
    ∃ m', Steps c m m' ∧ m'.pc = instrAt z 4 ∧ m'.mem = m.mem.fill (m.x 0).toNat (8 * n) 0 ∧
      Keeps [.zr, .x 0] m m' := by
  induction n generalizing m with
  | zero =>
    obtain ⟨m₁, hrun, hk, hmem⟩ := zero_test hc hpc
    rw [if_pos (by omega)] at hrun
    refine ⟨_, hrun, rfl, ?_, (hk.goto _).mono (by decide)⟩
    funext x
    rw [Machine.mem_goto, hmem, Mem.fill_apply_of_not_mem (by omega)]
  | succ n ih =>
    have hlt : (m.x 1).toNat < 2 ^ 64 := (m.x 1).isLt
    obtain ⟨m₁, hrun, hk, hmem⟩ := zero_test hc hpc
    rw [if_neg (by omega)] at hrun
    obtain ⟨m₂, hrun₂, hm₂, hk₂⟩ := straight (m := m₁.goto (instrAt z 2)) (l := (zeroBss z).drop 3)
      [.strPost .zr (.x 0) 8] (hc.drop 2) rfl (by decide)
    have hb : c m₂.pc = some (.b z) := by
      have hpc₂ : m₂.pc = instrAt z 3 := by
        rw [hm₂]
        exact instrAt_add z 2 1
      rw [hpc₂]
      exact (hc.drop 3).head
    -- one word has been cleared, and the loop begins again
    have h0 : m₁.x 0 = m.x 0 := hk.x (n := 0) (by decide)
    have h1 : m₁.x 1 = m.x 1 := hk.x (n := 1) (by decide)
    have hx0 : (m₂.x 0).toNat = (m.x 0).toNat + 8 := by
      have hadd : m₂.x 0 = m₁.x 0 + 8 := by
        rw [hm₂]
        rfl
      rw [hadd, h0]
      exact toNat_add 8 (by omega)
    have hx1 : m₂.x 1 = m.x 1 := (hk₂.x (n := 1) (by decide)).trans h1
    have hmem₂ : m₂.mem = m.mem.fill (m.x 0).toNat 8 0 := by
      have hstore : m₂.mem = m₁.mem.writeLE (m₁.x 0).toNat 8 0 := by
        rw [hm₂]
        rfl
      rw [hstore, hmem, h0, writeLE_zero]
    obtain ⟨m', hrun', hpc', hmem', hk'⟩ := ih (m := m₂.goto z) rfl (by
      show (m₂.x 0).toNat + _ = (m₂.x 1).toNat
      rw [hx0, hx1]
      omega)
    refine ⟨m', ((hrun.trans hrun₂).trans (.one (step_b hb))).trans hrun', hpc', ?_, ?_⟩
    · rw [hmem', show (m₂.goto z).mem = m₂.mem from rfl, show (m₂.goto z).x 0 = m₂.x 0 from rfl, hmem₂, hx0,
        fill_fill]
      congr 1
      omega
    · exact ((((hk.goto _).trans hk₂).goto z).trans hk').mono (by decide)

/-! ## The core that goes on -/

/-- The two halves of an address. -/
theorem halves_add (v k : Word) : (v &&& ~~~k) + (v &&& k) = v := by
  have hapart : (v &&& ~~~k) &&& (v &&& k) = 0#64 := by
    ext i
    simp only [BitVec.getElem_and, BitVec.getElem_not, BitVec.getElem_zero]
    cases v[i] <;> cases k[i] <;> rfl
  rw [BitVec.add_eq_or_of_and_eq_zero _ _ hapart]
  ext i
  simp only [BitVec.getElem_or, BitVec.getElem_and, BitVec.getElem_not]
  cases v[i] <;> cases k[i] <;> rfl

theorem execs_symbol (n : Fin 31) (v : Word) (m : Machine) : execs (symbol (.x n) v) m = m.set (.x n) v := by
  have hset : execs (symbol (.x n) v) m =
      (m.set (.x n) (v &&& ~~~0xfff)).set (.x n) ((m.set (.x n) (v &&& ~~~0xfff)).get (.x n) + (v &&& 0xfff)) := rfl
  rw [hset, Machine.get_set, if_pos rfl, halves_add]
  exact congrArg m.withX (Function.update_idem _ _ _)

theorem execs_takeStack (L : Placing) (m : Machine) : execs (takeStack L) m =
    (((m.set (.x 0) L.stackTop).set .sp L.stackTop).set (.x 0) L.bssStart).set (.x 1) L.bssEnd := by
  unfold takeStack
  rw [execs_append, execs_append, execs_append, execs_symbol, execs_symbol, execs_symbol]
  rfl

/-- The primary core calls `kernel_main` with what it was given, on its stack, and memory
is as it was but for the BSS, which is clear. -/
structure HandedOver (L : Placing) (a : Word) (m m' : Machine) : Prop where
  pc : m'.pc = L.kernelMain
  dtb : m'.x 0 = m.x 0
  link : m'.x 30 = instrAt a 19
  sp : m'.get .sp = L.stackTop
  el : m'.el = m.el
  mem : m'.mem = m.mem.fill L.bssStart.toNat (L.bssEnd.toNat - L.bssStart.toNat) 0

theorem boot_primary (hc : Has c a (boot L a)) (hpc : m.pc = a) (hel : m.el ≠ 0)
    (hprimary : m.sys .mpidr &&& 0xff = 0) : ∃ m', Steps c m m' ∧ HandedOver L a m m' := by
  -- the core finds out that it is the first one
  obtain ⟨m₁, hrun₁, hm₁⟩ : ∃ m₁, Steps c m m₁ ∧ m₁ = (execs [.mov (.x 19) (.x 0), .mrs (.x 0) .mpidr,
      .and (.x 0) (.x 0) 0xff] m).goto (instrAt a 3) := by
    have hfirst : Has c m.pc ([.mov (.x 19) (.x 0), .mrs (.x 0) .mpidr, .and (.x 0) (.x 0) 0xff].map .op) := by
      rw [hpc]
      exact ⟨hc.1, hc.2.1, hc.2.2.1, trivial⟩
    have hblock := Steps.block hfirst fun _ _ _ => hel
    rw [hpc] at hblock
    exact ⟨_, hblock, rfl⟩
  have hi : c m₁.pc = some (.cbz (.x 0) (instrAt a 6)) := by
    rw [hm₁]
    exact (hc.drop 3).head
  have h0 : m₁.get (.x 0) = 0 := by
    rw [hm₁]
    exact hprimary
  have hgo := step_cbz hi
  rw [h0, if_pos rfl] at hgo
  -- takes its stack
  obtain ⟨m₂, hrun₂, hm₂, hk₂⟩ := straight (m := m₁.goto (instrAt a 6)) (takeStack L) (hc.drop 6) rfl (by
    simp [takeStack, symbol, Op.privileged])
  rw [execs_takeStack] at hm₂
  have hpc₂ : m₂.pc = instrAt a 13 := by
    rw [hm₂]
    exact instrAt_add a 6 7
  have h19 : m₂.x 19 = m.x 0 := by
    rw [hm₂, hm₁]
    rfl
  have hsp : m₂.get .sp = L.stackTop := by
    rw [hm₂]
    simp
  have hmem₂ : m₂.mem = m.mem := by
    rw [hm₂, hm₁]
    rfl
  have hel₂ : m₂.el = m.el := by
    rw [hk₂.el, hm₁]
    rfl
  -- clears the BSS
  have hx0 : m₂.x 0 = L.bssStart := by
    rw [hm₂]
    rfl
  have hx1 : m₂.x 1 = L.bssEnd := by
    rw [hm₂]
    rfl
  have hlen : 8 * ((L.bssEnd.toNat - L.bssStart.toNat) / 8) = L.bssEnd.toNat - L.bssStart.toNat := by
    have h1 := L.bssStart_aligned
    have h2 := L.bssEnd_aligned
    omega
  have hend : (m₂.x 0).toNat + 8 * ((L.bssEnd.toNat - L.bssStart.toNat) / 8) = (m₂.x 1).toNat := by
    have h3 := L.ordered
    rw [hx0, hx1, hlen]
    omega
  have hloop : Has c (instrAt a 13) (zeroBss (instrAt a 13)) :=
    (show Has c _ (zeroBss _ ++ _) from hc.drop 13).left
  obtain ⟨m₃, hrun₃, hpc₃, hmem₃, hk₃⟩ := zero_loop hloop hpc₂ hend
  rw [instrAt_add] at hpc₃
  -- and calls
  obtain ⟨m₄, hrun₄, hm₄, hk₄⟩ := straight [.mov (.x 0) (.x 19)] (hc.drop 17) hpc₃ (by decide)
  have hpc₄ : m₄.pc = instrAt a 18 := by
    rw [hm₄]
    exact instrAt_add a 17 1
  have hcall : c m₄.pc = some (.bl L.kernelMain) := by
    rw [hpc₄]
    exact (hc.drop 18).head
  have hgo₄ := step_bl hcall
  rw [hpc₄, instrAt_next] at hgo₄
  refine ⟨_, ((((hrun₁.trans (.one hgo)).trans hrun₂).trans hrun₃).trans hrun₄).trans (.one hgo₄), ?_⟩
  have hk := hk₃.trans hk₄
  exact
    { pc := rfl
      dtb := by
        have hx0 : m₄.x 0 = m₃.x 19 := by
          rw [hm₄]
          rfl
        exact hx0.trans ((hk₃.x (n := 19) (by decide)).trans h19)
      link := rfl
      sp := (hk.get .sp (by decide)).trans hsp
      el := hk.el.trans hel₂
      mem := by
        have hmem₄ : m₄.mem = m₃.mem := by
          rw [hm₄]
          rfl
        rw [Machine.mem_goto, Machine.mem_set, hmem₄, hmem₃, hmem₂, hx0, hlen] }

/-! ## All the cores -/

/-- The cores as the machine starts them: all at `_start`, above EL0, and `p` is the one
with number 0. -/
structure Released {ι : Type} (a : Word) (p : ι) (s : Cores ι) : Prop where
  pc : ∀ i, (s.core i).pc = a
  el : ∀ i, (s.core i).el ≠ 0
  primary : ∀ i, (s.core i).sys .mpidr &&& 0xff = 0 ↔ i = p

/-- After some number of its own steps core 0 is in `kernel_main`, whatever the other cores
did in between; and they never leave the park loop, and never write to memory, so that what
core 0 makes of the machine it makes alone. -/
theorem boots_alone {ι : Type} [DecidableEq ι] {p : ι} {s : Cores ι} (hc : Has c a (boot L a))
    (h : Released a p s) :
    (∃ n, ∀ l : List ι, l.count p = n → ∃ s', Cores.run c l s = some s' ∧
      HandedOver L a (s.core p) (s'.core p)) ∧
    ∀ l s', Cores.run c l s = some s' →
      steps c (l.count p) (s.core p) = some (s'.core p) ∧ ∀ i, i ≠ p → Parked a (s'.core i) := by
  have hidle := idles_parked hc
  have hparked : ∀ i, i ≠ p → Parked a (s.core i) := fun i hi =>
    ⟨h.el i, fun hzero => hi ((h.primary i).mp hzero), .inl (h.pc i)⟩
  refine ⟨?_, fun l s' hrun => hidle.alone hparked hrun⟩
  obtain ⟨m', ⟨n, hsteps⟩, hover⟩ := boot_primary hc (h.pc p) (h.el p) ((h.primary p).mpr rfl)
  refine ⟨n, fun l hl => ?_⟩
  obtain ⟨s', hrun, hcore⟩ := hidle.runs (l := l) (fun m hm => by
    obtain ⟨m₁, hstep, -⟩ := hm.step hc
    rw [hstep]
    exact Option.some_ne_none m₁) hparked (by rw [hl]; exact hsteps)
  exact ⟨s', hrun, hcore ▸ hover⟩

/-- A small image, where QEMU loads one. -/
def smallPlacing : Placing where
  bssStart := 0x40090000
  bssEnd := 0x40090100
  stackTop := 0x400a0100
  kernelMain := 0x40081000
  bssStart_aligned := by decide
  bssEnd_aligned := by decide
  ordered := by decide
  stack := by decide

/-- Two cores at `_start`, with the address of the device tree. -/
def twoCores : Cores (Fin 2) where
  cpu := fun i =>
    { x := fun n => if n = 0 then 0x48000000 else 0
      sys := fun r => if r = .mpidr then 0x80000000 + BitVec.ofNat 64 i.val else 0
      pc := 0x40080000
      pstate := 0x3c5
      mem := fun _ => 0 }
  mem := fun _ => 0xff

theorem boots_alone_two : ∃ n, ∀ l : List (Fin 2), l.count 0 = n → ∃ s',
    Cores.run (place 0x40080000 (boot smallPlacing 0x40080000)) l twoCores = some s' ∧
      (s'.core 0).pc = 0x40081000 ∧ (s'.core 0).x 0 = 0x48000000 ∧ (s'.core 0).get .sp = 0x400a0100 := by
  have hreleased : Released 0x40080000 0 twoCores := ⟨fun _ => rfl, by decide, by decide⟩
  obtain ⟨⟨n, hn⟩, -⟩ := boots_alone (L := smallPlacing) (has_place _ _ (by decide)) hreleased
  refine ⟨n, fun l hl => ?_⟩
  obtain ⟨s', hrun, hover⟩ := hn l hl
  exact ⟨s', hrun, hover.pc, hover.dtb, hover.sp⟩

end Asm

end TheRack
