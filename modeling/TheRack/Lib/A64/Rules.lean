/-
  Lib/A64/Rules.lean --- how the machine is reasoned about.

  Reading a register after an update, what no computing instruction touches, and
  the rule for straight-line code: a block of computing instructions runs through
  to its end and does what they do one after the other.
-/
import Mathlib.Tactic.IntervalCases
import TheRack.Lib.A64.Machine

set_option autoImplicit false

namespace Lib.A64

variable {c : Text} {m m' m'' : Machine} {a : Word} {l l' : List Instr} {ops : List Op}

/-! ## Registers -/

namespace Machine

@[simp] theorem get_zr (m : Machine) : m.get .zr = 0 := rfl

@[simp] theorem get_set (m : Machine) (n k : Fin 31) (v : Word) :
    (m.set (.x n) v).get (.x k) = if k = n then v else m.get (.x k) := by
  simp only [get, set, Function.update_apply]

@[simp] theorem get_set_sp (m : Machine) (k : Fin 31) (v : Word) :
    (m.set .sp v).get (.x k) = m.get (.x k) := rfl

@[simp] theorem set_zr (m : Machine) (v : Word) : m.set .zr v = m := rfl

@[simp] theorem sp_set (m : Machine) (n : Fin 31) (v : Word) :
    (m.set (.x n) v).get .sp = m.get .sp := rfl

@[simp] theorem sp_set_sp (m : Machine) (v : Word) : (m.set .sp v).get .sp = v :=
  Function.update_self ..

@[simp] theorem pc_set (m : Machine) (r : Reg) (v : Word) : (m.set r v).pc = m.pc := by
  cases r <;> rfl

@[simp] theorem pstate_set (m : Machine) (r : Reg) (v : Word) : (m.set r v).pstate = m.pstate := by
  cases r <;> rfl

@[simp] theorem mem_set (m : Machine) (r : Reg) (v : Word) : (m.set r v).mem = m.mem := by
  cases r <;> rfl

@[simp] theorem sys_set (m : Machine) (n : Fin 31) (v : Word) : (m.set (.x n) v).sys = m.sys := rfl

@[simp] theorem load_set (m : Machine) (r : Reg) (v b : Word) (n : Nat) :
    (m.set r v).load b n = m.load b n := by
  cases r <;> rfl

@[simp] theorem get_store (m : Machine) (r : Reg) (b : Word) (n : Nat) (v : Word) :
    (m.store b n v).get r = m.get r := by
  cases r <;> rfl

@[simp] theorem pc_store (m : Machine) (b : Word) (n : Nat) (v : Word) :
    (m.store b n v).pc = m.pc := rfl

@[simp] theorem pstate_store (m : Machine) (b : Word) (n : Nat) (v : Word) :
    (m.store b n v).pstate = m.pstate := rfl

@[simp] theorem sys_store (m : Machine) (b : Word) (n : Nat) (v : Word) :
    (m.store b n v).sys = m.sys := rfl

@[simp] theorem mem_store (m : Machine) (b : Word) (n : Nat) (v : Word) :
    (m.store b n v).mem = m.mem.writeLE b.toNat n v.toNat := rfl

@[simp] theorem get_goto (m : Machine) (a : Word) (r : Reg) : (m.goto a).get r = m.get r := by
  cases r <;> rfl

@[simp] theorem pc_goto (m : Machine) (a : Word) : (m.goto a).pc = a := rfl

@[simp] theorem sys_goto (m : Machine) (a : Word) : (m.goto a).sys = m.sys := rfl

@[simp] theorem mem_goto (m : Machine) (a : Word) : (m.goto a).mem = m.mem := rfl

@[simp] theorem pstate_goto (m : Machine) (a : Word) : (m.goto a).pstate = m.pstate := rfl

@[simp] theorem el_goto (m : Machine) (a : Word) : (m.goto a).el = m.el := rfl

@[simp] theorem goto_goto (m : Machine) (a b : Word) : (m.goto a).goto b = m.goto b := rfl

@[simp] theorem get_withMem (m : Machine) (mem : Mem) (r : Reg) : (m.withMem mem).get r = m.get r := by
  cases r <;> rfl

@[simp] theorem sp_withX (m : Machine) (x : Fin 31 → Word) : (m.withX x).get .sp = m.get .sp := rfl

/-- Nothing but a stack pointer is selected. -/
theorem ne_spReg {r : SysReg} (m : Machine) (h0 : r ≠ .spEl0) (h1 : r ≠ .spEl1) : r ≠ m.spReg := by
  unfold spReg
  split
  · exact h1
  · exact h0

theorem sys_set_sp {r : SysReg} {m : Machine} (v : Word) (h : r ≠ m.spReg) : (m.set .sp v).sys r = m.sys r :=
  Function.update_of_ne h _ _

@[simp] theorem get_setSys (m : Machine) (r : SysReg) (v : Word) (n : Fin 31) :
    (m.setSys r v).get (.x n) = m.get (.x n) := rfl

@[simp] theorem mem_setSys (m : Machine) (r : SysReg) (v : Word) : (m.setSys r v).mem = m.mem := rfl

@[simp] theorem sp_setSys_elr (m : Machine) (v : Word) : (m.setSys .elr v).get .sp = m.get .sp := by
  have h : SysReg.elr ≠ m.spReg := m.ne_spReg nofun nofun
  exact Function.update_of_ne h.symm _ _

@[simp] theorem sp_setSys_spsr (m : Machine) (v : Word) : (m.setSys .spsr v).get .sp = m.get .sp := by
  have h : SysReg.spsr ≠ m.spReg := m.ne_spReg nofun nofun
  exact Function.update_of_ne h.symm _ _

/-- The flags are not the bit that selects the stack pointer. -/
@[simp] theorem spReg_setFlags (m : Machine) (f : BitVec 4) : (m.setFlags f).spReg = m.spReg := by
  simp only [spReg, setFlags, BitVec.getLsbD_append, BitVec.getLsbD_extractLsb']
  simp

@[simp] theorem get_setFlags (m : Machine) (f : BitVec 4) (r : Reg) :
    (m.setFlags f).get r = m.get r := by
  cases r with
  | sp => simp only [get, spReg_setFlags]; rfl
  | _ => rfl

@[simp] theorem pc_setFlags (m : Machine) (f : BitVec 4) : (m.setFlags f).pc = m.pc := rfl

@[simp] theorem sys_setFlags (m : Machine) (f : BitVec 4) : (m.setFlags f).sys = m.sys := rfl

@[simp] theorem mem_setFlags (m : Machine) (f : BitVec 4) : (m.setFlags f).mem = m.mem := rfl

@[simp] theorem el_setFlags (m : Machine) (f : BitVec 4) : (m.setFlags f).el = m.el := by
  unfold el setFlags
  ext i hi
  simp only [BitVec.getElem_extractLsb', BitVec.getLsbD_append, BitVec.getLsbD_extractLsb']
  grind

@[simp] theorem el_setDaif (m : Machine) (v : BitVec 4) : (m.setDaif v).el = m.el := by
  unfold el setDaif
  ext i hi
  simp only [BitVec.getElem_extractLsb', BitVec.getLsbD_append, BitVec.getLsbD_extractLsb']
  grind

@[simp] theorem spReg_setDaif (m : Machine) (v : BitVec 4) : (m.setDaif v).spReg = m.spReg := by
  simp only [spReg, setDaif, BitVec.getLsbD_append, BitVec.getLsbD_extractLsb']
  simp

@[simp] theorem get_setDaif (m : Machine) (v : BitVec 4) (r : Reg) :
    (m.setDaif v).get r = m.get r := by
  cases r with
  | sp => simp only [get, spReg_setDaif]; rfl
  | _ => rfl

@[simp] theorem pc_setDaif (m : Machine) (v : BitVec 4) : (m.setDaif v).pc = m.pc := rfl

@[simp] theorem sys_setDaif (m : Machine) (v : BitVec 4) : (m.setDaif v).sys = m.sys := rfl

@[simp] theorem mem_setDaif (m : Machine) (v : BitVec 4) : (m.setDaif v).mem = m.mem := rfl

@[simp] theorem daif_setDaif (m : Machine) (v : BitVec 4) : (m.setDaif v).daif = v := by
  unfold daif setDaif
  ext i hi
  simp only [BitVec.getElem_extractLsb', BitVec.getLsbD_append, BitVec.getLsbD_extractLsb']
  grind

end Machine

/-! ## Taking an exception -/

/-- The handler runs on the higher level, -/
theorem el_takeException (v ret : Word) (m : Machine) : (takeException v ret m).el = 1 := by
  unfold Machine.el takeException
  ext i hi
  have hlow : 2 + i < 6 := by omega
  simp only [BitVec.getElem_extractLsb', BitVec.getLsbD_append, if_pos hlow]
  interval_cases i <;> simp

/-- on that level's stack. -/
theorem spReg_takeException (v ret : Word) (m : Machine) : (takeException v ret m).spReg = .spEl1 := by
  unfold Machine.spReg takeException
  simp only [BitVec.getLsbD_append]
  rfl

/-! ## What computing leaves alone -/

theorem exec_el (o : Op) (m : Machine) : (o.exec m).el = m.el := by
  have hset : ∀ (n : Machine) (r : Reg) (v : Word), (n.set r v).el = n.el := fun n r v => by
    unfold Machine.el
    rw [Machine.pstate_set]
  have hstore : ∀ (n : Machine) (b : Word) (k : Nat) (v : Word), (n.store b k v).el = n.el :=
    fun _ _ _ _ => rfl
  have hmsr : ∀ (r : SysReg) (v : Word), (m.setSys r v).el = m.el := fun _ _ => rfl
  cases o <;> simp only [Op.exec, hset, hstore, Machine.el_setFlags, Machine.el_setDaif, hmsr]

/-- Nothing that computes looks at the program counter. -/
theorem exec_goto (o : Op) (m : Machine) (a : Word) : o.exec (m.goto a) = (o.exec m).goto a := by
  have hset : ∀ (n : Machine) (r : Reg) (v : Word), (n.goto a).set r v = (n.set r v).goto a :=
    fun n r v => by cases r <;> rfl
  have hstore : ∀ (n : Machine) (b : Word) (k : Nat) (v : Word),
      (n.goto a).store b k v = (n.store b k v).goto a := fun _ _ _ _ => rfl
  have hload : ∀ (n : Machine) (b : Word) (k : Nat), (n.goto a).load b k = n.load b k :=
    fun _ _ _ => rfl
  have hflags : ∀ f : BitVec 4, (m.goto a).setFlags f = (m.setFlags f).goto a := fun _ => rfl
  have hdaif : ∀ f : BitVec 4, (m.goto a).setDaif f = (m.setDaif f).goto a := fun _ => rfl
  have hmask : (m.goto a).daif = m.daif := rfl
  have hsys : (m.goto a).sys = m.sys := rfl
  have hmsr : ∀ (r : SysReg) (v : Word), (m.goto a).setSys r v = (m.setSys r v).goto a := fun _ _ => rfl
  cases o <;> simp only [Op.exec, Machine.get_goto, hset, hstore, hload, hflags, hdaif, hmask, hsys, hmsr]

/-- One computing instruction after the other. -/
def execs (ops : List Op) (m : Machine) : Machine := ops.foldl (fun m o => o.exec m) m

@[simp] theorem execs_nil (m : Machine) : execs [] m = m := rfl

@[simp] theorem execs_cons (o : Op) (ops : List Op) (m : Machine) :
    execs (o :: ops) m = execs ops (o.exec m) := rfl

theorem execs_append (ops ops' : List Op) (m : Machine) :
    execs (ops ++ ops') m = execs ops' (execs ops m) := List.foldl_append

theorem execs_goto (ops : List Op) (m : Machine) (a : Word) :
    execs ops (m.goto a) = (execs ops m).goto a := by
  induction ops generalizing m with
  | nil => rfl
  | cons o ops ih => rw [execs_cons, exec_goto, ih, execs_cons]

/-! ## Where the instructions of a routine are -/

/-- An address that does not wrap. -/
theorem toNat_add {w : Word} (k : Nat) (h : w.toNat + k < 2 ^ 64) :
    (w + BitVec.ofNat 64 k).toNat = w.toNat + k := by
  rw [BitVec.toNat_add, BitVec.toNat_ofNat, Nat.mod_eq_of_lt (by omega : k < 2 ^ 64),
    Nat.mod_eq_of_lt h]

@[simp] theorem instrAt_zero (a : Word) : instrAt a 0 = a := by
  unfold instrAt
  simp

theorem instrAt_add (a : Word) (i j : Nat) : instrAt (instrAt a i) j = instrAt a (i + j) := by
  unfold instrAt
  rw [BitVec.add_assoc, ← BitVec.ofNat_add, Nat.mul_add]

theorem instrAt_succ (a : Word) (k : Nat) : instrAt (a + 4) k = instrAt a (k + 1) := by
  rw [Nat.add_comm, ← instrAt_add]
  rfl

/-- The next instruction. -/
theorem instrAt_next (a : Word) (k : Nat) : instrAt a k + 4 = instrAt a (k + 1) := instrAt_add a k 1

namespace Has

/-- The rest of a routine is where it follows. -/
theorem drop (h : Has c a l) (k : Nat) : Has c (instrAt a k) (l.drop k) := by
  induction k generalizing a l with
  | zero => simpa using h
  | succ k ih =>
    cases l with
    | nil => trivial
    | cons i l =>
      rw [← instrAt_succ]
      exact ih h.2

theorem right (h : Has c a (l ++ l')) : Has c (instrAt a l.length) l' := by
  simpa using h.drop l.length

theorem left (h : Has c a (l ++ l')) : Has c a l := by
  induction l generalizing a with
  | nil => trivial
  | cons i l ih => exact ⟨h.1, ih h.2⟩

theorem head {i : Instr} (h : Has c a (i :: l)) : c a = some i := h.1

theorem tail {i : Instr} (h : Has c a (i :: l)) : Has c (instrAt a 1) l := h.2

end Has

/-- A routine is where its instructions are. -/
theorem has_of_getElem (h : ∀ k (hk : k < l.length), c (instrAt a k) = some l[k]) : Has c a l := by
  induction l generalizing a with
  | nil => trivial
  | cons i l ih =>
    refine ⟨?_, ih fun k hk => ?_⟩
    · have h0 := h 0 (Nat.succ_pos _)
      rw [instrAt_zero] at h0
      exact h0
    · rw [instrAt_succ]
      exact h (k + 1) (Nat.succ_lt_succ hk)

/-- A routine that does not run over the end of the addresses is where it was put. -/
theorem has_place (a : Word) (l : List Instr) (hlen : 4 * l.length ≤ 2 ^ 64) :
    Has (place a l) a l := by
  suffices h : ∀ (l₁ l₂ : List Instr) (f : Text), 4 * (l₁.length + l₂.length) ≤ 2 ^ 64 →
      (∀ w, (∀ k < l₁.length, w ≠ instrAt a k) → f w = place (instrAt a l₁.length) l₂ w) →
      Has f (instrAt a l₁.length) l₂ by
    have h0 := h [] l (place a l) (by simpa using hlen) fun w _ => by simp
    simpa using h0
  intro l₁ l₂
  induction l₂ generalizing l₁ with
  | nil => intros; trivial
  | cons i l₂ ih =>
    intro f hlen hf
    rw [List.length_cons] at hlen
    have hne : ∀ k < l₁.length, instrAt a l₁.length ≠ instrAt a k := by
      intro k hk heq
      have h2 := BitVec.add_right_inj _ |>.mp heq
      have h3 := congrArg BitVec.toNat h2
      simp only [BitVec.toNat_ofNat] at h3
      rw [Nat.mod_eq_of_lt (by omega), Nat.mod_eq_of_lt (by omega)] at h3
      omega
    refine ⟨?_, ?_⟩
    · rw [hf _ hne]
      simp [place]
    · have hnext := ih (l₁ ++ [i]) f (by simp only [List.length_append, List.length_singleton]; omega)
        fun w hw => ?_
      · rw [List.length_append, List.length_singleton, ← instrAt_add] at hnext
        exact hnext
      · have hw' : ∀ k < l₁.length, w ≠ instrAt a k := fun k hk =>
          hw k (by simp only [List.length_append, List.length_singleton]; omega)
        have hlast : w ≠ instrAt a l₁.length := hw _ (by simp)
        rw [hf w hw', List.length_append, List.length_singleton, ← instrAt_add]
        show (if w = instrAt a l₁.length then some i else _) = _
        rw [if_neg hlast]
        rfl

/-! ## Running -/

theorem steps_succ {k : Nat} (h : step c m = some m') : steps c (k + 1) m = steps c k m' := by
  show (step c m).bind (steps c k) = _
  rw [h]
  rfl

theorem steps_add (c : Text) (j k : Nat) (m : Machine) :
    steps c (j + k) m = (steps c j m).bind (steps c k) := by
  induction j generalizing m with
  | zero =>
    rw [Nat.zero_add]
    rfl
  | succ j ih =>
    rw [Nat.succ_add]
    cases h : step c m with
    | none =>
      show (step c m).bind _ = ((step c m).bind _).bind _
      rw [h]
      rfl
    | some n => rw [steps_succ h, steps_succ h, ih]

theorem steps_trans {j k : Nat} (h : steps c j m = some m') (h' : steps c k m' = some m'') :
    steps c (j + k) m = some m'' := by
  rw [steps_add, h]
  exact h'

theorem steps_one (h : step c m = some m') : steps c 1 m = some m' := steps_succ h

/-- A block of computing instructions runs through. -/
theorem steps_block (h : Has c m.pc (ops.map .op)) (hel : ∀ o ∈ ops, o.privileged = true → m.el ≠ 0) :
    steps c ops.length m = some ((execs ops m).goto (instrAt m.pc ops.length)) := by
  induction ops generalizing m with
  | nil =>
    rw [List.length_nil, instrAt_zero]
    rfl
  | cons o ops ih =>
    have hstep : step c m = some ((o.exec m).goto (m.pc + 4)) := by
      have hno : ¬ (o.privileged = true ∧ m.el = 0) := fun hp =>
        hel o List.mem_cons_self hp.1 hp.2
      unfold step
      rw [h.1]
      exact if_neg hno
    have hrest := ih (m := (o.exec m).goto (m.pc + 4)) h.2 fun p hp hpriv => by
      rw [Machine.el_goto, exec_el]
      exact hel p (List.mem_cons_of_mem _ hp) hpriv
    rw [execs_goto, Machine.goto_goto, Machine.pc_goto, instrAt_succ] at hrest
    rw [List.length_cons, steps_succ hstep]
    exact hrest

namespace Steps

theorem refl (c : Text) (m : Machine) : Steps c m m := ⟨0, rfl⟩

theorem trans (h : Steps c m m') (h' : Steps c m' m'') : Steps c m m'' := by
  obtain ⟨j, hj⟩ := h
  obtain ⟨k, hk⟩ := h'
  exact ⟨j + k, steps_trans hj hk⟩

theorem one (h : step c m = some m') : Steps c m m' := ⟨1, steps_one h⟩

/-- One instruction, and on from there. -/
theorem next (h : step c m = some m') (h' : Steps c m' m'') : Steps c m m'' := (one h).trans h'

theorem block (h : Has c m.pc (ops.map .op)) (hel : ∀ o ∈ ops, o.privileged = true → m.el ≠ 0) :
    Steps c m ((execs ops m).goto (instrAt m.pc ops.length)) := ⟨_, steps_block h hel⟩

end Steps

end Lib.A64
