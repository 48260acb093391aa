/-
  Lib/A64/Contracts.lean --- routines, loops and programs that make calls.

  One rule for each instruction that moves the program counter, what the flags say
  after a comparison, and which registers a block of computing instructions keeps.
  A program that makes supervisor calls is described by an automaton: where it
  stands when it makes a call, and where each answer gets it to.
-/
import TheRack.Lib.A64.Rules

set_option autoImplicit false

namespace Lib.A64

variable {c : Text} {m m' m'' : Machine} {ops : List Op}

/-! ## One instruction -/

theorem step_b {t : Word} (h : c m.pc = some (.b t)) : step c m = some (m.goto t) := by
  unfold step
  rw [h]

theorem step_bc {k : Cond} {t : Word} (h : c m.pc = some (.bc k t)) :
    step c m = some (m.goto (if k.holds m then t else m.pc + 4)) := by
  unfold step
  rw [h]

theorem step_cbz {r : Reg} {t : Word} (h : c m.pc = some (.cbz r t)) :
    step c m = some (m.goto (if m.get r = 0 then t else m.pc + 4)) := by
  unfold step
  rw [h]

theorem step_cbnz {r : Reg} {t : Word} (h : c m.pc = some (.cbnz r t)) :
    step c m = some (m.goto (if m.get r = 0 then m.pc + 4 else t)) := by
  unfold step
  rw [h]

theorem step_bl {t : Word} (h : c m.pc = some (.bl t)) :
    step c m = some ((m.set (.x 30) (m.pc + 4)).goto t) := by
  unfold step
  rw [h]

theorem step_ret (h : c m.pc = some .ret) : step c m = some (m.goto (m.x 30)) := by
  unfold step
  rw [h]
  rfl

theorem step_op {o : Op} (h : c m.pc = some (.op o)) (hel : m.el ≠ 0) :
    step c m = some ((o.exec m).goto (m.pc + 4)) := by
  unfold step
  rw [h]
  exact if_neg fun hp => hel hp.2

theorem step_wfe (h : c m.pc = some .wfe) : step c m = some (m.goto (m.pc + 4)) := by
  unfold step
  rw [h]

theorem step_svc (h : c m.pc = some .svc) : step c m = none := by
  unfold step
  rw [h]

/-- A block that any level may execute runs through. -/
theorem Steps.plain (h : Has c m.pc (ops.map .op)) (hp : ∀ o ∈ ops, o.privileged = false) :
    Steps c m ((execs ops m).goto (instrAt m.pc ops.length)) :=
  Steps.block h fun o ho ht => Bool.noConfusion ((hp o ho).symm.trans ht)

/-! ## What the flags say -/

theorem getLsbD_setFlags (m : Machine) (f : BitVec 4) {i : Nat} (hi : i < 4) :
    (m.setFlags f).pstate.getLsbD (28 + i) = f.getLsbD i := by
  have hlow : ¬ 28 + i < 28 := by omega
  have hin : 28 + i - 28 < 4 := by omega
  have hsub : 28 + i - 28 = i := by omega
  unfold Machine.setFlags
  rw [BitVec.getLsbD_append, if_neg hlow, BitVec.getLsbD_append, if_pos hin, hsub]

variable {w : Nat} {a b : BitVec w}

@[simp] theorem holds_set (k : Cond) (m : Machine) (r : Reg) (v : Word) : k.holds (m.set r v) = k.holds m := by
  unfold Cond.holds
  rw [Machine.pstate_set]

/-- The four flags from the last to the first. -/
theorem getLsbD_nzcv (n z c v : Bool) :
    (BitVec.ofBool n ++ BitVec.ofBool z ++ BitVec.ofBool c ++ BitVec.ofBool v).getLsbD 2 = z ∧
      (BitVec.ofBool n ++ BitVec.ofBool z ++ BitVec.ofBool c ++ BitVec.ofBool v).getLsbD 1 = c := by
  revert n z c v
  decide

theorem eq_subFlags (m : Machine) : Cond.eq.holds (m.setFlags (subFlags a b)) = (a == b) :=
  (getLsbD_setFlags m _ (by decide : 2 < 4)).trans (getLsbD_nzcv _ _ _ _).1

theorem ne_subFlags (m : Machine) : Cond.ne.holds (m.setFlags (subFlags a b)) = !(a == b) :=
  congrArg (!·) (eq_subFlags m)

theorem hs_subFlags (m : Machine) : Cond.hs.holds (m.setFlags (subFlags a b)) = b.ule a :=
  (getLsbD_setFlags m _ (by decide : 1 < 4)).trans (getLsbD_nzcv _ _ _ _).2

theorem ls_subFlags (m : Machine) : Cond.ls.holds (m.setFlags (subFlags a b)) = a.ule b := by
  have hls : Cond.ls.holds (m.setFlags (subFlags a b)) =
      (!Cond.hs.holds (m.setFlags (subFlags a b)) || Cond.eq.holds (m.setFlags (subFlags a b))) := rfl
  rw [hls, hs_subFlags, eq_subFlags, Bool.eq_iff_iff]
  simp only [BitVec.ule, Bool.or_eq_true, Bool.not_eq_true', decide_eq_false_iff_not, decide_eq_true_eq,
    beq_iff_eq, ← BitVec.toNat_inj]
  omega

/-! ## What a block keeps -/

/-- The registers that an instruction writes. -/
def Op.dests : Op → List Reg
  | .mov d _ | .movz d _ | .add d _ _ | .sub d _ _ | .and d _ _ | .orr d _ _ | .subr d _ _ | .udiv d _ _
  | .msub d _ _ _ | .addw d _ _ | .subs d _ _ | .subsr d _ _ | .subsw d _ _ | .adr d _ | .adrp d _
  | .ldr d _ _ | .mrs d _ | .mrsDaif d => [d]
  | .ldrbPost t b _ => [t, b]
  | .ldp t u _ _ => [t, u]
  | .strPost _ b _ | .strbPost _ b _ => [b]
  | .str .. | .strb .. | .stp .. | .msr .. | .msrDaif .. | .daifset .. | .daifclr .. => []

/-- Nothing but the registers `l`, the flags and the memory is written. -/
structure Keeps (l : List Reg) (m m' : Machine) : Prop where
  get : ∀ r, r ∉ l → m'.get r = m.get r
  el : m'.el = m.el

namespace Keeps

variable {l l' : List Reg}

theorem refl (l : List Reg) (m : Machine) : Keeps l m m := ⟨fun _ _ => rfl, rfl⟩

theorem trans (h : Keeps l m m') (h' : Keeps l' m' m'') : Keeps (l ++ l') m m'' := by
  refine ⟨fun r hr => ?_, h'.el.trans h.el⟩
  rw [List.mem_append, not_or] at hr
  exact (h'.get r hr.2).trans (h.get r hr.1)

theorem mono (h : Keeps l m m') (hl : ∀ r ∈ l, r ∈ l') : Keeps l' m m' :=
  ⟨fun r hr => h.get r fun hmem => hr (hl r hmem), h.el⟩

theorem x {n : Fin 31} (h : Keeps l m m') (hn : Reg.x n ∉ l) : m'.x n = m.x n := h.get (.x n) hn

theorem goto (h : Keeps l m m') (t : Word) : Keeps l m (m'.goto t) :=
  ⟨fun r hr => (Machine.get_goto m' t r).trans (h.get r hr), h.el⟩

end Keeps

theorem get_set_of_ne {r d : Reg} (m : Machine) (v : Word) (h : r ≠ d) : (m.set d v).get r = m.get r := by
  cases d with
  | x n =>
    cases r with
    | x k =>
      rw [Machine.get_set, if_neg]
      exact fun heq => h (congrArg Reg.x heq)
    | sp => rfl
    | zr => rfl
  | sp =>
    cases r with
    | x k => rfl
    | sp => exact absurd rfl h
    | zr => rfl
  | zr => rfl

theorem keeps_set (m : Machine) (d : Reg) (v : Word) : Keeps [d] m (m.set d v) := by
  refine ⟨fun r hr => get_set_of_ne m v fun heq => hr (heq ▸ List.mem_singleton_self r), ?_⟩
  unfold Machine.el
  rw [Machine.pstate_set]

theorem keeps_exec (o : Op) (m : Machine) (h : o.privileged = false) : Keeps o.dests m (o.exec m) := by
  have hflags : ∀ (f : BitVec 4) (d : Reg) (v : Word), Keeps [d] m ((m.setFlags f).set d v) := fun f d v =>
    ⟨fun r hr => ((keeps_set _ d v).get r hr).trans (Machine.get_setFlags m f r),
      (keeps_set _ d v).el.trans (Machine.el_setFlags m f)⟩
  have hstore : ∀ (n : Machine) (b : Word) (k : Nat) (v : Word), Keeps [] n (n.store b k v) := fun n b k v =>
    ⟨fun r _ => Machine.get_store n r b k v, rfl⟩
  cases o with
  | subs d s v => exact hflags _ d _
  | subsr d s t => exact hflags _ d _
  | subsw d s t => exact hflags _ d _
  | str t b off => exact hstore _ _ _ _
  | strb t b off => exact hstore _ _ _ _
  | stp t u b off => exact (hstore _ _ _ _).trans (hstore _ _ _ _)
  | strPost t b inc => exact (hstore _ _ _ _).trans (keeps_set _ b _)
  | strbPost t b inc => exact (hstore _ _ _ _).trans (keeps_set _ b _)
  | ldrbPost t b inc => exact (keeps_set m t _).trans (keeps_set _ b _)
  | ldp t u b off => exact (keeps_set m t _).trans (keeps_set _ u _)
  | mrs | msr | mrsDaif | msrDaif | daifset | daifclr => exact Bool.noConfusion h
  | _ => exact keeps_set m _ _

theorem keeps_execs (ops : List Op) (m : Machine) (h : ∀ o ∈ ops, o.privileged = false) :
    Keeps (ops.flatMap Op.dests) m (execs ops m) := by
  induction ops generalizing m with
  | nil => exact .refl _ m
  | cons o ops ih =>
    exact (keeps_exec o m (h o List.mem_cons_self)).trans
      (ih (o.exec m) fun p hp => h p (List.mem_cons_of_mem _ hp))

/-- Straight-line code at the front of a routine. -/
theorem straight {p : Word} {l : List Instr} (ops : List Op) (hc : Has c p (ops.map .op ++ l)) (hpc : m.pc = p)
    (hp : ∀ o ∈ ops, o.privileged = false) :
    ∃ m', Steps c m m' ∧ m' = (execs ops m).goto (instrAt p ops.length) ∧
      Keeps (ops.flatMap Op.dests) m m' := by
  have hrun := Steps.plain (m := m) (by rw [hpc]; exact hc.left) hp
  rw [hpc] at hrun
  exact ⟨_, hrun, rfl, (keeps_execs ops m hp).goto _⟩

/-! ## Bytes -/

/-- The memory has the bytes from `a` on. -/
def Bytes (mem : Mem) : Nat → List UInt8 → Prop
  | _, [] => True
  | a, b :: bs => mem a = b ∧ Bytes mem (a + 1) bs

instance decidableBytes (mem : Mem) : (a : Nat) → (bs : List UInt8) → Decidable (Bytes mem a bs)
  | _, [] => .isTrue trivial
  | a, b :: bs =>
    have := decidableBytes mem (a + 1) bs
    inferInstanceAs (Decidable (mem a = b ∧ Bytes mem (a + 1) bs))

variable {mem mem' : Mem} {k : Nat} {bs bs' : List UInt8}

theorem bytes_append : Bytes mem k (bs ++ bs') ↔ Bytes mem k bs ∧ Bytes mem (k + bs.length) bs' := by
  induction bs generalizing k with
  | nil => simp [Bytes]
  | cons b bs ih =>
    have hshift : k + 1 + bs.length = k + (bs.length + 1) := by omega
    simp only [List.cons_append, Bytes, ih, List.length_cons, hshift, and_assoc]

theorem Bytes.congr (h : Bytes mem k bs) (hsame : ∀ a, k ≤ a → a < k + bs.length → mem' a = mem a) :
    Bytes mem' k bs := by
  induction bs generalizing k with
  | nil => trivial
  | cons b bs ih =>
    rw [List.length_cons] at hsame
    exact ⟨(hsame k (Nat.le_refl k) (by omega)).trans h.1, ih h.2 fun a h1 h2 => hsame a (by omega) (by omega)⟩

/-- The bytes that are there. -/
def bytesAt (mem : Mem) : Nat → Nat → List UInt8
  | _, 0 => []
  | a, n + 1 => mem a :: bytesAt mem (a + 1) n

theorem Bytes.bytesAt (h : Bytes mem k bs) : bytesAt mem k bs.length = bs := by
  induction bs generalizing k with
  | nil => rfl
  | cons b bs ih =>
    rw [List.length_cons, A64.bytesAt, h.1, ih h.2]

/-! ## Calls -/

/-- What a call returns. -/
structure Answer where
  r0 : Word
  r1 : Word
  r2 : Word

/-- A call returns behind the instruction that made it and changes three registers. -/
def Machine.answered (m : Machine) (r : Answer) : Machine :=
  (((m.set (.x 0) r.r0).set (.x 1) r.r1).set (.x 2) r.r2).goto (m.pc + 4)

/-- A call changes nothing else. -/
theorem keeps_answered (m : Machine) (r : Answer) : Keeps [.x 0, .x 1, .x 2] m (m.answered r) :=
  (((keeps_set m _ _).trans (keeps_set _ _ _)).trans (keeps_set _ _ _)).goto _

/-- A run of a program, with the machine as it made each call and what it was
answered. -/
inductive Calls (c : Text) : Machine → List (Machine × Answer) → Machine → Prop
  | nil {m m' : Machine} (h : Steps c m m') : Calls c m [] m'
  | cons {m m₁ m' : Machine} {r : Answer} {l : List (Machine × Answer)} (h : Steps c m m₁)
      (hsvc : c m₁.pc = some .svc) (hrest : Calls c (m₁.answered r) l m') : Calls c m ((m₁, r) :: l) m'

/-- The next call is made in one state only. -/
theorem svc_unique {m₁ m₂ : Machine} (h₁ : Steps c m m₁) (hs₁ : c m₁.pc = some .svc) (h₂ : Steps c m m₂)
    (hs₂ : c m₂.pc = some .svc) : m₁ = m₂ := by
  have hle : ∀ (j k : Nat) (m₁ m₂ : Machine), steps c j m = some m₁ → c m₁.pc = some .svc →
      steps c (j + k) m = some m₂ → m₁ = m₂ := by
    intro j k m₁ m₂ hj hs hk
    rw [steps_add, hj] at hk
    cases k with
    | zero => exact Option.some.inj hk
    | succ k =>
      have hnone : (step c m₁).bind (steps c k) = none := by
        rw [step_svc hs]
        rfl
      exact nomatch hnone.symm.trans hk
  obtain ⟨j, hj⟩ := h₁
  obtain ⟨k, hk⟩ := h₂
  rcases Nat.le_total j k with h | h
  · obtain ⟨d, rfl⟩ := Nat.exists_eq_add_of_le h
    exact hle j d m₁ m₂ hj hs₁ hk
  · obtain ⟨d, rfl⟩ := Nat.exists_eq_add_of_le h
    exact (hle k d m₂ m₁ hk hs₂ hj).symm

section Automaton

variable {φ : Type} {At : φ → Machine → Prop} {next : φ → Answer → φ}

/-- In every phase the program stands at a call, and each answer gets it to the next
phase. -/
structure Follows (c : Text) (At : φ → Machine → Prop) (next : φ → Answer → φ) : Prop where
  svc : ∀ p m, At p m → c m.pc = some .svc
  next : ∀ p m r, At p m → ∃ m', Steps c (m.answered r) m' ∧ At (next p r) m'

/-- Every call is made where the phase says. -/
def Along (At : φ → Machine → Prop) (next : φ → Answer → φ) : φ → List (Machine × Answer) → Prop
  | _, [] => True
  | p, (m, r) :: l => At p m ∧ Along At next (next p r) l

/-- A program that gets to a phase makes the calls of the automaton from there. -/
theorem Calls.along {l : List (Machine × Answer)} {p : φ} (h : Calls c m l m') (hF : Follows c At next)
    (hp : ∃ m₁, Steps c m m₁ ∧ At p m₁) : Along At next p l := by
  induction h generalizing p with
  | nil => trivial
  | @cons m m₁ m' r l h hsvc hrest ih =>
    obtain ⟨m₂, hm₂, hat⟩ := hp
    have heq : m₁ = m₂ := svc_unique h hsvc hm₂ (hF.svc p m₂ hat)
    rw [← heq] at hat
    exact ⟨hat, ih (hF.next p m₁ r hat)⟩

/-- And it makes the next one, whatever it is answered. -/
theorem Follows.calls {p : φ} (hF : Follows c At next) (hp : ∃ m₁, Steps c m m₁ ∧ At p m₁) (rs : List Answer) :
    ∃ l m', Calls c m l m' ∧ l.map Prod.snd = rs := by
  induction rs generalizing m p with
  | nil => exact ⟨[], m, .nil (.refl c m), rfl⟩
  | cons r rs ih =>
    obtain ⟨m₁, hm₁, hat⟩ := hp
    obtain ⟨l, m', hl, hrs⟩ := ih (hF.next p m₁ r hat)
    refine ⟨(m₁, r) :: l, m', .cons hm₁ (hF.svc p m₁ hat) hl, ?_⟩
    rw [List.map_cons, hrs]

end Automaton

end Lib.A64
