/-
  Asm/Heartbeat.lean --- the heartbeat program of user.S.

  The program waits for the timer's notification, asks for the tick count, and if
  another whole second is up formats a line on its stack and writes it.  Here its
  instructions are run: whatever it is answered, what it writes is one line for each
  answer that is in a later second than the last line, and the line says which.
-/
import TheRack.Lib.A64.Contracts

set_option autoImplicit false

namespace TheRack

open Lib Lib.A64

namespace Asm

/-- `SYS_WRITE`. -/
def sysWrite : Word := 1

/-- `SYS_RECV`. -/
def sysRecv : Word := 5

/-- `SYS_TICKS`. -/
def sysTicks : Word := 12

/-- `TIMER_NOTE`. -/
def timerNote : Word := 1

/-- The bytes of ASCII text. -/
def ascii (l : List Char) : List UInt8 := l.map fun ch => UInt8.ofNat ch.toNat

/-- `.Luptime`. -/
def uptimeText : List UInt8 := ascii ['u', 'p', 't', 'i', 'm', 'e', ' ']

/-- `.Lsecs`. -/
def secsText : List UInt8 := ascii ['s', ' ', '(']

/-- `.Lticks`. -/
def ticksText : List UInt8 := ascii [' ', 't', 'i', 'c', 'k', 's', ')', '\n']

/-- `.Lput`, at `p`. -/
def put (p : Word) : List Instr :=
  [.cbz (.x 2) (instrAt p 5),
   .op (.ldrbPost (.x 5) (.x 1) 1),
   .op (.strbPost (.x 5) (.x 23) 1),
   .op (.subs (.x 2) (.x 2) 1),
   .bc .ne (instrAt p 1),
   .ret]

/-- `.Lnum`, at `p`, with `.Lput` at `put`. -/
def num (p put : Word) : List Instr :=
  [.op (.add (.x 7) .sp 96),
   .op (.mov (.x 6) (.x 7)),
   .op (.movz (.x 3) 10),
   .op (.udiv (.x 5) (.x 0) (.x 3)),
   .op (.msub (.x 4) (.x 5) (.x 3) (.x 0)),
   .op (.addw (.x 4) (.x 4) 48),
   .op (.sub (.x 6) (.x 6) 1),
   .op (.strb (.x 4) (.x 6) 0),
   .op (.mov (.x 0) (.x 5)),
   .cbnz (.x 0) (instrAt p 3),
   .op (.subr (.x 2) (.x 7) (.x 6)),
   .op (.mov (.x 1) (.x 6)),
   .b put]

/-- The text after the instructions of a program at `a`, from its byte `k` on. -/
def dataAt (a : Word) (k : Nat) : Word := a + BitVec.ofNat 64 (216 + k)

/-- `user_heartbeat_start` up to `.Lput`, at `a`. -/
def beat (a : Word) : List Instr :=
  [.op (.sub .sp .sp 128),
   .op (.movz (.x 24) 0),
   -- `.Lbeat`
   .op (.movz (.x 8) sysRecv),
   .op (.mov (.x 0) .zr),
   .op (.mov (.x 1) .zr),
   .op (.movz (.x 2) timerNote),
   .svc,
   .op (.movz (.x 8) sysTicks),
   .svc,
   .op (.mov (.x 25) (.x 0)),
   .op (.movz (.x 3) 100),
   .op (.udiv (.x 26) (.x 25) (.x 3)),
   .op (.cmpr (.x 26) (.x 24)),
   .bc .ls (instrAt a 2),
   .op (.mov (.x 24) (.x 26)),
   .op (.mov (.x 23) .sp),
   .op (.adr (.x 1) (dataAt a 0)),
   .op (.movz (.x 2) (BitVec.ofNat 64 uptimeText.length)),
   .bl (instrAt a 35),
   .op (.mov (.x 0) (.x 26)),
   .bl (instrAt a 41),
   .op (.adr (.x 1) (dataAt a 7)),
   .op (.movz (.x 2) (BitVec.ofNat 64 secsText.length)),
   .bl (instrAt a 35),
   .op (.mov (.x 0) (.x 25)),
   .bl (instrAt a 41),
   .op (.adr (.x 1) (dataAt a 10)),
   .op (.movz (.x 2) (BitVec.ofNat 64 ticksText.length)),
   .bl (instrAt a 35),
   .op (.movz (.x 8) sysWrite),
   .op (.movz (.x 0) 1),
   .op (.mov (.x 1) .sp),
   .op (.subr (.x 2) (.x 23) (.x 1)),
   .svc,
   .b (instrAt a 2)]

/-- The heartbeat program, at `a`. -/
def heartbeat (a : Word) : List Instr :=
  beat a ++ (put (instrAt a 35) ++ num (instrAt a 41) (instrAt a 35))

variable {c : Text} {m : Machine} {p : Word}

/-! ## Appending text -/

/-- One byte of `.Lput_loop`. -/
def putOps : List Op :=
  [.ldrbPost (.x 5) (.x 1) 1, .strbPost (.x 5) (.x 23) 1, .subs (.x 2) (.x 2) 1]

/-- The text `bs` is appended at the cursor, and control is back at the caller. -/
structure Put (m m' : Machine) (bs : List UInt8) : Prop where
  pc : m'.pc = m.x 30
  cursor : m'.x 23 = m.x 23 + BitVec.ofNat 64 bs.length
  bytes : Bytes m'.mem (m.x 23).toNat bs
  mem : Mem.SameBut (m.x 23).toNat bs.length m.mem m'.mem
  keeps : Keeps [.x 1, .x 2, .x 5, .x 23] m m'

/-- Where text can be copied from and to. -/
structure Puttable (m : Machine) (bs : List UInt8) : Prop where
  count : m.x 2 = BitVec.ofNat 64 bs.length
  source : Bytes m.mem (m.x 1).toNat bs
  sourceEnd : (m.x 1).toNat + bs.length < 2 ^ 64
  cursorEnd : (m.x 23).toNat + bs.length < 2 ^ 64
  apart : (m.x 1).toNat + bs.length ≤ (m.x 23).toNat ∨ (m.x 23).toNat + bs.length ≤ (m.x 1).toNat

theorem writeLE_one (mem : Mem) (a v : Nat) : (mem.writeLE a 1 v) a = UInt8.ofNat v := by
  unfold Mem.writeLE
  rw [if_pos (by omega), Nat.sub_self, Nat.pow_zero, Nat.div_one]

theorem toNat_load_one (m : Machine) (a : Word) : (m.load a 1).toNat = (m.mem a.toNat).toNat := by
  have hlt : (m.mem a.toNat).toNat < 256 := (m.mem a.toNat).toNat_lt
  unfold Machine.load
  simp only [Mem.readLE, Nat.mul_zero, Nat.add_zero, BitVec.toNat_ofNat]
  exact Nat.mod_eq_of_lt (by omega)

/-- What one byte does. -/
theorem execs_putOps (m : Machine) :
    (execs putOps m).x 1 = m.x 1 + 1 ∧ (execs putOps m).x 23 = m.x 23 + 1 ∧
      (execs putOps m).x 2 = m.x 2 - 1 ∧ (execs putOps m).mem (m.x 23).toNat = m.mem (m.x 1).toNat ∧
      Mem.SameBut (m.x 23).toNat 1 m.mem (execs putOps m).mem ∧
      Cond.ne.holds (execs putOps m) = !(m.x 2 == 1) ∧
      Keeps [.x 5, .x 1, .x 23, .x 2] m (execs putOps m) := by
  have hmem : (execs putOps m).mem = m.mem.writeLE (m.x 23).toNat 1 (m.load (m.x 1) 1).toNat := rfl
  refine ⟨rfl, rfl, rfl, ?_, ?_, ?_, keeps_execs putOps m (by decide)⟩
  · rw [hmem, writeLE_one, toNat_load_one, UInt8.ofNat_toNat]
  · rw [hmem]
    exact Mem.SameBut.writeLE _ _ _ _
  · have hsubs : execs putOps m = ((execs [.ldrbPost (.x 5) (.x 1) 1, .strbPost (.x 5) (.x 23) 1] m).setFlags
        (subFlags (m.x 2) 1)).set (.x 2) (m.x 2 - 1) := rfl
    rw [hsubs, holds_set, ne_subFlags]

/-- The first byte is copied, and the rest can be. -/
theorem puttable_tail {b : UInt8} {bs : List UInt8} (h : Puttable m (b :: bs)) (t : Word) :
    Puttable ((execs putOps m).goto t) bs ∧
      ((execs putOps m).x 23).toNat = (m.x 23).toNat + 1 := by
  obtain ⟨hx1, hx23, hx2, -, hsame, -, -⟩ := execs_putOps m
  have hsrc := h.sourceEnd
  have hcur := h.cursorEnd
  have hap := h.apart
  have hcount := h.count
  rw [List.length_cons] at hsrc hcur hap hcount
  have h1 : ((execs putOps m).x 1).toNat = (m.x 1).toNat + 1 := by
    rw [hx1]
    exact toNat_add 1 (by omega)
  have h23 : ((execs putOps m).x 23).toNat = (m.x 23).toNat + 1 := by
    rw [hx23]
    exact toNat_add 1 (by omega)
  refine ⟨⟨?_, ?_, ?_, ?_, ?_⟩, h23⟩
  · show (execs putOps m).x 2 = _
    rw [hx2, hcount, BitVec.ofNat_add]
    exact BitVec.add_sub_cancel _ _
  · show Bytes (execs putOps m).mem ((execs putOps m).x 1).toNat bs
    rw [h1]
    exact h.source.2.congr fun x h2 h3 => hsame x (by omega)
  · show ((execs putOps m).x 1).toNat + _ < _
    omega
  · show ((execs putOps m).x 23).toNat + _ < _
    omega
  · show ((execs putOps m).x 1).toNat + _ ≤ ((execs putOps m).x 23).toNat ∨ ((execs putOps m).x 23).toNat + _ ≤ ((execs putOps m).x 1).toNat
    omega

/-- One byte, and the branch. -/
theorem put_turn (hc : Has c p (put p)) {b : UInt8} {bs : List UInt8} (hpc : m.pc = instrAt p 1)
    (h : Puttable m (b :: bs)) :
    Steps c m ((execs putOps m).goto (if bs = [] then instrAt p 5 else instrAt p 1)) := by
  have hblock : Has c m.pc (putOps.map .op) := by
    rw [hpc]
    exact (show Has c _ (putOps.map .op ++ _) from hc.drop 1).left
  have hrun := Steps.plain hblock (by decide)
  rw [hpc, instrAt_add] at hrun
  refine hrun.trans (.one ?_)
  have hbc : c ((execs putOps m).goto (instrAt p 4)).pc = some (.bc .ne (instrAt p 1)) := (hc.drop 4).head
  rw [show 1 + putOps.length = 4 from rfl, step_bc hbc, Machine.goto_goto]
  obtain ⟨-, -, -, -, -, hne, -⟩ := execs_putOps m
  have hholds : Cond.ne.holds ((execs putOps m).goto (instrAt p 4)) = !(m.x 2 == 1) := hne
  have hlt : bs.length + 1 < 2 ^ 64 := by
    have := h.sourceEnd
    rw [List.length_cons] at this
    omega
  have htarget : (if Cond.ne.holds ((execs putOps m).goto (instrAt p 4)) = true then instrAt p 1
      else instrAt p 4 + 4) = if bs = [] then instrAt p 5 else instrAt p 1 := by
    rw [hholds, h.count, List.length_cons]
    cases bs with
    | nil =>
      rw [if_pos rfl, if_neg (by decide)]
      exact instrAt_next p 4
    | cons b' bs =>
      have hmore : BitVec.ofNat 64 (bs.length + 1 + 1) ≠ 1 := fun heq => by
        have hnat := congrArg BitVec.toNat heq
        rw [List.length_cons] at hlt
        rw [BitVec.toNat_ofNat, Nat.mod_eq_of_lt hlt] at hnat
        exact absurd hnat (by simp)
      have hnil : b' :: bs ≠ [] := List.cons_ne_nil b' bs
      rw [if_neg hnil, List.length_cons, beq_false_of_ne hmore]
      rfl
  exact congrArg (fun t => some ((execs putOps m).goto t)) htarget

/-- `.Lput_loop` copies all of the text. -/
theorem put_loop (hc : Has c p (put p)) {b : UInt8} {bs : List UInt8} (hpc : m.pc = instrAt p 1)
    (h : Puttable m (b :: bs)) : ∃ m', Steps c m m' ∧ Put m m' (b :: bs) := by
  induction bs generalizing m b with
  | nil =>
    obtain ⟨-, hx23, -, hbyte, hsame, -, hkeeps⟩ := execs_putOps m
    have hturn := put_turn hc hpc h
    rw [if_pos rfl] at hturn
    have hret : c ((execs putOps m).goto (instrAt p 5)).pc = some .ret := (hc.drop 5).head
    refine ⟨_, hturn.trans (.one (step_ret hret)), ?_⟩
    exact
      { pc := hkeeps.x (n := 30) (by decide)
        cursor := hx23
        bytes := ⟨hbyte.trans h.source.1, trivial⟩
        mem := hsame
        keeps := ((hkeeps.mono (by decide)).goto _).goto _ }
  | cons b' bs ih =>
    obtain ⟨-, hx23, -, hbyte, hsame, -, hkeeps⟩ := execs_putOps m
    have hturn := put_turn hc hpc h
    rw [if_neg (List.cons_ne_nil b' bs)] at hturn
    obtain ⟨htail, hcur⟩ := puttable_tail h (instrAt p 1)
    obtain ⟨m', hm', hput⟩ := ih rfl htail
    have hcur' : (((execs putOps m).goto (instrAt p 1)).x 23).toNat = (m.x 23).toNat + 1 := hcur
    have hbytes := hput.bytes
    have hmem := hput.mem
    rw [hcur'] at hbytes hmem
    have hlen : (b :: b' :: bs).length = 1 + (b' :: bs).length := Nat.add_comm _ 1
    refine ⟨m', hturn.trans hm', ?_⟩
    exact
      { pc := hput.pc.trans (hkeeps.x (n := 30) (by decide))
        cursor := by
          rw [hput.cursor, show ((execs putOps m).goto (instrAt p 1)).x 23 = m.x 23 + 1 from hx23,
            BitVec.add_assoc, hlen, BitVec.ofNat_add]
          rfl
        bytes := ⟨(hmem _ (.inl (Nat.lt_succ_self _))).trans (hbyte.trans h.source.1), hbytes⟩
        mem := by
          rw [hlen]
          exact (hsame.mono (Nat.le_refl _) (by omega)).trans (hmem.mono (Nat.le_succ _) (by omega))
        keeps := (((hkeeps.goto _).trans hput.keeps).mono (by decide)) }

/-- `.Lput` appends the text. -/
theorem put_appends (hc : Has c p (put p)) {bs : List UInt8} (hpc : m.pc = p) (h : Puttable m bs) :
    ∃ m', Steps c m m' ∧ Put m m' bs := by
  have hcbz : c m.pc = some (.cbz (.x 2) (instrAt p 5)) := by
    rw [hpc]
    exact hc.head
  have hstep := step_cbz hcbz
  rw [show m.get (.x 2) = m.x 2 from rfl, h.count, hpc] at hstep
  cases bs with
  | nil =>
    rw [if_pos (by rfl)] at hstep
    have hret : c (m.goto (instrAt p 5)).pc = some .ret := (hc.drop 5).head
    refine ⟨_, .next hstep (.one (step_ret hret)), ?_⟩
    exact
      { pc := rfl
        cursor := (BitVec.add_zero _).symm
        bytes := trivial
        mem := .refl _ _ _
        keeps := ((Keeps.refl _ m).goto _).goto _ }
  | cons b bs =>
    have hlt : bs.length + 1 < 2 ^ 64 := by
      have := h.sourceEnd
      rw [List.length_cons] at this
      omega
    have hmore : BitVec.ofNat 64 (b :: bs).length ≠ 0 := fun heq => by
      have hnat := congrArg BitVec.toNat heq
      rw [List.length_cons, BitVec.toNat_ofNat, Nat.mod_eq_of_lt hlt] at hnat
      exact absurd hnat (by simp)
    rw [if_neg hmore] at hstep
    have hloop : Puttable (m.goto (p + 4)) (b :: bs) := ⟨h.count, h.source, h.sourceEnd, h.cursorEnd, h.apart⟩
    obtain ⟨m', hm', hput⟩ := put_loop hc (m := m.goto (p + 4)) rfl hloop
    exact ⟨m', .next hstep hm', hput.pc, hput.cursor, hput.bytes, hput.mem,
      (((Keeps.refl [] m).goto _).trans hput.keeps).mono (by decide)⟩

/-! ## Appending a number -/

/-- A number in decimal. -/
def decimal (v : Nat) : List UInt8 := ascii (Nat.toDigits 10 v)

theorem ascii_append (l l' : List Char) : ascii (l ++ l') = ascii l ++ ascii l' := List.map_append

theorem decimal_of_lt {v : Nat} (h : v < 10) : decimal v = [UInt8.ofNat (48 + v)] := by
  unfold decimal
  rw [Nat.toDigits_of_lt_base h]
  revert v
  decide

/-- The last digit is what is left after the others. -/
theorem decimal_of_le {v : Nat} (h : 10 ≤ v) : decimal v = decimal (v / 10) ++ [UInt8.ofNat (48 + v % 10)] := by
  have hlast := decimal_of_lt (Nat.mod_lt v (by decide : 0 < 10))
  unfold decimal at hlast ⊢
  rw [Nat.toDigits_of_base_le (by decide) h, ascii_append, ← hlast, Nat.toDigits_of_lt_base (Nat.mod_lt v (by decide))]

theorem length_decimal_le {v k : Nat} (hk : 0 < k) (h : v < 10 ^ k) : (decimal v).length ≤ k := by
  unfold decimal ascii
  rw [List.length_map]
  exact (Nat.length_toDigits_le_iff (by decide) hk).mpr h

theorem length_decimal_pos (v : Nat) : 0 < (decimal v).length := by
  unfold decimal ascii
  rw [List.length_map]
  exact Nat.length_toDigits_pos

/-- A word has at most 20 digits. -/
theorem length_decimal_word (v : Word) : (decimal v.toNat).length ≤ 20 :=
  length_decimal_le (by decide) (by have := v.isLt; omega)

/-- One digit of `.Lnum_loop`. -/
def numOps : List Op :=
  [.udiv (.x 5) (.x 0) (.x 3), .msub (.x 4) (.x 5) (.x 3) (.x 0), .addw (.x 4) (.x 4) 48,
   .sub (.x 6) (.x 6) 1, .strb (.x 4) (.x 6) 0, .mov (.x 0) (.x 5)]

/-- The last digit, as it is computed. -/
theorem digit_eq (v : Word) :
    ((((v - v / 10 * 10).setWidth 32 + 48 : BitVec 32)).setWidth 64 : Word).toNat = 48 + v.toNat % 10 := by
  have hlt := v.isLt
  have hq : (v / 10 : Word).toNat = v.toNat / 10 := BitVec.toNat_udiv ..
  have hm : (v / 10 * 10 : Word).toNat = v.toNat / 10 * 10 := by
    rw [BitVec.toNat_mul, hq]
    exact Nat.mod_eq_of_lt (by show v.toNat / 10 * 10 < _; omega)
  have hd : (v - v / 10 * 10 : Word).toNat = v.toNat % 10 := by
    rw [BitVec.toNat_sub_of_le (by rw [BitVec.le_def, hm]; omega), hm]
    omega
  have hmod : v.toNat % 10 < 10 := Nat.mod_lt _ (by decide)
  rw [BitVec.toNat_setWidth, BitVec.toNat_add, BitVec.toNat_setWidth, hd]
  show (v.toNat % 10 % 2 ^ 32 + 48) % 2 ^ 32 % 2 ^ 64 = _
  omega

/-- What one digit does. -/
theorem execs_numOps (m : Machine) (h3 : m.x 3 = 10) (h6 : 0 < (m.x 6).toNat) :
    (execs numOps m).x 0 = m.x 0 / 10 ∧ ((execs numOps m).x 6).toNat = (m.x 6).toNat - 1 ∧
      (execs numOps m).mem ((m.x 6).toNat - 1) = UInt8.ofNat (48 + (m.x 0).toNat % 10) ∧
      Mem.SameBut ((m.x 6).toNat - 1) 1 m.mem (execs numOps m).mem ∧
      Keeps [.x 5, .x 4, .x 4, .x 6, .x 0] m (execs numOps m) := by
  have haddr : (m.x 6 - 1 + 0 : Word).toNat = (m.x 6).toNat - 1 := by
    rw [show (m.x 6 - 1 + 0 : Word) = m.x 6 - 1 from BitVec.add_zero _]
    exact BitVec.toNat_sub_of_le h6
  have hmem : (execs numOps m).mem = m.mem.writeLE (m.x 6 - 1 + 0 : Word).toNat 1
      ((((m.x 0 - m.x 0 / m.x 3 * m.x 3).setWidth 32 + 48 : BitVec 32)).setWidth 64 : Word).toNat := rfl
  rw [haddr, h3, digit_eq] at hmem
  refine ⟨?_, BitVec.toNat_sub_of_le h6, ?_, ?_, keeps_execs numOps m (by decide)⟩
  · rw [← h3]
    rfl
  · rw [hmem, writeLE_one]
  · rw [hmem]
    exact Mem.SameBut.writeLE _ _ _ _

/-- The digits of the number are right below where `x6` was. -/
structure Digits (p : Word) (m m' : Machine) (v : Nat) : Prop where
  pc : m'.pc = instrAt p 10
  cursor : (m'.x 6).toNat = (m.x 6).toNat - (decimal v).length
  bytes : Bytes m'.mem ((m.x 6).toNat - (decimal v).length) (decimal v)
  mem : Mem.SameBut ((m.x 6).toNat - (decimal v).length) (decimal v).length m.mem m'.mem
  keeps : Keeps [.x 0, .x 4, .x 5, .x 6] m m'

/-- `.Lnum_loop` writes the digits backwards. -/
theorem num_loop {q : Word} (hc : Has c p (num p q)) {v : Nat} (hpc : m.pc = instrAt p 3)
    (hv : (m.x 0).toNat = v) (h3 : m.x 3 = 10) (hroom : (decimal v).length ≤ (m.x 6).toNat) :
    ∃ m', Steps c m m' ∧ Digits p m m' v := by
  induction v using Nat.strong_induction_on generalizing m with
  | _ v ih =>
    have hpos := length_decimal_pos v
    obtain ⟨hx0, hx6, hbyte, hsame, hkeeps⟩ := execs_numOps m h3 (by omega)
    have hblock : Has c m.pc (numOps.map .op) := by
      rw [hpc]
      exact (show Has c _ (numOps.map .op ++ _) from hc.drop 3).left
    have hrun := Steps.plain hblock (by decide)
    rw [hpc, instrAt_add] at hrun
    obtain ⟨m1, hm1⟩ : ∃ m1, m1 = (execs numOps m).goto (instrAt p 9) := ⟨_, rfl⟩
    rw [show 3 + numOps.length = 9 from rfl, ← hm1] at hrun
    have hcbnz : c m1.pc = some (.cbnz (.x 0) (instrAt p 3)) := by
      rw [hm1]
      exact (hc.drop 9).head
    have hstep := step_cbnz hcbnz
    have hq : (m1.x 0).toNat = v / 10 := by
      rw [hm1]
      show ((execs numOps m).x 0).toNat = _
      rw [hx0, ← hv]
      exact BitVec.toNat_udiv ..
    have hkeeps1 : Keeps [.x 5, .x 4, .x 4, .x 6, .x 0] m m1 := by
      rw [hm1]
      exact hkeeps.goto _
    have hx6' : (m1.x 6).toNat = (m.x 6).toNat - 1 := by
      rw [hm1]
      exact hx6
    have hmem1 : m1.mem = (execs numOps m).mem := by
      rw [hm1]
      rfl
    have hpc1 : m1.pc = instrAt p 9 := by
      rw [hm1]
      rfl
    rw [← hmem1] at hbyte hsame
    rw [hv] at hbyte
    by_cases hlast : v < 10
    · -- the first digit of the number is the last one to be written
      have hzero : m1.get (.x 0) = 0 := by
        refine BitVec.eq_of_toNat_eq (hq.trans ?_)
        exact Nat.div_eq_of_lt hlast
      rw [if_pos hzero, hpc1, instrAt_next] at hstep
      refine ⟨_, hrun.trans (.one hstep), ?_⟩
      rw [decimal_of_lt hlast] at hpos
      have hlen : (decimal v).length = 1 := by
        rw [decimal_of_lt hlast]
        rfl
      rw [Nat.mod_eq_of_lt hlast] at hbyte
      exact
        { pc := rfl
          cursor := by
            rw [hlen]
            exact hx6'
          bytes := by
            rw [hlen, decimal_of_lt hlast]
            exact ⟨hbyte, trivial⟩
          mem := by
            rw [hlen]
            exact hsame
          keeps := (hkeeps1.mono (by decide)).goto _ }
    · have hmore : m1.get (.x 0) ≠ 0 := fun heq => by
        have hnat : (m1.x 0).toNat = 0 := congrArg BitVec.toNat heq
        omega
      rw [if_neg hmore] at hstep
      have hsplit := decimal_of_le (Nat.le_of_not_lt hlast)
      have hlen : (decimal v).length = (decimal (v / 10)).length + 1 := by
        rw [hsplit, List.length_append]
        rfl
      obtain ⟨m', hm', hd⟩ := ih (v / 10) (by omega)
        (show (m1.goto (instrAt p 3)).pc = instrAt p 3 from rfl) hq ((hkeeps1.x (n := 3) (by decide)).trans h3) (by
          show _ ≤ (m1.x 6).toNat
          omega)
      have hcur : ((m1.goto (instrAt p 3)).x 6).toNat = (m.x 6).toNat - 1 := hx6'
      have hcursor := hd.cursor
      have hbytes := hd.bytes
      have hmem : Mem.SameBut _ _ m1.mem m'.mem := hd.mem
      rw [hcur] at hcursor hbytes hmem
      have hbase : (m.x 6).toNat - 1 - (decimal (v / 10)).length = (m.x 6).toNat - (decimal v).length := by
        omega
      rw [hbase] at hcursor hbytes hmem
      refine ⟨m', (hrun.trans (.one hstep)).trans hm', ?_⟩
      exact
        { pc := hd.pc
          cursor := hcursor
          bytes := by
            rw [hsplit, bytes_append, ← hsplit]
            refine ⟨hbytes, ?_, trivial⟩
            have hat : (m.x 6).toNat - (decimal v).length + (decimal (v / 10)).length = (m.x 6).toNat - 1 := by
              omega
            rw [hat, hmem _ (by omega)]
            exact hbyte
          mem := (hsame.mono (by omega) (by omega)).trans (hmem.mono (Nat.le_refl _) (by omega))
          keeps := (((hkeeps1.goto _).trans hd.keeps).mono (by decide)) }

/-- The text `bs` is appended at the cursor, with nothing but the scratch below `S + 96`
written besides. -/
structure Appended (S : Nat) (m m' : Machine) (bs : List UInt8) : Prop where
  pc : m'.pc = m.x 30
  cursor : m'.x 23 = m.x 23 + BitVec.ofNat 64 bs.length
  bytes : Bytes m'.mem (m.x 23).toNat bs
  mem : ∀ a, a < (m.x 23).toNat ∨ (m.x 23).toNat + bs.length ≤ a → a < S + 76 ∨ S + 96 ≤ a → m'.mem a = m.mem a
  keeps : Keeps [.x 0, .x 1, .x 2, .x 3, .x 4, .x 5, .x 6, .x 7, .x 23] m m'

theorem Put.appended {m' : Machine} {bs : List UInt8} (h : Put m m' bs) (S : Nat) : Appended S m m' bs :=
  ⟨h.pc, h.cursor, h.bytes, fun a ha _ => h.mem a ha, h.keeps.mono (by decide)⟩

/-- `.Lnum` up to its loop. -/
def numSetup : List Op := [.add (.x 7) .sp 96, .mov (.x 6) (.x 7), .movz (.x 3) 10]

/-- Where the digits are and how many. -/
def numSpan : List Op := [.subr (.x 2) (.x 7) (.x 6), .mov (.x 1) (.x 6)]

/-- `.Lnum` appends the number. -/
theorem num_appends {q : Word} (hc : Has c p (num p q)) (hput : Has c q (put q)) {S : Nat} (hpc : m.pc = p)
    (hS : (m.get .sp).toNat = S) (hroom : S + 96 < 2 ^ 64)
    (hcur : (m.x 23).toNat + (decimal (m.x 0).toNat).length ≤ S + 76) :
    ∃ m', Steps c m m' ∧ Appended S m m' (decimal (m.x 0).toNat) := by
  obtain ⟨v, hv⟩ : ∃ v, v = (m.x 0).toNat := ⟨_, rfl⟩
  have hlen : (decimal v).length ≤ 20 := by
    rw [hv]
    exact length_decimal_word _
  rw [← hv] at hcur ⊢
  -- the end of the scratch
  obtain ⟨m1, hrun1, hm1, hk1⟩ := straight numSetup hc hpc (by decide)
  have htop : (m.get .sp + 96).toNat = S + 96 := by
    rw [← hS]
    exact toNat_add 96 (by omega)
  have hx6 : (m1.x 6).toNat = S + 96 := by
    rw [← htop, hm1]
    rfl
  have hx7 : (m1.x 7).toNat = S + 96 := by
    rw [← htop, hm1]
    rfl
  have hx3 : m1.x 3 = 10 := by
    rw [hm1]
    rfl
  have hmem1 : m1.mem = m.mem := by
    rw [hm1]
    rfl
  have hpc1 : m1.pc = instrAt p 3 := by
    rw [hm1]
    rfl
  have hx0 : (m1.x 0).toNat = v := by
    rw [hv, hk1.x (n := 0) (by decide)]
  -- the digits
  obtain ⟨m2, hrun2, hd⟩ := num_loop hc hpc1 hx0 hx3 (by omega)
  have hcursor2 := hd.cursor
  have hbytes2 := hd.bytes
  have hmem2 := hd.mem
  rw [hx6] at hcursor2 hbytes2 hmem2
  rw [hmem1] at hmem2
  obtain ⟨m3, hrun3, hm3, hk3⟩ := straight numSpan (hc.drop 10) hd.pc (by decide)
  have hk := (hk1.trans hd.keeps).trans hk3
  have hb : c m3.pc = some (.b q) := by
    rw [hm3, Machine.pc_goto, instrAt_add]
    exact (hc.drop 12).head
  have hmem3 : m3.mem = m2.mem := by
    rw [hm3]
    rfl
  have hx1 : (m3.x 1).toNat = S + 96 - (decimal v).length := by
    rw [← hcursor2, hm3]
    rfl
  have hx23 : m3.x 23 = m.x 23 := hk.x (n := 23) (by decide)
  have hx2 : m3.x 2 = BitVec.ofNat 64 (decimal v).length := by
    have hsub : m3.x 2 = m2.x 7 - m2.x 6 := by
      rw [hm3]
      rfl
    have hx7' : (m2.x 7).toNat = S + 96 := by
      rw [hd.keeps.x (n := 7) (by decide), hx7]
    refine BitVec.eq_of_toNat_eq ?_
    rw [hsub, BitVec.toNat_sub_of_le (by rw [BitVec.le_def]; omega), hx7', hcursor2, BitVec.toNat_ofNat,
      Nat.mod_eq_of_lt (by omega)]
    omega
  -- and copied
  have hputtable : Puttable (m3.goto q) (decimal v) := by
    refine ⟨hx2, ?_, ?_, ?_, ?_⟩
    · show Bytes m3.mem (m3.x 1).toNat _
      rw [hx1, hmem3]
      exact hbytes2
    · show (m3.x 1).toNat + _ < _
      omega
    · show (m3.x 23).toNat + _ < _
      rw [hx23]
      omega
    · show (m3.x 1).toNat + _ ≤ (m3.x 23).toNat ∨ (m3.x 23).toNat + _ ≤ (m3.x 1).toNat
      rw [hx23]
      omega
  obtain ⟨m', hrun4, hput4⟩ := put_appends hput (m := m3.goto q) rfl hputtable
  have hcursor := hput4.cursor
  have hbytes := hput4.bytes
  have hmem4 := hput4.mem
  rw [show (m3.goto q).x 23 = m.x 23 from hx23] at hcursor hbytes hmem4
  rw [show (m3.goto q).mem = m2.mem from hmem3] at hmem4
  refine ⟨m', ((hrun1.trans hrun2).trans hrun3).trans (.next (step_b hb) hrun4), ?_⟩
  exact
    { pc := hput4.pc.trans (hk.x (n := 30) (by decide))
      cursor := hcursor
      bytes := hbytes
      mem := fun a h1 h2 => (hmem4 a h1).trans (hmem2 a (by omega))
      keeps := (((hk.goto q).trans hput4.keeps).mono (by decide)) }

/-! ## A line -/

/-- What the program writes for `t` ticks. -/
def line (t : Nat) : List UInt8 :=
  uptimeText ++ decimal (t / 100) ++ secsText ++ decimal t ++ ticksText

/-- The program is at `a`, with its text after it, and its stack at `S`. -/
structure Placed (c : Text) (a S : Word) : Prop where
  text : Has c a (heartbeat a)
  room : S.toNat + 128 < 2 ^ 64
  dataEnd : a.toNat + 234 < 2 ^ 64
  apart : a.toNat + 234 ≤ S.toNat ∨ S.toNat + 128 ≤ a.toNat + 216

/-- The stack pointer and the text are where they are. -/
structure Home (a S : Word) (m : Machine) : Prop where
  sp : m.get .sp = S
  text : Bytes m.mem (a.toNat + 216) (uptimeText ++ (secsText ++ ticksText))

theorem Home.keeps {a S : Word} {m' : Machine} {l : List Reg} (h : Home a S m) (hk : Keeps l m m')
    (hmem : m'.mem = m.mem) (hsp : .sp ∉ l) : Home a S m' :=
  ⟨(hk.get .sp hsp).trans h.sp, by rw [hmem]; exact h.text⟩

/-- So much of a line is on the stack. -/
structure Line (a S : Word) (m : Machine) (acc : List UInt8) : Prop extends Home a S m where
  cursor : m.x 23 = S + BitVec.ofNat 64 acc.length
  bytes : Bytes m.mem S.toNat acc

/-- What a routine called on the way may change. -/
def volatile : List Reg := [.x 0, .x 1, .x 2, .x 3, .x 4, .x 5, .x 6, .x 7, .x 23, .x 30]

variable {a S : Word} {acc bs : List UInt8}

/-- A line that was appended to. -/
theorem Line.append {m' : Machine} (hp : Placed c a S) (h : Line a S m acc) (hlen : acc.length + bs.length ≤ 76)
    (happ : Appended S.toNat m m' bs) : Line a S m' (acc ++ bs) := by
  have hroom := hp.room
  have hapart := hp.apart
  have hcur : (m.x 23).toNat = S.toNat + acc.length := by
    rw [h.cursor]
    exact toNat_add acc.length (by omega)
  have hbytes := happ.bytes
  rw [hcur] at hbytes
  refine ⟨⟨?_, ?_⟩, ?_, ?_⟩
  · exact (happ.keeps.get .sp (by decide)).trans h.sp
  · refine h.text.congr fun k h1 h2 => happ.mem k ?_ ?_
    · rw [hcur]
      change k < _ + 18 at h2
      omega
    · change k < _ + 18 at h2
      omega
  · rw [happ.cursor, h.cursor, BitVec.add_assoc, ← BitVec.ofNat_add, List.length_append]
  · rw [bytes_append]
    exact ⟨h.bytes.congr fun k h1 h2 => happ.mem k (.inl (by omega)) (.inl (by omega)), hbytes⟩

/-- Nothing but registers that the line does not depend on was written. -/
theorem Line.keeps {m' : Machine} {l : List Reg} (h : Line a S m acc) (hk : Keeps l m m') (hmem : m'.mem = m.mem)
    (hsp : .sp ∉ l) (hcur : .x 23 ∉ l) : Line a S m' acc := by
  refine ⟨h.toHome.keeps hk hmem hsp, (hk.x hcur).trans h.cursor, ?_⟩
  rw [hmem]
  exact h.bytes

theorem Placed.put (hp : Placed c a S) : Has c (instrAt a 35) (put (instrAt a 35)) :=
  (show Has c _ (_ ++ _) from hp.text.right).left

theorem Placed.num (hp : Placed c a S) : Has c (instrAt a 41) (num (instrAt a 41) (instrAt a 35)) := by
  have h := (show Has c _ (Asm.put (instrAt a 35) ++ _) from hp.text.right).right
  rw [instrAt_add] at h
  exact h

/-- Text that the program has is written on the line. -/
theorem text_appends {k d : Nat} {rest : List Instr} (hp : Placed c a S)
    (hc : Has c (instrAt a k) ([.adr (.x 1) (dataAt a d), .movz (.x 2) (BitVec.ofNat 64 bs.length)].map .op ++
      (.bl (instrAt a 35) :: rest)))
    (hpc : m.pc = instrAt a k) (h : Line a S m acc) (hd : d + bs.length ≤ 18)
    (hbs : Bytes m.mem (a.toNat + 216 + d) bs) (hlen : acc.length + bs.length ≤ 76) :
    ∃ m', Steps c m m' ∧ m'.pc = instrAt a (k + 3) ∧ Line a S m' (acc ++ bs) ∧ Keeps volatile m m' := by
  have hroom := hp.room
  have hend := hp.dataEnd
  have hapart := hp.apart
  obtain ⟨m1, hrun1, hm1, hk1⟩ := straight _ hc hpc (by simp [Op.privileged])
  obtain ⟨m2, hm2⟩ : ∃ m2, m2 = (m1.set (.x 30) (m1.pc + 4)).goto (instrAt a 35) := ⟨_, rfl⟩
  have hpc1 : m1.pc = instrAt a (k + 2) := by
    rw [hm1]
    exact instrAt_add a k 2
  have hbl : c m1.pc = some (.bl (instrAt a 35)) := by
    have hat := hc.right.head
    rw [instrAt_add] at hat
    rw [hpc1]
    exact hat
  have hrun2 := Steps.one (step_bl hbl)
  rw [← hm2] at hrun2
  have hk2 : Keeps [.x 30] m1 m2 := by
    rw [hm2]
    exact (keeps_set m1 _ _).goto _
  have hk : Keeps [.x 1, .x 2, .x 30] m m2 := hk1.trans hk2
  have hmem : m2.mem = m.mem := by
    rw [hm2, hm1]
    rfl
  have hline := h.keeps hk hmem (by decide) (by decide)
  have hx1 : (m2.x 1).toNat = a.toNat + 216 + d := by
    have heq : m2.x 1 = dataAt a d := by
      rw [hm2, hm1]
      rfl
    rw [heq, Nat.add_assoc]
    exact toNat_add (216 + d) (by omega)
  have hcur : (m2.x 23).toNat = S.toNat + acc.length := by
    rw [hline.cursor]
    exact toNat_add acc.length (by omega)
  have hputtable : Puttable m2 bs := by
    refine ⟨?_, ?_, by omega, by omega, by omega⟩
    · rw [hm2, hm1]
      rfl
    · rw [hx1, hmem]
      exact hbs
  obtain ⟨m', hrun3, hput⟩ := put_appends hp.put (by rw [hm2]; rfl) hputtable
  refine ⟨m', (hrun1.trans hrun2).trans hrun3, ?_, hline.append hp hlen (hput.appended _),
    (hk.trans hput.keeps).mono (by decide)⟩
  have hret : m2.x 30 = m1.pc + 4 := by
    rw [hm2]
    rfl
  rw [hput.pc, hret, hpc1, instrAt_next]

/-- And so is a number that it has in a register. -/
theorem number_appends {k : Nat} {r : Fin 31} {rest : List Instr} (hp : Placed c a S)
    (hc : Has c (instrAt a k) ([.mov (.x 0) (.x r)].map .op ++ (.bl (instrAt a 41) :: rest)))
    (hpc : m.pc = instrAt a k) (h : Line a S m acc) (hlen : acc.length + (decimal (m.x r).toNat).length ≤ 76) :
    ∃ m', Steps c m m' ∧ m'.pc = instrAt a (k + 2) ∧ Line a S m' (acc ++ decimal (m.x r).toNat) ∧
      Keeps volatile m m' := by
  have hroom := hp.room
  obtain ⟨m1, hrun1, hm1, hk1⟩ := straight _ hc hpc (by simp [Op.privileged])
  obtain ⟨m2, hm2⟩ : ∃ m2, m2 = (m1.set (.x 30) (m1.pc + 4)).goto (instrAt a 41) := ⟨_, rfl⟩
  have hpc1 : m1.pc = instrAt a (k + 1) := by
    rw [hm1]
    exact instrAt_add a k 1
  have hbl : c m1.pc = some (.bl (instrAt a 41)) := by
    have hat := hc.right.head
    rw [instrAt_add] at hat
    rw [hpc1]
    exact hat
  have hrun2 := Steps.one (step_bl hbl)
  rw [← hm2] at hrun2
  have hk2 : Keeps [.x 30] m1 m2 := by
    rw [hm2]
    exact (keeps_set m1 _ _).goto _
  have hk : Keeps [.x 0, .x 30] m m2 := hk1.trans hk2
  have hmem : m2.mem = m.mem := by
    rw [hm2, hm1]
    rfl
  have hline := h.keeps hk hmem (by decide) (by decide)
  have hx0 : m2.x 0 = m.x r := by
    rw [hm2, hm1]
    rfl
  have hcur : (m2.x 23).toNat = S.toNat + acc.length := by
    rw [hline.cursor]
    exact toNat_add acc.length (by omega)
  have hS : (m2.get .sp).toNat = S.toNat := by
    rw [hline.sp]
  obtain ⟨m', hrun3, happ⟩ := num_appends hp.num hp.put (by rw [hm2]; rfl) hS (by omega) (by
    rw [hcur, hx0]
    omega)
  rw [hx0] at happ
  refine ⟨m', (hrun1.trans hrun2).trans hrun3, ?_, hline.append hp hlen happ,
    (hk.trans happ.keeps).mono (by decide)⟩
  have hret : m2.x 30 = m1.pc + 4 := by
    rw [hm2]
    rfl
  rw [happ.pc, hret, hpc1, instrAt_next]

/-- A line is formatted piece by piece. -/
theorem line_appends {t : Word} (hp : Placed c a S) (hpc : m.pc = instrAt a 16) (h : Line a S m [])
    (h25 : m.x 25 = t) (h26 : m.x 26 = t / 100) :
    ∃ m', Steps c m m' ∧ m'.pc = instrAt a 29 ∧ Line a S m' (line t.toNat) ∧ Keeps volatile m m' := by
  have hsecs : (decimal (t / 100 : Word).toNat).length ≤ 20 := length_decimal_word _
  have hticks : (decimal t.toNat).length ≤ 20 := length_decimal_word _
  have hq : (t / 100 : Word).toNat = t.toNat / 100 := BitVec.toNat_udiv ..
  have hdata : ∀ {m' : Machine}, Home a S m' →
      Bytes m'.mem (a.toNat + 216 + 0) uptimeText ∧ Bytes m'.mem (a.toNat + 216 + 7) secsText ∧
        Bytes m'.mem (a.toNat + 216 + 10) ticksText := fun h => by
    obtain ⟨h1, h2⟩ := bytes_append.mp h.text
    obtain ⟨h2, h3⟩ := bytes_append.mp h2
    exact ⟨h1, h2, h3⟩
  obtain ⟨m1, hrun1, hpc1, hl1, hk1⟩ := text_appends hp (hp.text.left.drop 16) hpc h (by decide)
    (hdata h.toHome).1 (by decide)
  have h26' : m1.x 26 = t / 100 := (hk1.x (n := 26) (by decide)).trans h26
  obtain ⟨m2, hrun2, hpc2, hl2, hk2⟩ := number_appends (r := 26) hp (hp.text.left.drop 19) hpc1 hl1 (by
    rw [h26']
    show 7 + _ ≤ 76
    omega)
  rw [h26', hq] at hl2
  obtain ⟨m3, hrun3, hpc3, hl3, hk3⟩ := text_appends hp (hp.text.left.drop 21) hpc2 hl2 (by decide)
    (hdata hl2.toHome).2.1 (by
      rw [List.length_append, List.length_append, ← hq]
      show 0 + 7 + _ + 3 ≤ 76
      omega)
  have h25' : m3.x 25 = t := (((hk1.trans hk2).trans hk3).x (n := 25) (by decide)).trans h25
  obtain ⟨m4, hrun4, hpc4, hl4, hk4⟩ := number_appends (r := 25) hp (hp.text.left.drop 24) hpc3 hl3 (by
    rw [h25', List.length_append, List.length_append, List.length_append, ← hq]
    show 0 + 7 + _ + 3 + _ ≤ 76
    omega)
  rw [h25'] at hl4
  obtain ⟨m5, hrun5, hpc5, hl5, hk5⟩ := text_appends hp (hp.text.left.drop 26) hpc4 hl4 (by decide)
    (hdata hl4.toHome).2.2 (by
      rw [List.length_append, List.length_append, List.length_append, List.length_append, ← hq]
      show 0 + 7 + _ + 3 + _ + 8 ≤ 76
      omega)
  refine ⟨m5, (((hrun1.trans hrun2).trans hrun3).trans hrun4).trans hrun5, hpc5, hl5, ?_⟩
  exact ((((hk1.trans hk2).trans hk3).trans hk4).trans hk5).mono (by decide)

/-! ## The program -/

/-- Which call the program makes next: it waits, with the second that it last wrote; it
asks for the count; or it writes the line for a count. -/
inductive Phase
  | wait (last : Word)
  | ask (last : Word)
  | say (t : Word)

namespace Phase

/-- Which call it makes after that. -/
def next : Phase → Answer → Phase
  | wait last, _ => ask last
  | ask last, r => if last < r.r0 / 100 then say r.r0 else wait last
  | say t, _ => wait (t / 100)

/-- Where the program is when it makes the call. -/
def pc (a : Word) : Phase → Word
  | wait _ => instrAt a 6
  | ask _ => instrAt a 8
  | say _ => instrAt a 33

/-- The second that it last wrote. -/
def last : Phase → Word
  | wait last => last
  | ask last => last
  | say t => t / 100

/-- What it asks for. -/
def Call (S : Word) : Phase → Machine → Prop
  | wait _, m => m.x 8 = sysRecv ∧ m.x 0 = 0 ∧ m.x 1 = 0 ∧ m.x 2 = timerNote
  | ask _, m => m.x 8 = sysTicks
  | say t, m => m.x 8 = sysWrite ∧ m.x 0 = 1 ∧ m.x 1 = S ∧ m.x 2 = BitVec.ofNat 64 (line t.toNat).length ∧
      Bytes m.mem S.toNat (line t.toNat)

/-- The machine makes the call of the phase. -/
structure At (a S : Word) (ph : Phase) (m : Machine) : Prop extends Home a S m where
  pc : m.pc = ph.pc a
  last : m.x 24 = ph.last
  call : ph.Call S m

end Phase

/-- From the top of its loop the program gets to waiting. -/
theorem gets_to_wait {last : Word} (hp : Placed c a S) (hpc : m.pc = instrAt a 2) (h : Home a S m)
    (h24 : m.x 24 = last) : ∃ m', Steps c m m' ∧ (Phase.wait last).At a S m' := by
  obtain ⟨m1, hrun, hm1, hk⟩ := straight [.movz (.x 8) sysRecv, .mov (.x 0) .zr, .mov (.x 1) .zr,
    .movz (.x 2) timerNote] (hp.text.left.drop 2) hpc (by decide)
  refine ⟨m1, hrun, h.keeps hk (by rw [hm1]; rfl) (by decide), ?_, (hk.x (by decide)).trans h24, ?_⟩
  · rw [hm1]
    exact instrAt_add a 2 4
  · rw [hm1]
    exact ⟨rfl, rfl, rfl, rfl⟩

/-- When a second is up, it gets to writing the line. -/
theorem gets_to_say {t : Word} (hp : Placed c a S) (hpc : m.pc = instrAt a 14) (h : Home a S m)
    (h25 : m.x 25 = t) (h26 : m.x 26 = t / 100) : ∃ m', Steps c m m' ∧ (Phase.say t).At a S m' := by
  obtain ⟨m1, hrun1, hm1, hk1⟩ := straight [.mov (.x 24) (.x 26), .mov (.x 23) .sp] (hp.text.left.drop 14) hpc
    (by decide)
  have hhome := h.keeps hk1 (by rw [hm1]; rfl) (by decide)
  have hpc1 : m1.pc = instrAt a 16 := by
    rw [hm1]
    exact instrAt_add a 14 2
  have hline : Line a S m1 [] := by
    refine ⟨hhome, ?_, trivial⟩
    have hcur : m1.x 23 = m.get .sp := by
      rw [hm1]
      rfl
    rw [hcur, h.sp]
    exact (BitVec.add_zero S).symm
  have h24 : m1.x 24 = t / 100 := by
    rw [← h26, hm1]
    rfl
  obtain ⟨m2, hrun2, hpc2, hl, hk2⟩ := line_appends hp hpc1 hline ((hk1.x (n := 25) (by decide)).trans h25)
    ((hk1.x (n := 26) (by decide)).trans h26)
  obtain ⟨m3, hrun3, hm3, hk3⟩ := straight [.movz (.x 8) sysWrite, .movz (.x 0) 1, .mov (.x 1) .sp,
    .subr (.x 2) (.x 23) (.x 1)] (hp.text.left.drop 29) hpc2 (by decide)
  have hmem : m3.mem = m2.mem := by
    rw [hm3]
    rfl
  refine ⟨m3, (hrun1.trans hrun2).trans hrun3, hl.toHome.keeps hk3 hmem (by decide), ?_, ?_, ?_⟩
  · rw [hm3]
    exact instrAt_add a 29 4
  · exact ((hk2.trans hk3).x (n := 24) (by decide)).trans h24
  · have hx1 : m3.x 1 = m2.get .sp := by
      rw [hm3]
      rfl
    have hx2 : m3.x 2 = m2.x 23 - m2.get .sp := by
      rw [hm3]
      rfl
    refine ⟨by rw [hm3]; rfl, by rw [hm3]; rfl, hx1.trans hl.sp, ?_, ?_⟩
    · rw [hx2, hl.cursor, hl.sp, BitVec.add_comm]
      exact BitVec.add_sub_cancel _ _
    · rw [hmem]
      exact hl.bytes

/-- The program is its automaton. -/
theorem heartbeat_follows (hp : Placed c a S) : Follows c (Phase.At a S) Phase.next := by
  refine ⟨fun ph m h => ?_, fun ph m r h => ?_⟩
  · rw [h.pc]
    cases ph with
    | wait last => exact (hp.text.left.drop 6).head
    | ask last => exact (hp.text.left.drop 8).head
    | say t => exact (hp.text.left.drop 33).head
  · have hk := keeps_answered m r
    have hhome := h.toHome.keeps hk rfl (by decide)
    have hlast := (hk.x (n := 24) (by decide)).trans h.last
    have hpc : (m.answered r).pc = ph.pc a + 4 := by
      rw [← h.pc]
      rfl
    cases ph with
    | wait last =>
      rw [show (Phase.wait last).pc a + 4 = instrAt a 7 from instrAt_next a 6] at hpc
      obtain ⟨m1, hrun, hm1, hk1⟩ := straight [.movz (.x 8) sysTicks] (hp.text.left.drop 7) hpc (by decide)
      refine ⟨m1, hrun, hhome.keeps hk1 (by rw [hm1]; rfl) (by decide), ?_, (hk1.x (by decide)).trans hlast, ?_⟩
      · rw [hm1]
        exact instrAt_add a 7 1
      · rw [hm1]
        rfl
    | ask last =>
      rw [show (Phase.ask last).pc a + 4 = instrAt a 9 from instrAt_next a 8] at hpc
      obtain ⟨m1, hrun, hm1, hk1⟩ := straight [.mov (.x 25) (.x 0), .movz (.x 3) 100, .udiv (.x 26) (.x 25) (.x 3),
        .cmpr (.x 26) (.x 24)] (hp.text.left.drop 9) hpc (by decide)
      have hhome1 := hhome.keeps hk1 (by rw [hm1]; rfl) (by decide)
      have h24 : m1.x 24 = last := (hk1.x (by decide)).trans hlast
      have h25 : m1.x 25 = r.r0 := by
        rw [hm1]
        rfl
      have h26 : m1.x 26 = r.r0 / 100 := by
        rw [hm1]
        rfl
      have hpc1 : m1.pc = instrAt a 13 := by
        rw [hm1]
        exact instrAt_add a 9 4
      have hbc : c m1.pc = some (.bc .ls (instrAt a 2)) := by
        rw [hpc1]
        exact (hp.text.left.drop 13).head
      have hstep := step_bc hbc
      have hholds : Cond.ls.holds m1 = (r.r0 / 100).ule last := by
        have hcmp : m1 = ((execs [.mov (.x 25) (.x 0), .movz (.x 3) 100, .udiv (.x 26) (.x 25) (.x 3)]
            (m.answered r)).setFlags (subFlags (r.r0 / 100) ((m.answered r).x 24))).goto
              (instrAt (instrAt a 9) 4) := hm1
        rw [← show (m.answered r).x 24 = last from hlast, hcmp]
        exact ls_subFlags _
      rw [hholds, hpc1, instrAt_next] at hstep
      by_cases hlt : last < r.r0 / 100
      · have hule : (r.r0 / 100).ule last = false := by
          rw [BitVec.lt_def] at hlt
          simp only [BitVec.ule, decide_eq_false_iff_not]
          omega
        rw [hule] at hstep
        obtain ⟨m2, hrun2, hat⟩ := gets_to_say (m := m1.goto (instrAt a 14)) hp rfl
          (hhome1.keeps ((Keeps.refl [] m1).goto _) rfl (by decide)) h25 h26
        refine ⟨m2, hrun.trans (.next hstep hrun2), ?_⟩
        rw [show (Phase.ask last).next r = .say r.r0 from if_pos hlt]
        exact hat
      · have hule : (r.r0 / 100).ule last = true := by
          rw [BitVec.lt_def] at hlt
          simp only [BitVec.ule, decide_eq_true_eq]
          omega
        rw [hule] at hstep
        obtain ⟨m2, hrun2, hat⟩ := gets_to_wait (m := m1.goto (instrAt a 2)) hp rfl
          (hhome1.keeps ((Keeps.refl [] m1).goto _) rfl (by decide)) h24
        refine ⟨m2, hrun.trans (.next hstep hrun2), ?_⟩
        rw [show (Phase.ask last).next r = .wait last from if_neg hlt]
        exact hat
    | say t =>
      rw [show (Phase.say t).pc a + 4 = instrAt a 34 from instrAt_next a 33] at hpc
      have hb : c (m.answered r).pc = some (.b (instrAt a 2)) := by
        rw [hpc]
        exact (hp.text.left.drop 34).head
      obtain ⟨m1, hrun, hat⟩ := gets_to_wait (m := (m.answered r).goto (instrAt a 2)) hp rfl
        (hhome.keeps ((Keeps.refl [] _).goto _) rfl (by decide)) hlast
      exact ⟨m1, .next (step_b hb) hrun, hat⟩

/-! ## What it writes -/

/-- What a run wrote. -/
def said (l : List (Machine × Answer)) : List (List UInt8) :=
  l.filterMap fun e =>
    if e.1.x 8 = sysWrite then some (bytesAt e.1.mem (e.1.x 1).toNat (e.1.x 2).toNat) else none

/-- The tick counts that it was told. -/
def told (l : List (Machine × Answer)) : List Nat :=
  l.filterMap fun e => if e.1.x 8 = sysTicks then some e.2.r0.toNat else none

/-- A line for each count that is in a later second than the last line. -/
def lines (last : Nat) : List Nat → List (List UInt8)
  | [] => []
  | t :: ts => if last < t / 100 then line t :: lines (t / 100) ts else lines last ts

/-- What is to be written from a phase on. -/
def Phase.due : Phase → List Nat → List (List UInt8)
  | wait last, ts => lines last.toNat ts
  | ask last, ts => lines last.toNat ts
  | say t, ts => line t.toNat :: lines (t.toNat / 100) ts

theorem length_line (t : Word) : (line t.toNat).length < 2 ^ 64 := by
  have hq : (t / 100 : Word).toNat = t.toNat / 100 := BitVec.toNat_udiv ..
  have h1 := length_decimal_word t
  have h2 := length_decimal_word (t / 100)
  rw [hq] at h2
  unfold line
  simp only [List.length_append]
  have h3 : uptimeText.length + secsText.length + ticksText.length = 18 := rfl
  omega

theorem said_cons (e : Machine × Answer) (l : List (Machine × Answer)) :
    said (e :: l) = (if e.1.x 8 = sysWrite then [bytesAt e.1.mem (e.1.x 1).toNat (e.1.x 2).toNat] else []) ++
      said l := by
  unfold said
  by_cases h : e.1.x 8 = sysWrite
  · rw [if_pos h]
    exact List.filterMap_cons_some (if_pos h)
  · rw [if_neg h]
    exact List.filterMap_cons_none (if_neg h)

theorem told_cons (e : Machine × Answer) (l : List (Machine × Answer)) :
    told (e :: l) = (if e.1.x 8 = sysTicks then [e.2.r0.toNat] else []) ++ told l := by
  unfold told
  by_cases h : e.1.x 8 = sysTicks
  · rw [if_pos h]
    exact List.filterMap_cons_some (if_pos h)
  · rw [if_neg h]
    exact List.filterMap_cons_none (if_neg h)

/-- What a run writes is what is due, but for a line that it has not got to yet. -/
theorem said_of_along {ph : Phase} {l : List (Machine × Answer)} (h : Along (Phase.At a S) Phase.next ph l) :
    said l <+: ph.due (told l) ∧ (ph.due (told l)).length ≤ (said l).length + 1 := by
  induction l generalizing ph with
  | nil =>
    cases ph with
    | wait last => exact ⟨List.prefix_rfl, Nat.zero_le _⟩
    | ask last => exact ⟨List.prefix_rfl, Nat.zero_le _⟩
    | say t => exact ⟨List.nil_prefix, Nat.le_refl _⟩
  | cons e l ih =>
    obtain ⟨m, r⟩ := e
    have hat := h.1
    have hrest := ih h.2
    rw [said_cons, told_cons]
    cases ph with
    | wait last =>
      have h8 : m.x 8 = sysRecv := hat.call.1
      have hw : m.x 8 ≠ sysWrite := by
        rw [h8]
        decide
      have ht : m.x 8 ≠ sysTicks := by
        rw [h8]
        decide
      rw [if_neg hw, if_neg ht]
      exact hrest
    | ask last =>
      have h8 : m.x 8 = sysTicks := hat.call
      have hw : m.x 8 ≠ sysWrite := by
        rw [h8]
        decide
      have hq : (r.r0 / 100 : Word).toNat = r.r0.toNat / 100 := BitVec.toNat_udiv ..
      have hdue : (Phase.ask last).due ([r.r0.toNat] ++ told l) = ((Phase.ask last).next r).due (told l) := by
        by_cases hlt : last < r.r0 / 100
        · rw [show (Phase.ask last).next r = .say r.r0 from if_pos hlt]
          rw [BitVec.lt_def, hq] at hlt
          exact if_pos hlt
        · rw [show (Phase.ask last).next r = .wait last from if_neg hlt]
          rw [BitVec.lt_def, hq] at hlt
          exact if_neg hlt
      rw [if_neg hw, if_pos h8, hdue]
      exact hrest
    | say t =>
      obtain ⟨h8, -, h1, h2, hbytes⟩ := hat.call
      have ht : m.x 8 ≠ sysTicks := by
        rw [h8]
        decide
      have hq : (t / 100 : Word).toNat = t.toNat / 100 := BitVec.toNat_udiv ..
      have hn : (m.x 2).toNat = (line t.toNat).length := by
        rw [h2, BitVec.toNat_ofNat]
        exact Nat.mod_eq_of_lt (length_line t)
      have hdue : (Phase.say t).due (told l) = line t.toNat :: ((Phase.say t).next r).due (told l) := by
        show line t.toNat :: lines (t.toNat / 100) _ = line t.toNat :: lines (t / 100 : Word).toNat _
        rw [hq]
      rw [if_pos h8, if_neg ht]
      dsimp only
      rw [h1, hn, hbytes.bytesAt, List.nil_append, hdue]
      refine ⟨(List.prefix_cons_inj _).mpr hrest.1, ?_⟩
      rw [List.length_cons, List.length_append]
      have := hrest.2
      show _ + 1 ≤ 1 + _ + 1
      omega

/-- Whatever the program is answered it goes on, and what it writes is the lines for the
counts that it is told, in order: a run that is cut short lacks at most the last. -/
theorem heartbeat_writes {m : Machine} (hp : Placed c a S) (hpc : m.pc = a) (hsp : m.get .sp = S + 128)
    (htext : Bytes m.mem (a.toNat + 216) (uptimeText ++ (secsText ++ ticksText))) :
    (∀ rs, ∃ l m', Calls c m l m' ∧ l.map Prod.snd = rs) ∧
      ∀ l m', Calls c m l m' →
        said l <+: lines 0 (told l) ∧ (lines 0 (told l)).length ≤ (said l).length + 1 := by
  obtain ⟨m1, hrun1, hm1, -⟩ := straight [.sub .sp .sp 128, .movz (.x 24) 0] hp.text.left hpc (by decide)
  have hsp1 : m1.get .sp = S := by
    have hsub : execs [.sub .sp .sp 128, .movz (.x 24) 0] m = (m.set .sp (m.get .sp - 128)).set (.x 24) 0 := rfl
    rw [hm1, hsub, Machine.get_goto, Machine.sp_set, Machine.sp_set_sp, hsp]
    exact BitVec.add_sub_cancel _ _
  have h24 : m1.x 24 = 0 := by
    rw [hm1]
    rfl
  obtain ⟨m2, hrun2, hat⟩ := gets_to_wait hp (by rw [hm1]; rfl) ⟨hsp1, by rw [hm1]; exact htext⟩ h24
  have hgets : ∃ m₁, Steps c m m₁ ∧ (Phase.wait 0).At a S m₁ := ⟨m2, hrun1.trans hrun2, hat⟩
  exact ⟨(heartbeat_follows hp).calls hgets,
    fun l m' h => said_of_along (h.along (heartbeat_follows hp) hgets)⟩

/-- The program at 0, with a page of stack. -/
def firstBeat : Machine :=
  ⟨fun _ => 0, fun _ => 0x2000, 0, 0, fun k => (uptimeText ++ (secsText ++ ticksText)).getD (k - 216) 0⟩

theorem heartbeat_writes_first : ∃ l m', Calls (place 0 (heartbeat 0)) firstBeat l m' ∧
    l.map Prod.snd = [⟨0, 0, 0⟩, ⟨120, 0, 0⟩, ⟨0, 0, 0⟩] ∧ said l <+: lines 0 (told l) := by
  have hp : Placed (place 0 (heartbeat 0)) 0 (0x2000 - 128) :=
    ⟨has_place 0 (heartbeat 0) (by decide), by decide, by decide, by decide⟩
  obtain ⟨hgoes, hsaid⟩ := heartbeat_writes (m := firstBeat) hp rfl rfl (by decide)
  obtain ⟨l, m', hcalls, hanswers⟩ := hgoes [⟨0, 0, 0⟩, ⟨120, 0, 0⟩, ⟨0, 0, 0⟩]
  exact ⟨l, m', hcalls, hanswers, (hsaid l m' hcalls).1⟩

example : lines 0 [90, 120, 130, 250] =
    [ascii ['u', 'p', 't', 'i', 'm', 'e', ' ', '1', 's', ' ', '(', '1', '2', '0', ' ', 't', 'i', 'c', 'k', 's', ')',
      '\n'], line 250] := by decide

end Asm

end TheRack
