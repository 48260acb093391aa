/-
  Lib/A64/Pairs.lean --- registers saved to memory and loaded from it in pairs.

  A routine that gives up the registers stores them two at a time in ascending
  words, and loads them the same way later.  What a block of such stores leaves in
  memory, and what a block of such loads leaves in the registers, is said once for
  any list of registers.
-/
import Mathlib.Tactic.Tauto
import TheRack.Lib.A64.Rules

set_option autoImplicit false

namespace Lib.A64

variable {m : Machine}

/-- The memory has the words from `a` on. -/
def Words (mem : Mem) : Nat → List Word → Prop
  | _, [] => True
  | a, w :: ws => mem.readLE a 8 = w.toNat ∧ Words mem (a + 8) ws

theorem words_iff {mem : Mem} {a : Nat} {ws : List Word} :
    Words mem a ws ↔ ∀ i (h : i < ws.length), mem.readLE (a + 8 * i) 8 = (ws[i]).toNat := by
  induction ws generalizing a with
  | nil => exact ⟨fun _ i h => (nomatch h), fun _ => trivial⟩
  | cons w ws ih =>
    have hshift : ∀ i, a + 8 + 8 * i = a + 8 * (i + 1) := fun i => by omega
    constructor
    · rintro ⟨hw, hws⟩ i hi
      cases i with
      | zero => exact hw
      | succ i =>
        rw [← hshift]
        exact ih.mp hws i (Nat.lt_of_succ_lt_succ hi)
    · intro h
      refine ⟨h 0 (Nat.succ_pos _), ih.mpr fun i hi => ?_⟩
      rw [hshift]
      exact h (i + 1) (Nat.succ_lt_succ hi)

instance decidableWords (mem : Mem) : (a : Nat) → (ws : List Word) → Decidable (Words mem a ws)
  | _, [] => .isTrue trivial
  | a, w :: ws =>
    have := decidableWords mem (a + 8) ws
    inferInstanceAs (Decidable (mem.readLE a 8 = w.toNat ∧ Words mem (a + 8) ws))

theorem words_append {mem : Mem} {a : Nat} {ws ws' : List Word} :
    Words mem a (ws ++ ws') ↔ Words mem a ws ∧ Words mem (a + 8 * ws.length) ws' := by
  induction ws generalizing a with
  | nil => simp [Words]
  | cons w ws ih =>
    have hshift : a + 8 + 8 * ws.length = a + 8 * (ws.length + 1) := by omega
    simp only [List.cons_append, Words, ih, List.length_cons, hshift, and_assoc]

/-- The words depend on the bytes they are in only. -/
theorem Words.congr {mem mem' : Mem} {a : Nat} {ws : List Word} (h : Words mem a ws)
    (hsame : ∀ x, a ≤ x → x < a + 8 * ws.length → mem' x = mem x) : Words mem' a ws := by
  induction ws generalizing a with
  | nil => trivial
  | cons w ws ih =>
    rw [List.length_cons] at hsame
    refine ⟨?_, ih h.2 fun x h1 h2 => hsame x (by omega) (by omega)⟩
    rw [Mem.readLE_congr fun x h1 h2 => hsame x h1 (by omega)]
    exact h.1

/-- Words elsewhere are not touched. -/
theorem Words.sameBut {mem mem' : Mem} {a b n : Nat} {ws : List Word} (h : Words mem a ws)
    (hsame : Mem.SameBut b n mem mem') (hoff : a + 8 * ws.length ≤ b ∨ b + n ≤ a) :
    Words mem' a ws := h.congr fun x _ _ => hsame x (by omega)

/-- The words written one after the other. -/
def writeWords : Mem → Nat → List Word → Mem
  | mem, _, [] => mem
  | mem, a, w :: ws => writeWords (mem.writeLE a 8 w.toNat) (a + 8) ws

theorem writeWords_sameBut (mem : Mem) (a : Nat) (ws : List Word) :
    Mem.SameBut a (8 * ws.length) mem (writeWords mem a ws) := by
  induction ws generalizing mem a with
  | nil => exact Mem.SameBut.refl _ _ _
  | cons w ws ih =>
    rw [List.length_cons]
    exact ((Mem.SameBut.writeLE a 8 w.toNat mem).mono (Nat.le_refl a) (by omega)).trans
      ((ih (mem.writeLE a 8 w.toNat) (a + 8)).mono (by omega) (by omega))

theorem words_writeWords (mem : Mem) (a : Nat) (ws : List Word) : Words (writeWords mem a ws) a ws := by
  induction ws generalizing mem a with
  | nil => trivial
  | cons w ws ih =>
    refine ⟨?_, ih _ _⟩
    show (writeWords (mem.writeLE a 8 w.toNat) (a + 8) ws).readLE a 8 = w.toNat
    rw [(writeWords_sameBut _ _ ws).readLE_eq (by omega), Mem.readLE_writeLE]
    exact Nat.mod_eq_of_lt w.isLt

/-- Pairs of registers stored one pair after the other. -/
def stps (b : Reg) : Word → List (Reg × Reg) → List Op
  | _, [] => []
  | off, (t, u) :: l => .stp t u b off :: stps b (off + 16) l

/-- Pairs of registers loaded one pair after the other. -/
def ldps (b : Reg) : Word → List (Fin 31 × Fin 31) → List Op
  | _, [] => []
  | off, (t, u) :: l => .ldp (.x t) (.x u) b off :: ldps b (off + 16) l

/-- Registers given values in order. -/
def fill (x : Fin 31 → Word) : List (Fin 31) → List Word → Fin 31 → Word
  | r :: rs, w :: ws => fill (Function.update x r w) rs ws
  | _, _ => x

theorem fill_of_not_mem {x : Fin 31 → Word} {rs : List (Fin 31)} {ws : List Word} {n : Fin 31}
    (h : n ∉ rs) : fill x rs ws n = x n := by
  induction rs generalizing x ws with
  | nil => rfl
  | cons r rs ih =>
    rw [List.mem_cons, not_or] at h
    obtain ⟨hne, hrest⟩ := h
    cases ws with
    | nil => rfl
    | cons w ws =>
      show fill (Function.update x r w) rs ws n = x n
      rw [ih hrest, Function.update_of_ne hne]

/-- Each register gets its own value, as long as no register is given two. -/
theorem fill_map {x f : Fin 31 → Word} {rs : List (Fin 31)} {n : Fin 31} (h : n ∈ rs) :
    fill x rs (rs.map f) n = f n := by
  induction rs generalizing x with
  | nil => exact nomatch h
  | cons r rs ih =>
    show fill (Function.update x r (f r)) rs (rs.map f) n = f n
    by_cases hin : n ∈ rs
    · exact ih hin
    · have hn : n = r := (List.mem_cons.mp h).resolve_right hin
      rw [fill_of_not_mem hin, hn, Function.update_self]

/-- The words a block of stores leaves behind. -/
theorem execs_stps (m : Machine) (b : Reg) (off : Word) (l : List (Reg × Reg))
    (hroom : (m.get b + off).toNat + 16 * l.length < 2 ^ 64) :
    ∃ mem, execs (stps b off l) m = m.withMem mem ∧
      Mem.SameBut (m.get b + off).toNat (16 * l.length) m.mem mem ∧
      Words mem (m.get b + off).toNat (l.flatMap fun p => [m.get p.1, m.get p.2]) := by
  induction l generalizing m off with
  | nil => exact ⟨m.mem, rfl, Mem.SameBut.refl _ _ _, trivial⟩
  | cons p l ih =>
    obtain ⟨t, u⟩ := p
    rw [List.length_cons] at hroom
    obtain ⟨A, hA⟩ : ∃ A, A = (m.get b + off).toNat := ⟨_, rfl⟩
    have h8 : (m.get b + off + 8).toNat = A + 8 := (toNat_add 8 (by omega)).trans (by rw [hA])
    have h16 : (m.get b + (off + 16)).toNat = A + 16 := by
      rw [← BitVec.add_assoc]
      exact (toNat_add 16 (by omega)).trans (by rw [hA])
    obtain ⟨m1, hm1⟩ : ∃ m1, m1 = (Op.stp t u b off).exec m := ⟨_, rfl⟩
    have hget : ∀ r : Reg, m1.get r = m.get r := fun r => by
      rw [hm1]
      simp only [Op.exec, Machine.get_store]
    have hmem1 : m1.mem = (m.mem.writeLE A 8 (m.get t).toNat).writeLE (A + 8) 8 (m.get u).toNat := by
      rw [hm1]
      simp only [Op.exec, Machine.mem_store, h8, ← hA]
    obtain ⟨mem, hexec, hsame, hwords⟩ := ih m1 (off + 16) (by rw [hget, h16]; omega)
    rw [hget, h16] at hsame hwords
    simp only [hget] at hwords
    have hfirst : Mem.SameBut A 16 m.mem m1.mem := by
      rw [hmem1]
      exact ((Mem.SameBut.refl A 16 m.mem).write (Nat.le_refl A) (by omega)).write (by omega) (by omega)
    refine ⟨mem, ?_, ?_, ?_⟩
    · show execs (stps b (off + 16) l) ((Op.stp t u b off).exec m) = _
      rw [← hm1, hexec, hm1]
      rfl
    · rw [← hA, List.length_cons]
      exact (hfirst.mono (Nat.le_refl A) (by omega)).trans (hsame.mono (by omega) (by omega))
    · rw [← hA, List.flatMap_cons]
      refine ⟨?_, ?_, by simpa [Nat.add_assoc] using hwords⟩
      · rw [hsame.readLE_eq (by omega), hmem1, Mem.readLE_writeLE_of_disjoint _ (by omega),
          Mem.readLE_writeLE]
        exact Nat.mod_eq_of_lt (m.get t).isLt
      · rw [hsame.readLE_eq (by omega), hmem1, Mem.readLE_writeLE]
        exact Nat.mod_eq_of_lt (m.get u).isLt

/-- What a block of loads through the stack pointer leaves in the registers. -/
theorem execs_ldps (m : Machine) (off : Word) (l : List (Fin 31 × Fin 31)) (ws : List Word)
    (hlen : ws.length = 2 * l.length) (hroom : (m.get .sp + off).toNat + 16 * l.length < 2 ^ 64)
    (hwords : Words m.mem (m.get .sp + off).toNat ws) :
    execs (ldps .sp off l) m = m.withX (fill m.x (l.flatMap fun p => [p.1, p.2]) ws) := by
  induction l generalizing m off ws with
  | nil => cases ws <;> rfl
  | cons p l ih =>
    obtain ⟨t, u⟩ := p
    rw [List.length_cons] at hroom hlen
    match ws, hlen with
    | v :: w :: ws, hlen =>
      obtain ⟨A, hA⟩ : ∃ A, A = (m.get .sp + off).toNat := ⟨_, rfl⟩
      have h8 : (m.get .sp + off + 8).toNat = A + 8 := (toNat_add 8 (by omega)).trans (by rw [hA])
      have h16 : (m.get .sp + (off + 16)).toNat = A + 16 := by
        rw [← BitVec.add_assoc]
        exact (toNat_add 16 (by omega)).trans (by rw [hA])
      obtain ⟨hv, hw, hrest⟩ := hwords
      rw [← hA] at hv hw hrest
      have hload : m.load (m.get .sp + off) 8 = v := by
        unfold Machine.load
        rw [← hA, hv, BitVec.ofNat_toNat, BitVec.setWidth_eq]
      have hload8 : m.load (m.get .sp + off + 8) 8 = w := by
        unfold Machine.load
        rw [h8, hw, BitVec.ofNat_toNat, BitVec.setWidth_eq]
      have hexec : (Op.ldp (.x t) (.x u) .sp off).exec m = (m.set (.x t) v).set (.x u) w := by
        simp only [Op.exec, hload, hload8]
      have hnext := ih ((m.set (.x t) v).set (.x u) w) (off + 16) ws
        (by simp only [List.length_cons] at hlen; omega)
        (by rw [Machine.sp_set, Machine.sp_set, h16]; omega)
        (by rw [Machine.sp_set, Machine.sp_set, h16]; exact hrest)
      show execs (ldps .sp (off + 16) l) ((Op.ldp (.x t) (.x u) .sp off).exec m) = _
      rw [hexec, hnext]
      rfl

end Lib.A64
