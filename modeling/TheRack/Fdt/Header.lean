/-
  Fdt/Header.lean --- which headers `probe` accepts.

  A header is forty bytes, so `probe` is a decision about ten words.  It keeps to
  every bound but one: the version it asks for is any from `last_comp_version`
  on, while a tree can be walked from version 17 on only.
-/
import TheRack.Fdt.Harmless

set_option autoImplicit false

namespace TheRack.Fdt

open Lib

section Words

variable {m : View} {va : Nat} {bytes : Nat → UInt8}

/-- The big endian word that the bytes hold at `offset`. -/
def word (bytes : Nat → UInt8) (offset : Nat) : Nat :=
  ofBigEndian [bytes offset, bytes (offset + 1), bytes (offset + 2), bytes (offset + 3)]

/-- The header that the bytes hold. -/
def headerOf (bytes : Nat → UInt8) : Header where
  totalsize := word bytes 4
  offDtStruct := word bytes 8
  offDtStrings := word bytes 12
  offMemRsvmap := word bytes 16
  version := word bytes 20
  lastCompVersion := word bytes 24
  bootCpuidPhys := word bytes 28
  sizeDtStrings := word bytes 32
  sizeDtStruct := word bytes 36

/-- The header at `va` can be read, and its bytes are `bytes`. -/
structure HeaderAt (m : View) (va : Nat) (bytes : Nat → UInt8) : Prop where
  end_le : va + headerSize ≤ u64Size
  holds : ∀ i, i < headerSize → m (va + i) = some (bytes i)

theorem loadBytes_of_holds {n : Nat} {l : List UInt8} (hlen : l.length = n)
    (h : ∀ i (hi : i < l.length), m (va + i) = some l[i]) : loadBytes m va n = .ok l := by
  induction l generalizing va n with
  | nil =>
    subst hlen
    rfl
  | cons byte l ih =>
    subst hlen
    have hfirst : m va = some byte := h 0 (Nat.succ_pos _)
    have hrest : loadBytes m (va + 1) l.length = .ok l := by
      refine ih rfl fun i hi => ?_
      rw [Nat.add_right_comm]
      exact h (i + 1) (Nat.succ_lt_succ hi)
    simp [loadBytes, load, hfirst, hrest]
    rfl

/-- A word of the header. -/
theorem HeaderAt.be32 (h : HeaderAt m va bytes) {offset : Nat} (hle : offset + 4 ≤ headerSize) :
    Fdt.be32 m va offset = .ok (word bytes offset) := by
  have hend := h.end_le
  have hload : loadBytes m (va + offset) 4 =
      .ok [bytes offset, bytes (offset + 1), bytes (offset + 2), bytes (offset + 3)] := by
    refine loadBytes_of_holds rfl fun i hi => ?_
    have hi : i < 4 := hi
    rw [Nat.add_assoc, h.holds (offset + i) (by omega)]
    match i, hi with
    | 0, _ | 1, _ | 2, _ | 3, _ => rfl
  unfold Fdt.be32
  rw [add64_ok (by omega)]
  simp only [bind, Except.bind, pure, Except.pure, hload, word]

end Words

/-! ## What is asked of a header -/

/-- What the header check comes to, but for the lower bound of the version. -/
structure Bounded (va : Nat) (bytes : Nat → UInt8) : Prop where
  va_ne : va ≠ 0
  aligned : va % 8 = 0
  magic_eq : word bytes 0 = magic
  size_ge : headerSize ≤ (headerOf bytes).totalsize
  size_le : (headerOf bytes).totalsize ≤ maxBlob
  needs_le : (headerOf bytes).lastCompVersion ≤ supportedVersion
  struct_le : (headerOf bytes).offDtStruct + (headerOf bytes).sizeDtStruct ≤
    (headerOf bytes).totalsize
  strings_le : (headerOf bytes).offDtStrings + (headerOf bytes).sizeDtStrings ≤
    (headerOf bytes).totalsize
  rsvmap_lt : (headerOf bytes).offMemRsvmap < (headerOf bytes).totalsize

/-- A header whose tree this code can walk. -/
def Walkable (va : Nat) (bytes : Nat → UInt8) : Prop :=
  Bounded va bytes ∧ supportedVersion ≤ (headerOf bytes).version

/-- A header of an older format, consistent in itself. -/
def Outdated (va : Nat) (bytes : Nat → UInt8) : Prop :=
  Bounded va bytes ∧ (headerOf bytes).lastCompVersion ≤ (headerOf bytes).version ∧
    (headerOf bytes).version < supportedVersion

section Probe

variable {m : View} {va : Nat} {bytes : Nat → UInt8} {header : Header}

theorem endsInside_eq_false {totalsize offset size : Nat} (hsize : totalsize ≤ maxBlob) :
    endsInside totalsize offset size = false ↔ totalsize < offset + size := by
  rw [maxBlob_eq] at hsize
  unfold endsInside checkedAdd32
  by_cases hlt : offset + size < u32Size
  · simp [hlt]
  · rw [u32Size_eq] at hlt
    simp only [u32Size_eq, hlt, if_false, true_iff]
    omega

/-- `probe` on a header that can be read: one check after the other. -/
theorem probe_ok_iff (h : HeaderAt m va bytes) :
    probe m va = .ok (.ok header) ↔
      (Bounded va bytes ∧ (headerOf bytes).lastCompVersion ≤ (headerOf bytes).version) ∧
        header = headerOf bytes := by
  have hword (offset : Nat) (hle : offset + 4 ≤ headerSize := by decide) :
      be32 m va offset = .ok (word bytes offset) := h.be32 hle
  unfold probe
  simp only [hword 0, hword 4, hword 8, hword 12, hword 16, hword 20, hword 24, hword 28, hword 32,
    hword 36, bind, Except.bind, pure, Except.pure]
  split
  · rename_i hva
    exact ⟨nofun, fun hb => absurd hva hb.1.1.va_ne⟩
  rename_i hva
  split
  · rename_i haligned
    exact ⟨nofun, fun hb => absurd hb.1.1.aligned haligned⟩
  rename_i haligned
  split
  · rename_i hmagic
    exact ⟨nofun, fun hb => absurd hb.1.1.magic_eq hmagic⟩
  rename_i hmagic
  split
  · rename_i hsmall
    exact ⟨nofun, fun hb => absurd hb.1.1.size_ge (Nat.not_le.mpr hsmall)⟩
  rename_i hsmall
  split
  · rename_i hlarge
    exact ⟨nofun, fun hb => absurd hb.1.1.size_le (Nat.not_le.mpr hlarge)⟩
  rename_i hlarge
  have hlarge := Nat.not_lt.mp hlarge
  split
  · rename_i hversion
    refine ⟨nofun, fun hb => ?_⟩
    have hneeds := hb.1.1.needs_le
    have hle := hb.1.2
    simp only [headerOf] at hneeds hle
    omega
  rename_i hversion
  split
  · rename_i hblocks
    rw [endsInside_eq_false hlarge, endsInside_eq_false hlarge] at hblocks
    refine ⟨nofun, fun hb => ?_⟩
    have hstruct := hb.1.1.struct_le
    have hstrings := hb.1.1.strings_le
    have hrsvmap := hb.1.1.rsvmap_lt
    simp only [headerOf] at hstruct hstrings hrsvmap
    omega
  rename_i hblocks
  rw [endsInside_eq_false hlarge, endsInside_eq_false hlarge] at hblocks
  have hbounded : Bounded va bytes := by
    refine ⟨hva, by omega, by simpa using hmagic, ?_, hlarge, ?_, ?_, ?_, ?_⟩ <;>
      simp only [headerOf] <;> omega
  constructor
  · intro heq
    have hle : (headerOf bytes).lastCompVersion ≤ (headerOf bytes).version := by
      simp only [headerOf]
      omega
    exact ⟨⟨hbounded, hle⟩, (Except.ok.inj (Except.ok.inj heq)).symm⟩
  · rintro ⟨-, rfl⟩
    rfl

/-- `probe` decides whether the header is walkable, unless the header is one of an
older format that keeps to all the other rules. -/
theorem probe_accepts_the_walkable (h : HeaderAt m va bytes) :
    (∀ header, probe m va = .ok (.ok header) ↔ Walkable va bytes ∧ header = headerOf bytes) ↔
      ¬ Outdated va bytes := by
  constructor
  · rintro hexact ⟨hbounded, hle, hold⟩
    have hok := (probe_ok_iff h).mpr ⟨⟨hbounded, hle⟩, rfl⟩
    have hnew := ((hexact _).mp hok).1.2
    omega
  · intro hold header
    rw [probe_ok_iff h]
    refine and_congr_left fun _ => and_congr_right fun hbounded => ?_
    have hneeds := hbounded.needs_le
    constructor
    · intro hle
      by_contra hlt
      exact hold ⟨hbounded, hle, Nat.not_le.mp hlt⟩
    · intro hnew
      omega

end Probe

/-- The header of the smallest tree, in the format of before `size_dt_struct`. -/
def outdatedHeader : List UInt8 :=
  [0xd0, 0x0d, 0xfe, 0xed, 0, 0, 0, 72, 0, 0, 0, 56, 0, 0, 0, 72, 0, 0, 0, 40,
   0, 0, 0, 16, 0, 0, 0, 16, 0, 0, 0, 0, 0, 0, 0, 0, 0, 0, 0, 16]

theorem headerAt_only {va : Nat} {bytes : List UInt8} (hend : va + headerSize ≤ u64Size)
    (hlen : headerSize ≤ bytes.length) :
    HeaderAt (only va bytes) va fun i => bytes.getD i 0 := by
  refine ⟨hend, fun i hi => ?_⟩
  have hlt : i < bytes.length := Nat.lt_of_lt_of_le hi hlen
  simp [only, hlt]

theorem probe_accepts_the_smallest_tree :
    probe (only 4096 emptyTree) 4096 = .ok (.ok (headerOf fun i => emptyTree.getD i 0)) := by
  have hheader : HeaderAt (only 4096 emptyTree) 4096 fun i => emptyTree.getD i 0 :=
    headerAt_only (by decide) (by decide)
  have hold : ¬ Outdated 4096 fun i => emptyTree.getD i 0 := fun hold => absurd hold.2.2 (by decide)
  have hbounded : Bounded 4096 fun i => emptyTree.getD i 0 := by constructor <;> decide
  exact ((probe_accepts_the_walkable hheader).mpr hold _).mpr ⟨⟨hbounded, by decide⟩, rfl⟩

/-- `probe` accepts a header of version 16. -/
theorem probe_accepts_the_outdated :
    probe (only 4096 outdatedHeader) 4096 = .ok (.ok ⟨72, 56, 72, 40, 16, 16, 0, 0, 16⟩) ∧
      ¬ ∀ header, probe (only 4096 outdatedHeader) 4096 = .ok (.ok header) ↔
        Walkable 4096 (fun i => outdatedHeader.getD i 0) ∧
          header = headerOf fun i => outdatedHeader.getD i 0 := by
  have hok : probe (only 4096 outdatedHeader) 4096 =
      .ok (.ok ⟨72, 56, 72, 40, 16, 16, 0, 0, 16⟩) := by decide +kernel
  refine ⟨hok, fun hexact => ?_⟩
  exact absurd ((hexact _).mp hok).1.2 (by decide)

end TheRack.Fdt
