/-
  Fdt/Content.lean --- what the bytes of a blob say.

  A word, a string and a property are bytes at an offset.  They are described here
  without the functions that read them, and the functions are shown to read them.
-/
import TheRack.Fdt.Header
import TheRack.Fdt.Steps

set_option autoImplicit false

namespace TheRack.Fdt

open Lib

/-- The next multiple of four. -/
def padded (offset : Nat) : Nat := (offset + 3) / 4 * 4

/-- The bytes are there to load from `va` on. -/
def Loaded (m : View) (va : Nat) (bytes : List UInt8) : Prop :=
  ∀ i (h : i < bytes.length), m (va + i) = some bytes[i]

theorem loaded_only (va : Nat) (bytes : List UInt8) : Loaded (only va bytes) va bytes := by
  intro i hi
  unfold only
  rw [if_pos (Nat.le_add_right _ _), Nat.add_sub_cancel_left, List.getElem?_eq_getElem hi]

namespace Blob

section Content

variable (m : View) (b : Blob)

/-- The blob holds these bytes from `offset` on. -/
structure Has (offset : Nat) (bytes : List UInt8) : Prop where
  le : offset + bytes.length ≤ b.header.totalsize
  eq : ∀ i (h : i < bytes.length), m (b.va + offset + i) = some bytes[i]

/-- A big endian word of four bytes. -/
def WordAt (offset value : Nat) : Prop :=
  ∃ bytes : List UInt8, bytes.length = 4 ∧ ofBigEndian bytes = value ∧ b.Has m offset bytes

/-- A string and the NUL that ends it, which lies below `limit`. -/
structure StringAt (offset limit : Nat) (s : List UInt8) : Prop where
  has : b.Has m offset (s ++ [0])
  lt : offset + s.length < limit
  nul : 0 ∉ s
  utf8 : Utf8 s

/-- A property: a token, how long the value is, where the name is among the strings, and
the value. -/
structure PropertyLies (offset : Nat) (name value : List UInt8) : Prop where
  token : b.WordAt m offset fdtProp
  len : b.WordAt m (offset + 4) value.length
  value : b.Has m (offset + 12) value
  name : ∃ nameOffset, b.WordAt m (offset + 8) nameOffset ∧
    b.StringAt m (b.header.offDtStrings + nameOffset)
      (b.header.offDtStrings + b.header.sizeDtStrings) name

end Content

section Readers

variable {m : View} {b : Blob} {offset : Nat} {bytes : List UInt8}

theorem has_append {l l' : List UInt8} :
    b.Has m offset (l ++ l') ↔ b.Has m offset l ∧ b.Has m (offset + l.length) l' := by
  constructor
  · intro h
    have hle := h.le
    rw [List.length_append] at hle
    refine ⟨⟨by omega, fun i hi => ?_⟩, by omega, fun i hi => ?_⟩
    · rw [h.eq i (by rw [List.length_append]; omega), List.getElem_append_left hi]
    · have hbyte := h.eq (l.length + i) (by rw [List.length_append]; omega)
      rw [List.getElem_append_right (Nat.le_add_right _ _)] at hbyte
      simpa only [Nat.add_sub_cancel_left, Nat.add_assoc] using hbyte
  · rintro ⟨h, h'⟩
    have hle := h'.le
    refine ⟨by rw [List.length_append]; omega, fun i hi => ?_⟩
    rw [List.length_append] at hi
    by_cases hleft : i < l.length
    · rw [h.eq i hleft, List.getElem_append_left hleft]
    · have hbyte := h'.eq (i - l.length) (by omega)
      rw [List.getElem_append_right (Nat.not_lt.mp hleft), ← hbyte]
      congr 1
      omega

theorem Has.cons {byte : UInt8} (h : b.Has m offset (byte :: bytes)) :
    m (b.va + offset) = some byte ∧ b.Has m (offset + 1) bytes :=
  ⟨h.eq 0 (Nat.succ_pos _), (has_append (l := [byte]).mp h).2⟩

theorem Has.gives (hbytes : b.Has m offset bytes) (h : Sound m b) :
    Gives (b.bytesAt m offset bytes.length) bytes := by
  have hle := hbytes.le
  have hsize := h.size_le
  have hlt := h.va_lt
  have hpos := h.va_pos
  rw [maxBlob_eq] at hsize
  unfold bytesAt
  refine .option (if_pos (by rw [u32Size_eq]; omega)) (.checked (Nat.not_lt.mpr hle) ?_)
  refine .lift (add64_ok (by omega)) ?_
  unfold fromRawParts Gives Seek.lift
  rw [if_neg (by omega), loadBytes_of_holds rfl hbytes.eq]
  rfl

theorem WordAt.gives {value : Nat} (hword : b.WordAt m offset value) (h : Sound m b) :
    Gives (b.u32At m offset) value := by
  obtain ⟨bytes, hlen, hvalue, hbytes⟩ := hword
  have hle := hbytes.le
  have hsize := h.size_le
  have hlt := h.va_lt
  rw [maxBlob_eq] at hsize
  rw [hlen] at hle
  have hread : be32 m b.va offset = .ok value := by
    unfold be32
    rw [add64_ok (by omega)]
    simp only [bind, Except.bind, loadBytes_of_holds hlen hbytes.eq, hvalue, pure, Except.pure]
  unfold u32At
  refine .option (if_pos (by rw [u32Size_eq]; omega)) (.checked (Nat.not_lt.mpr hle) ?_)
  unfold Gives Seek.lift
  rw [hread]
  rfl

/-- The loop of `str_at` ends at the NUL. -/
theorem Has.nulFrom (h : Sound m b) {limit : Nat} (hlimit : limit ≤ b.header.totalsize)
    {s : List UInt8} (hnul : 0 ∉ s) (hs : b.Has m offset (s ++ [0]))
    (hlt : offset + s.length < limit) : Gives (b.nulFrom m limit offset) (offset + s.length) := by
  have hsize := h.size_le
  have hva := h.va_lt
  rw [maxBlob_eq] at hsize
  induction s generalizing offset with
  | nil =>
    have hbyte := hs.cons.1
    rw [List.length_nil, Nat.add_zero] at hlt
    unfold Blob.nulFrom
    rw [if_pos hlt]
    refine .lift (add64_ok (by omega)) (.lift (a := (0 : UInt8)) (by unfold load; rw [hbyte]) ?_)
    exact .pure
  | cons byte s ih =>
    obtain ⟨hbyte, hs⟩ := hs.cons
    rw [List.length_cons] at hlt ⊢
    have hne : byte ≠ 0 := fun heq => hnul (heq ▸ List.mem_cons_self)
    have hrest := ih (fun hmem => hnul (List.mem_cons_of_mem _ hmem)) hs (by omega)
    unfold Blob.nulFrom
    rw [if_pos (by omega)]
    refine .lift (add64_ok (by omega)) (.lift (a := byte) (by unfold load; rw [hbyte]) ?_)
    rw [if_neg hne]
    refine .lift (add32_ok (by rw [u32Size_eq]; omega)) ?_
    rwa [Nat.add_right_comm, Nat.add_assoc] at hrest

theorem StringAt.gives {limit : Nat} {s : List UInt8} (hs : b.StringAt m offset limit s)
    (h : Sound m b) : Gives (b.strAt m offset limit) s := by
  have hle := hs.has.le
  have hlt := hs.lt
  rw [List.length_append, List.length_singleton] at hle
  have hbytes := (has_append.mp hs.has).1.gives h
  unfold strAt
  refine .checked (by omega) ?_
  refine (hs.has.nulFrom h (Nat.min_le_right _ _) hs.nul (by omega)).bind ?_
  rw [Nat.add_sub_cancel_left]
  refine hbytes.bind ?_
  unfold Gives fromUtf8 Seek.ofOption
  rw [if_pos hs.utf8]
  rfl

/-- A property that lies there is read by both readers of properties. -/
theorem PropertyLies.propertyAt {name value : List UInt8}
    (hprop : b.PropertyLies m offset name value) (h : Sound m b) :
    PropertyAt m b offset name value := by
  obtain ⟨nameOffset, hoffset, hname⟩ := hprop.name
  have hsize := h.size_le
  have hstrings := h.strings_le
  have hlt := hname.lt
  rw [maxBlob_eq] at hsize
  refine ⟨hprop.token.gives h, _, nameOffset, hprop.len.gives h, hoffset.gives h,
    hprop.value.gives h, ?_⟩
  unfold string
  refine .option (if_pos (by rw [u32Size_eq]; omega)) ?_
  refine .option (if_pos (by rw [u32Size_eq]; omega)) ?_
  exact .checked (by omega) (hname.gives h)

theorem align4_eq_padded (h : Sound m b) (hle : offset ≤ b.header.totalsize) :
    align4 offset = padded offset := by
  have hsize := h.size_le
  rw [maxBlob_eq] at hsize
  exact align4_eq (by rw [u32Size_eq]; omega)

/-- What is loaded at the blob is in it. -/
theorem Has.of_loaded {pa va : Nat} {header : Header} {all : List UInt8} (hload : Loaded m va all)
    (hle : offset + bytes.length ≤ header.totalsize)
    (h : (all.drop offset).take bytes.length = bytes) :
    Blob.Has m ⟨pa, va, header⟩ offset bytes := by
  refine ⟨hle, fun i hi => ?_⟩
  have hbyte : all[offset + i]? = some bytes[i] := by
    rw [← List.getElem?_drop, ← List.getElem?_eq_getElem hi]
    conv_rhs => rw [← h]
    rw [List.getElem?_take_of_lt hi]
  obtain ⟨hlt, hbyte⟩ := List.getElem?_eq_some_iff.mp hbyte
  simp only
  rw [Nat.add_assoc, hload _ hlt, hbyte]

theorem has_only {pa va : Nat} {header : Header} {all : List UInt8}
    (hle : offset + bytes.length ≤ header.totalsize)
    (h : (all.drop offset).take bytes.length = bytes) :
    Blob.Has (only va all) ⟨pa, va, header⟩ offset bytes :=
  .of_loaded (loaded_only va all) hle h

end Readers

end Blob

end TheRack.Fdt
