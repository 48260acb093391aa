/-
  Fdt/Builder.lean --- what the builder of the tests writes is what is read back.

  `Tree` appends tokens to a buffer, so that what was written once stays, but for
  the header, which `finish` fills in last.  The buffer is the bytes up to `len`; how
  many it has room for is not limited here.
-/
import TheRack.Fdt.Paths

set_option autoImplicit false

namespace TheRack.Fdt

open Lib

/-- `to_be_bytes` of a `u32`. -/
def toBigEndian (value : Nat) : List UInt8 :=
  [UInt8.ofNat (value / 2 ^ 24), UInt8.ofNat (value / 2 ^ 16), UInt8.ofNat (value / 2 ^ 8),
    UInt8.ofNat value]

/-- `struct Tree`: the bytes up to `len`. -/
abbrev Tree : Type := List UInt8

namespace Tree

/-- `new`. -/
def new : Tree := List.replicate 40 0

/-- `u32`. -/
def u32 (t : Tree) (value : Nat) : Tree := t ++ toBigEndian value

/-- `len.next_multiple_of(4)`, over bytes that are zero. -/
def pad (t : Tree) : Tree := t ++ List.replicate (padded t.length - t.length) 0

/-- `begin`. -/
def begin (t : Tree) (name : List UInt8) : Tree := pad (t.u32 fdtBeginNode ++ (name ++ [0]))

/-- `end_node`. -/
def endNode (t : Tree) : Tree := t.u32 fdtEndNode

/-- `prop`. -/
def prop (t : Tree) (nameOffset : Nat) (value : List UInt8) : Tree :=
  pad (((t.u32 fdtProp).u32 value.length).u32 nameOffset ++ value)

/-- The words of the header. -/
def headerWords (t : Tree) (strings : List UInt8) : List Nat :=
  [magic, t.length + strings.length, 40, t.length, 40, 17, 16, 0, strings.length, t.length - 40]

/-- `finish`. -/
def finish (t : Tree) (strings : List UInt8) : List UInt8 :=
  let t := t.u32 fdtEnd
  (t.headerWords strings).flatMap toBigEndian ++ (t.drop 40 ++ strings)

/-- As many deleted tokens. -/
def nops (t : Tree) : Nat → Tree
  | 0 => t
  | n + 1 => nops (t.u32 fdtNop) n

end Tree

/-! ## Writing a tree -/

/-- A property to write: deleted tokens, where its name is among the strings, its value. -/
structure Entry where
  nops : Nat
  nameOffset : Nat
  value : List UInt8

/-- A node to write: deleted tokens, its name, its properties, and the deleted tokens before
the one that closes it. -/
structure Written where
  nops : Nat
  name : List UInt8
  entries : List Entry
  closing : Nat

/-- A property is written. -/
def Tree.entry (t : Tree) (e : Entry) : Tree := (t.nops e.nops).prop e.nameOffset e.value

/-- A node is written up to its children. -/
def Tree.opened (t : Tree) (w : Written) : Tree :=
  w.entries.foldl Tree.entry ((t.nops w.nops).begin w.name)

/-- Trees are written one after the other. -/
def writeAll : Forest Written → Tree → Tree
  | .nil, t => t
  | .tree w children rest, t =>
      writeAll rest ((writeAll children (t.opened w)).nops w.closing).endNode

/-- The string that starts at an offset. -/
def stringIn (strings : List UInt8) (nameOffset : Nat) : List UInt8 :=
  (strings.drop nameOffset).takeWhile (· ≠ 0)

/-- The same trees, each node where it was written and each property under its name. -/
def place (strings : List UInt8) : Forest Written → Tree → Forest Label
  | .nil, _ => .nil
  | .tree w children rest, t =>
      .tree ⟨(t.nops w.nops).length, w.name,
          w.entries.map fun e => (stringIn strings e.nameOffset, e.value)⟩
        (place strings children (t.opened w))
        (place strings rest ((writeAll children (t.opened w)).nops w.closing).endNode)

/-- A name is a string, and so are those of the properties, which are among the strings. -/
structure Written.Ok (strings : List UInt8) (w : Written) : Prop where
  nul : 0 ∉ w.name
  utf8 : Utf8 w.name
  entries : ∀ e ∈ w.entries, 0 ∈ strings.drop e.nameOffset ∧ Utf8 (stringIn strings e.nameOffset)

section Extends

variable {t : Tree}

theorem length_u32 (t : Tree) (value : Nat) : (t.u32 value).length = t.length + 4 :=
  List.length_append

theorem length_pad (t : Tree) : t.pad.length = padded t.length := by
  have hle := le_padded t.length
  unfold Tree.pad
  rw [List.length_append, List.length_replicate]
  omega

theorem prefix_u32 (t : Tree) (value : Nat) : t <+: t.u32 value := List.prefix_append _ _

theorem prefix_pad (t : Tree) : t <+: t.pad := List.prefix_append _ _

theorem prefix_nops (t : Tree) (n : Nat) : t <+: t.nops n := by
  induction n generalizing t with
  | zero => exact List.prefix_rfl
  | succ n ih => exact (prefix_u32 t fdtNop).trans (ih _)

theorem prefix_begin (t : Tree) (name : List UInt8) : t <+: t.begin name :=
  ((prefix_u32 t _).trans (List.prefix_append _ _)).trans (prefix_pad _)

theorem prefix_prop (t : Tree) (nameOffset : Nat) (value : List UInt8) :
    t <+: t.prop nameOffset value :=
  ((((prefix_u32 t _).trans (prefix_u32 _ _)).trans (prefix_u32 _ _)).trans
    (List.prefix_append _ _)).trans (prefix_pad _)

theorem prefix_entries (t : Tree) (entries : List Entry) : t <+: entries.foldl Tree.entry t := by
  induction entries generalizing t with
  | nil => exact List.prefix_rfl
  | cons e entries ih => exact ((prefix_nops t _).trans (prefix_prop _ _ _)).trans (ih _)

theorem prefix_opened (t : Tree) (w : Written) : t <+: t.opened w :=
  ((prefix_nops t _).trans (prefix_begin _ _)).trans (prefix_entries _ _)

theorem prefix_writeAll (forest : Forest Written) (t : Tree) : t <+: writeAll forest t := by
  induction forest generalizing t with
  | nil => exact List.prefix_rfl
  | tree w children rest ihc ihr =>
    exact ((((prefix_opened t w).trans (ihc _)).trans (prefix_nops _ _)).trans
      (prefix_u32 _ _)).trans (ihr _)

end Extends

/-! ## What was written is there -/

/-- A finished buffer was loaded, with `strings` at its end. -/
structure Shipped (m : View) (b : Blob) (bytes strings : List UInt8) : Prop where
  loaded : Loaded m b.va bytes
  totalsize_eq : b.header.totalsize = bytes.length
  size_ge : 40 ≤ bytes.length
  size_le : bytes.length ≤ maxBlob
  strings_eq : ∃ before : List UInt8, before.length = b.header.offDtStrings ∧ bytes = before ++ strings
  sizeDtStrings_eq : b.header.sizeDtStrings = strings.length

/-- Behind the header the bytes start as the buffer does. -/
def Within (bytes : List UInt8) (t : Tree) : Prop := t.drop 40 <+: bytes.drop 40

section There

variable {m : View} {b : Blob} {bytes strings : List UInt8} {t t' : Tree}

theorem ofBigEndian_toBigEndian (value : Nat) (h : value < u32Size) :
    ofBigEndian (toBigEndian value) = value := by
  rw [u32Size_eq] at h
  unfold toBigEndian ofBigEndian
  simp only [List.foldl_cons, List.foldl_nil, UInt8.toNat_ofNat']
  omega

theorem Within.of_prefix (h : Within bytes t') (hbefore : t <+: t') : Within bytes t := by
  obtain ⟨more, rfl⟩ := hbefore
  exact List.IsPrefix.trans ⟨_, List.drop_append.symm⟩ h

/-- What was appended to a buffer is at its end. -/
theorem Within.has {piece : List UInt8} (h : Within bytes (t ++ piece)) (h40 : 40 ≤ t.length)
    (hs : Shipped m b bytes strings) : b.Has m t.length piece := by
  obtain ⟨rest, hrest⟩ := h
  rw [List.drop_append_of_le_length h40] at hrest
  have hdrop : bytes.drop t.length = piece ++ rest := by
    have hsplit : bytes.drop t.length = (bytes.drop 40).drop (t.length - 40) := by
      rw [List.drop_drop]
      congr 1
      omega
    have hlen : t.length - 40 = (t.drop 40).length := by rw [List.length_drop]
    rw [hsplit, ← hrest, hlen, List.append_assoc, List.drop_left]
  have hlen := congrArg List.length hrest
  have hge := hs.size_ge
  rw [List.length_append, List.length_append, List.length_drop, List.length_drop] at hlen
  refine Blob.Has.of_loaded hs.loaded ?_ ?_
  · rw [hs.totalsize_eq]
    omega
  · rw [hdrop, List.take_left']
    rfl

theorem Within.word {value : Nat} (h : Within bytes (t.u32 value)) (h40 : 40 ≤ t.length)
    (hvalue : value < u32Size) (hs : Shipped m b bytes strings) : b.WordAt m t.length value :=
  ⟨toBigEndian value, rfl, ofBigEndian_toBigEndian value hvalue, Within.has h h40 hs⟩

theorem Within.nops {n : Nat} (h : Within bytes (t.nops n)) (h40 : 40 ≤ t.length)
    (hs : Shipped m b bytes strings) : Nops m b t.length (t.nops n).length := by
  induction n generalizing t with
  | zero => exact .refl _
  | succ n ih =>
    have hword := (h.of_prefix (prefix_nops (t.u32 fdtNop) n)).word h40 (by decide) hs
    have hrest := ih h (by rw [length_u32]; omega)
    rw [length_u32] at hrest
    exact .nop hword hrest

/-- A string among the strings, with its NUL. -/
theorem stringIn_split {nameOffset : Nat} (h : 0 ∈ strings.drop nameOffset) :
    0 ∉ stringIn strings nameOffset ∧
      ∃ rest, strings.drop nameOffset = stringIn strings nameOffset ++ [0] ++ rest := by
  obtain ⟨before, rest, hsplit, hnul⟩ := List.eq_append_cons_of_mem h
  have hstring : stringIn strings nameOffset = before := by
    unfold stringIn
    rw [hsplit, List.takeWhile_append_of_pos]
    · simp
    · intro byte hbyte
      simpa using fun heq : byte = 0 => hnul (heq ▸ hbyte)
  rw [hstring, hsplit]
  exact ⟨hnul, rest, by simp⟩

theorem Shipped.string (hs : Shipped m b bytes strings) {nameOffset : Nat}
    (h : 0 ∈ strings.drop nameOffset) (hutf8 : Utf8 (stringIn strings nameOffset)) :
    b.StringAt m (b.header.offDtStrings + nameOffset)
      (b.header.offDtStrings + b.header.sizeDtStrings) (stringIn strings nameOffset) := by
  obtain ⟨hnul, rest, hsplit⟩ := stringIn_split h
  obtain ⟨before, hbefore, hbytes⟩ := hs.strings_eq
  have hlen := congrArg List.length hsplit
  have htotal := congrArg List.length hbytes
  rw [List.length_drop] at hlen
  simp only [List.length_append, List.length_singleton] at hlen htotal
  have hsize := hs.sizeDtStrings_eq
  refine ⟨Blob.Has.of_loaded hs.loaded ?_ ?_, by omega, hnul, hutf8⟩
  · rw [hs.totalsize_eq, htotal, List.length_append, List.length_singleton]
    omega
  · rw [hbytes, ← hbefore, List.drop_length_add_append, hsplit, List.take_left']
    rfl

/-- A node's token and its name. -/
theorem Within.begin {name : List UInt8} (h : Within bytes (t.begin name)) (h40 : 40 ≤ t.length)
    (hs : Shipped m b bytes strings) :
    b.WordAt m t.length fdtBeginNode ∧ b.Has m (t.length + 4) (name ++ [0]) ∧
      (t.begin name).length = padded (t.length + 4 + name.length + 1) := by
  have hname := h.of_prefix (prefix_pad _)
  have hword := (hname.of_prefix (List.prefix_append _ _)).word h40 (by decide) hs
  have hhas := hname.has (by rw [length_u32]; omega) hs
  rw [length_u32] at hhas
  refine ⟨hword, hhas, ?_⟩
  unfold Tree.begin
  rw [length_pad, List.length_append, length_u32, List.length_append, List.length_singleton]
  rfl

/-- A property. -/
theorem Within.prop {nameOffset : Nat} {value : List UInt8} (h : Within bytes (t.prop nameOffset value))
    (h40 : 40 ≤ t.length) (hs : Shipped m b bytes strings) (hmem : 0 ∈ strings.drop nameOffset)
    (hutf8 : Utf8 (stringIn strings nameOffset)) :
    b.PropertyLies m t.length (stringIn strings nameOffset) value ∧
      (t.prop nameOffset value).length = padded (t.length + 12 + value.length) := by
  have hvalue := h.of_prefix (prefix_pad _)
  have hoffset := hvalue.of_prefix (List.prefix_append _ _)
  have hlen := hoffset.of_prefix (prefix_u32 _ _)
  have htoken := hlen.of_prefix (prefix_u32 _ _)
  have hhas := hvalue.has (by simp only [length_u32]; omega) hs
  simp only [length_u32, Nat.add_assoc] at hhas
  have hsize := hs.size_le
  have hle := hhas.le
  rw [hs.totalsize_eq] at hle
  rw [maxBlob_eq] at hsize
  have hin : nameOffset < bytes.length := by
    obtain ⟨before, -, hbytes⟩ := hs.strings_eq
    have hpos := List.length_pos_of_mem hmem
    have htotal := congrArg List.length hbytes
    rw [List.length_drop] at hpos
    rw [List.length_append] at htotal
    omega
  have hlen := hlen.word (by rw [length_u32]; omega) (by rw [u32Size_eq]; omega) hs
  have hoffset := hoffset.word (by simp only [length_u32]; omega) (by rw [u32Size_eq]; omega) hs
  simp only [length_u32, Nat.add_assoc] at hlen hoffset
  refine ⟨⟨htoken.word h40 (by decide) hs, hlen, hhas, nameOffset, hoffset, hs.string hmem hutf8⟩, ?_⟩
  unfold Tree.prop
  rw [length_pad, List.length_append, length_u32, length_u32, length_u32]

/-- The properties of a node. -/
theorem Within.entries {entries : List Entry} (h : Within bytes (entries.foldl Tree.entry t))
    (h40 : 40 ≤ t.length) (hs : Shipped m b bytes strings)
    (hok : ∀ e ∈ entries, 0 ∈ strings.drop e.nameOffset ∧ Utf8 (stringIn strings e.nameOffset)) :
    PropertiesLie m b t.length (entries.map fun e => (stringIn strings e.nameOffset, e.value))
      (entries.foldl Tree.entry t).length := by
  induction entries generalizing t with
  | nil => exact .nil _
  | cons e entries ih =>
    obtain ⟨⟨hmem, hutf8⟩, hrest⟩ := List.forall_mem_cons.mp hok
    have hprop := h.of_prefix (prefix_entries (t.entry e) entries)
    have hle := (prefix_nops t e.nops).length_le
    obtain ⟨hlies, hlen⟩ := Within.prop hprop (by omega) hs hmem hutf8
    have hle' := (prefix_prop (t.nops e.nops) e.nameOffset e.value).length_le
    have hlater := @ih (t.entry e) h (by unfold Tree.entry; omega) hrest
    refine .cons ((hprop.of_prefix (prefix_prop _ _ _)).nops h40 hs) hlies ?_
    rw [← hlen]
    exact hlater

/-- The trees lie where they were written. -/
theorem Within.writeAll {forest : Forest Written} (h : Within bytes (writeAll forest t))
    (h40 : 40 ≤ t.length) (hs : Shipped m b bytes strings)
    (hok : ∀ w ∈ forest.labels, w.Ok strings) (hle : (Fdt.writeAll forest t).length ≤ b.structEnd) :
    Lies m b t.length (place strings forest t) (Fdt.writeAll forest t).length := by
  induction forest generalizing t with
  | nil => exact .nil _
  | tree w children rest ihc ihr =>
    have hw := hok w List.mem_cons_self
    have hchildren := fun w' hw' => hok w' (List.mem_cons_of_mem _ (List.mem_append_left _ hw'))
    have hrest := fun w' hw' => hok w' (List.mem_cons_of_mem _ (List.mem_append_right _ hw'))
    -- the buffer after one part of the node and the next
    have hended := h.of_prefix (prefix_writeAll rest _)
    have hclosing := hended.of_prefix (prefix_u32 _ _)
    have hinside := hclosing.of_prefix (prefix_nops _ _)
    have hopened := hinside.of_prefix (prefix_writeAll children _)
    have hbegun := hopened.of_prefix (prefix_entries _ _)
    have hnops := hbegun.of_prefix (prefix_begin _ _)
    have hle₁ := (prefix_nops t w.nops).length_le
    have hle₂ : ((t.nops w.nops).begin w.name).length ≤ (t.opened w).length :=
      (prefix_entries _ _).length_le
    have hle₃ := (prefix_writeAll children (t.opened w)).length_le
    have hle₄ := (prefix_nops (Fdt.writeAll children (t.opened w)) w.closing).length_le
    have hle₅ : (((Fdt.writeAll children (t.opened w)).nops w.closing).endNode).length ≤
        (Fdt.writeAll (.tree w children rest) t).length := (prefix_writeAll rest _).length_le
    have hclosed : (((Fdt.writeAll children (t.opened w)).nops w.closing).endNode).length =
        ((Fdt.writeAll children (t.opened w)).nops w.closing).length + 4 := length_u32 _ _
    obtain ⟨hbegin, hname, hlen⟩ := hbegun.begin (by omega) hs
    have hpad := le_padded ((t.nops w.nops).length + 4 + w.name.length + 1)
    have hproperties := @Within.entries m b bytes strings _ w.entries hopened (by omega) hs hw.entries
    have hinner := ihc hinside (by omega) hchildren (by omega)
    have hlater := ihr h (by omega) hrest hle
    rw [hlen] at hproperties
    rw [hclosed] at hlater
    exact .tree (hnops.nops h40 hs) hbegin ⟨hname, by simp only; omega, hw.nul, hw.utf8⟩ hproperties
      hinner (hclosing.nops (by omega) hs) (hended.word (by omega) (by decide) hs) hlater

end There

/-! ## The round trip -/

/-- What is handed back for a tree: deleted tokens stand behind it, too. -/
def built (root : Forest Written) (nops : Nat) (strings : List UInt8) : List UInt8 :=
  ((writeAll root Tree.new).nops nops).finish strings

/-- The header that `finish` writes. -/
def Tree.header (t : Tree) (strings : List UInt8) : Header where
  totalsize := (t.u32 fdtEnd).length + strings.length
  offDtStruct := 40
  offDtStrings := (t.u32 fdtEnd).length
  offMemRsvmap := 40
  version := 17
  lastCompVersion := 16
  bootCpuidPhys := 0
  sizeDtStrings := strings.length
  sizeDtStruct := (t.u32 fdtEnd).length - 40

section RoundTrip

variable {m : View} {pa va : Nat} {t : Tree} {strings : List UInt8}

theorem length_header (t : Tree) (strings : List UInt8) :
    ((t.headerWords strings).flatMap toBigEndian).length = 40 := rfl

theorem length_finish (h40 : 40 ≤ t.length) :
    (t.finish strings).length = (t.u32 fdtEnd).length + strings.length := by
  unfold Tree.finish
  rw [List.length_append, length_header, List.length_append, List.length_drop, length_u32]
  omega

theorem headerOf_finish (h40 : 40 ≤ t.length) (hsize : (t.finish strings).length ≤ maxBlob) :
    headerOf (fun i => (t.finish strings).getD i 0) = t.header strings := by
  rw [length_finish h40, maxBlob_eq] at hsize
  have hread : ∀ value, value ≤ 1048576 → ofBigEndian (toBigEndian value) = value := fun value hle =>
    ofBigEndian_toBigEndian value (by rw [u32Size_eq]; omega)
  have htotal := hread ((t.u32 fdtEnd).length + strings.length) hsize
  have hstrings := hread (t.u32 fdtEnd).length (by omega)
  have hlen := hread strings.length (by omega)
  have hstruct := hread ((t.u32 fdtEnd).length - 40) (by omega)
  have hwords : headerOf (fun i => (t.finish strings).getD i 0) =
      ⟨ofBigEndian (toBigEndian ((t.u32 fdtEnd).length + strings.length)),
        ofBigEndian (toBigEndian 40), ofBigEndian (toBigEndian (t.u32 fdtEnd).length),
        ofBigEndian (toBigEndian 40), ofBigEndian (toBigEndian 17), ofBigEndian (toBigEndian 16),
        ofBigEndian (toBigEndian 0), ofBigEndian (toBigEndian strings.length),
        ofBigEndian (toBigEndian ((t.u32 fdtEnd).length - 40))⟩ := rfl
  rw [hwords, htotal, hstrings, hlen, hstruct]
  rfl

/-- `probe` accepts what `finish` hands back. -/
theorem probe_finish (h40 : 40 ≤ t.length) (hsize : (t.finish strings).length ≤ maxBlob)
    (hload : Loaded m va (t.finish strings)) (hva : va ≠ 0) (haligned : va % 8 = 0)
    (hlt : va + (t.finish strings).length < u64Size) :
    probe m va = .ok (.ok (t.header strings)) := by
  have hheader := headerOf_finish h40 hsize
  have hlen : (t.finish strings).length = _ := length_finish h40
  have hwrite := length_u32 t fdtEnd
  have hat : HeaderAt m va fun i => (t.finish strings).getD i 0 := by
    have hsmall : headerSize = 40 := rfl
    refine ⟨by omega, fun i hi => ?_⟩
    have hin : i < (t.finish strings).length := by omega
    rw [hload i hin, List.getD_eq_getElem _ _ hin]
  have hmagic : word (fun i => (t.finish strings).getD i 0) 0 = magic := by
    have hwords : word (fun i => (t.finish strings).getD i 0) 0 = ofBigEndian (toBigEndian magic) := rfl
    exact hwords.trans (ofBigEndian_toBigEndian magic (by decide))
  refine (probe_ok_iff hat).mpr ⟨⟨⟨hva, haligned, hmagic, ?_, ?_, ?_, ?_, ?_, ?_⟩, ?_⟩, hheader.symm⟩
  all_goals rw [hheader]; unfold Tree.header; simp only
  · rw [show headerSize = 40 from rfl]
    omega
  · omega
  · decide
  · omega
  · exact Nat.le_refl _
  · omega
  · decide

/-- What `finish` hands back, loaded somewhere. -/
theorem shipped_finish (h40 : 40 ≤ t.length) (hsize : (t.finish strings).length ≤ maxBlob)
    (hload : Loaded m va (t.finish strings)) :
    Shipped m ⟨pa, va, t.header strings⟩ (t.finish strings) strings where
  loaded := hload
  totalsize_eq := (length_finish h40).symm
  size_ge := by
    rw [length_finish h40, length_u32]
    omega
  size_le := hsize
  strings_eq := by
    refine ⟨((t.u32 fdtEnd).headerWords strings).flatMap toBigEndian ++ (t.u32 fdtEnd).drop 40, ?_, ?_⟩
    · rw [List.length_append, length_header, List.length_drop]
      have hwrite := length_u32 t fdtEnd
      show _ = (t.u32 fdtEnd).length
      omega
    · unfold Tree.finish
      rw [List.append_assoc]
  sizeDtStrings_eq := rfl

theorem within_finish (t : Tree) (strings : List UInt8) :
    Within (t.finish strings) (t.u32 fdtEnd) := by
  refine ⟨strings, ?_⟩
  unfold Tree.finish
  rw [List.drop_left' (length_header _ _)]

theorem height_place (forest : Forest Written) (t : Tree) :
    (place strings forest t).height = forest.height := by
  induction forest generalizing t with
  | nil => rfl
  | tree w children rest ihc ihr =>
    unfold place Forest.height
    rw [ihc, ihr]

/-- A tree that was built lies in the blob. -/
theorem treeLies_built {w : Written} {children : Forest Written} {n : Nat} (hname : w.name = [])
    (hheight : (Forest.tree w children .nil).height < maxDepth)
    (hok : ∀ w' ∈ (Forest.tree w children .nil).labels, w'.Ok strings)
    (hsize : (built (.tree w children .nil) n strings).length ≤ maxBlob)
    (hload : Loaded m va (built (.tree w children .nil) n strings)) :
    TreeLies m ⟨pa, va, ((writeAll (.tree w children .nil) Tree.new).nops n).header strings⟩
      (place strings (.tree w children .nil) Tree.new) := by
  generalize hroot : Forest.tree w children .nil = root at *
  have h40 : 40 ≤ Tree.new.length := Nat.le_refl _
  have hle := (prefix_writeAll root Tree.new).length_le
  have hle' := (prefix_nops (writeAll root Tree.new) n).length_le
  have hwrite := length_u32 ((writeAll root Tree.new).nops n) fdtEnd
  have hs : Shipped m ⟨pa, va, ((writeAll root Tree.new).nops n).header strings⟩ _ strings :=
    shipped_finish (by omega) hsize hload
  have hend := within_finish ((writeAll root Tree.new).nops n) strings
  have hnops := hend.of_prefix (prefix_u32 _ _)
  have hstop : Blob.structEnd ⟨pa, va, ((writeAll root Tree.new).nops n).header strings⟩ =
      ((writeAll root Tree.new).nops n).length + 4 := by
    show 40 + ((Tree.u32 _ fdtEnd).length - 40) = _
    omega
  refine ⟨?_, (height_place root Tree.new).symm ▸ hheight, _, _,
    (hnops.of_prefix (prefix_nops _ _)).writeAll h40 hs hok (by omega), hnops.nops (by omega) hs,
    hend.word (by omega) (by decide) hs, Nat.le_of_eq hstop.symm⟩
  subst hroot
  exact ⟨_, _, _, by rw [place, hname]; rfl⟩

/-- A tree that was built and loaded is read back: `probe` accepts it, the walk reports it in
pre-order, `properties` goes through the properties of each node, and `find_node` returns the
first node at a path. -/
theorem built_tree_is_read_back {w : Written} {children : Forest Written} {n : Nat}
    (hname : w.name = []) (hheight : (Forest.tree w children .nil).height < maxDepth)
    (hok : ∀ w' ∈ (Forest.tree w children .nil).labels, w'.Ok strings)
    (hsize : (built (.tree w children .nil) n strings).length ≤ maxBlob)
    (hload : Loaded m va (built (.tree w children .nil) n strings)) (hva : va ≠ 0)
    (haligned : va % 8 = 0)
    (hlt : va + (built (.tree w children .nil) n strings).length < u64Size) :
    ∃ header root, probe m va = .ok (.ok header) ∧
      root = place strings (.tree w children .nil) Tree.new ∧
      (Blob.walk ⟨pa, va, header⟩).Reports m ⟨pa, va, header⟩ (treeSteps outside root) ∧
      (∀ v ∈ root.visits Above.down outside, ∃ start,
        Blob.properties m ⟨pa, va, header⟩ (nodeOf v) = .ok start ∧
          Properties.Lists m ⟨pa, va, header⟩ start v.label.properties) ∧
      ∀ path, Blob.findNode m ⟨pa, va, header⟩ path =
        .ok ((nodeAt (components path) root).map nodeOf) := by
  have hle := (prefix_writeAll (.tree w children .nil) Tree.new).length_le
  have hle' := (prefix_nops (writeAll (.tree w children .nil) Tree.new) n).length_le
  have h40 : 40 ≤ Tree.new.length := Nat.le_refl _
  have hprobe := probe_finish (by omega) hsize hload hva haligned hlt
  have htree : TreeLies m ⟨pa, va, _⟩ _ := treeLies_built hname hheight hok hsize hload
  have hsound : Sound m ⟨pa, va, ((writeAll (.tree w children .nil) Tree.new).nops n).header strings⟩ := by
    have hlen : (built (.tree w children .nil) n strings).length = _ := length_finish (by omega)
    have hp := probed hprobe
    refine ⟨fun a h1 h2 => ?_, Nat.pos_of_ne_zero hva, ?_, hp.size_le, hp.struct_le, hp.strings_le,
      hp.rsvmap_lt⟩
    · obtain ⟨i, rfl⟩ := Nat.exists_eq_add_of_le h1
      have hi : i < (built (.tree w children .nil) n strings).length :=
        hlen ▸ Nat.lt_of_add_lt_add_left h2
      rw [hload i hi]
      rfl
    · show va + (_ + _) < u64Size
      rw [← hlen]
      exact hlt
  exact ⟨_, _, hprobe, rfl, htree.reports hsound,
    fun v hv => (htree.label hv).properties_eq hsound, htree.findNode hsound⟩

end RoundTrip

instance (strings : List UInt8) (w : Written) : Decidable (w.Ok strings) :=
  decidable_of_iff (0 ∉ w.name ∧ Utf8 w.name ∧
      ∀ e ∈ w.entries, 0 ∈ strings.drop e.nameOffset ∧ Utf8 (stringIn strings e.nameOffset))
    ⟨fun ⟨h1, h2, h3⟩ => ⟨h1, h2, h3⟩, fun h => ⟨h.nul, h.utf8, h.entries⟩⟩

/-- `TEST_STRINGS`, the last two of them. -/
def cellStrings : List UInt8 := bytesOf "#address-cells\x00#size-cells\x00"

/-- A root that declares one cell for each, with a deleted token, and a child. -/
def cellsRoot : Written where
  nops := 0
  name := []
  entries := [⟨1, 0, [0, 0, 0, 1]⟩, ⟨0, 15, [0, 0, 0, 1]⟩]
  closing := 2

def memoryChild : Written where
  nops := 1
  name := bytesOf "memory@1000"
  entries := []
  closing := 0

theorem cellsRoot_is_read_back :
    ∃ header root,
      probe (only 4096 (built (.tree cellsRoot (.tree memoryChild .nil .nil) .nil) 1 cellStrings)) 4096 =
          .ok (.ok header) ∧
      root = place cellStrings (.tree cellsRoot (.tree memoryChild .nil .nil) .nil) Tree.new ∧
      Blob.findNode
          (only 4096 (built (.tree cellsRoot (.tree memoryChild .nil .nil) .nil) 1 cellStrings))
          ⟨0, 4096, header⟩ (bytesOf "/memory") =
        .ok ((nodeAt [bytesOf "memory"] root).map nodeOf) ∧
      (nodeAt [bytesOf "memory"] root).map nodeOf = some ⟨88, 2, 1, 1⟩ := by
  obtain ⟨header, root, hprobe, hroot, -, -, hfind⟩ := @built_tree_is_read_back _ 0 4096 cellStrings
    cellsRoot (.tree memoryChild .nil .nil) 1 rfl (by decide) (by decide +kernel) (by decide +kernel)
    (loaded_only 4096 _) (by decide) (by decide) (by decide +kernel)
  have hpath : components (bytesOf "/memory") = [bytesOf "memory"] := by decide +kernel
  have hfound := hfind (bytesOf "/memory")
  rw [hpath] at hfound
  refine ⟨header, root, hprobe, hroot, hfound, ?_⟩
  rw [hroot]
  decide +kernel

end TheRack.Fdt
