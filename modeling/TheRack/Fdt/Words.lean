/-
  Fdt/Words.lean --- where the parser reads whole words.

  `be32` reads a `u32` through a pointer, which has to be a multiple of four.  For
  each function here there is the list of offsets at which it calls `be32`, one call
  after the other, along the same branches as the function itself.  Tokens keep
  alignment: names and values are padded.  So a misaligned read needs a block that
  starts misaligned.
-/
import TheRack.Fdt.Steps

set_option autoImplicit false

namespace TheRack.Fdt

open Lib

/-! ## The calls of `be32` -/

section Calls

variable {α σ : Type}

/-- The calls after a search that found something. -/
def afterFound (x : Try α) (f : α → List Nat) : List Nat :=
  match x.run with
  | .ok (some a) => f a
  | _ => []

/-- The calls after a computation that did not crash. -/
def afterOk (x : Except Crash α) (f : α → List Nat) : List Nat :=
  match x with
  | .ok a => f a
  | .error _ => []

variable (m : View) (b : Blob)

/-- Of `u32_at`: one, if the word is inside the blob. -/
def Blob.u32AtWords (offset : Nat) : List Nat :=
  match checkedAdd32 offset 4 with
  | some stop => if b.header.totalsize < stop then [] else [offset]
  | none => []

/-- Of `u64_at`. -/
def Blob.u64AtWords (offset : Nat) : List Nat :=
  b.u32AtWords offset ++ afterFound (b.u32At m offset) fun _ =>
    afterOk (add32 offset 4) fun next => b.u32AtWords next

/-- Of the two readers of properties, past the token: the length, and where the name is. -/
def Blob.fieldWords (offset : Nat) : List Nat :=
  afterOk (add32 offset 4) fun next => b.u32AtWords next ++ afterFound (b.u32At m next) fun _ =>
    afterOk (add32 offset 8) fun next => b.u32AtWords next

/-- Of a token and what belongs to it. -/
def Blob.tokenWords (offset : Nat) : List Nat :=
  b.u32AtWords offset ++ afterFound (b.u32At m offset) fun token =>
    if token = fdtProp then b.fieldWords m offset else []

namespace Walker

/-- Of one turn of `next`. -/
def turnWords (w : Walker) : List Nat :=
  if w.stop ≤ w.offset then [] else b.tokenWords m w.offset

/-- Of the loop of `next`. -/
def nextUpToWords : Nat → Walker → List Nat
  | 0, _ => []
  | n + 1, w => w.turnWords m b ++ afterFound (w.turn m b) fun r =>
      match r with
      | (some _, _) => []
      | (none, w') => nextUpToWords n w'

/-- Of `next`. -/
def nextWords (w : Walker) : List Nat := nextUpToWords m b (w.stop - w.offset + 1) w

/-- Of a loop over the steps whose body makes the calls `bodyWords`. -/
def scanWords (body : σ → Step → Except Crash (σ ⊕ α)) (bodyWords : Step → List Nat) :
    Nat → Walker → σ → List Nat
  | 0, _, _ => []
  | n + 1, w, s => w.nextWords m b ++ afterOk (w.next m b) fun r =>
      match r with
      | (none, _) => []
      | (some step, w') => bodyWords step ++ afterOk (body s step) fun r =>
          match r with
          | .inl s' => scanWords body bodyWords n w' s'
          | .inr _ => []

end Walker

namespace Properties

/-- Of the loop of `Properties::next`. -/
def nextUpToWords : Nat → Nat → List Nat
  | 0, _ => []
  | n + 1, offset => b.tokenWords m offset ++ afterFound (turn m b offset) fun r =>
      match r with
      | (some _, _) => []
      | (none, offset') => nextUpToWords n offset'

/-- Of `Properties::next`. -/
def nextWords (offset : Nat) : List Nat :=
  nextUpToWords m b (b.header.totalsize - offset + 1) offset

/-- Of a loop over the properties that ends at one of which `found` holds. -/
def findWords (found : List UInt8 → Bool) : Nat → Nat → List Nat
  | 0, _ => []
  | n + 1, offset => nextWords m b offset ++ afterOk (next m b offset) fun r =>
      match r with
      | (none, _) => []
      | (some (name, _), offset') => if found name then [] else findWords found n offset'

end Properties

namespace Blob

/-- Of a loop over the steps of a walk. -/
def scanWords (body : σ → Step → Except Crash (σ ⊕ α)) (bodyWords : Step → List Nat) (s : σ) :
    List Nat :=
  b.walk.scanWords m b body bodyWords (b.header.totalsize + 1) s

/-- Of `walk`, gone through to its end. -/
def walkWords : List Nat :=
  b.scanWords m (fun _ _ => .ok (.inl ()) : Unit → Step → Except Crash (Unit ⊕ Unit))
    (fun _ => []) ()

/-- Of `properties`, gone through up to one of which `found` holds. -/
def propertiesWords (node : Node) (found : List UInt8 → Bool) : List Nat :=
  afterOk (b.properties m node) fun offset =>
    Properties.findWords m b found (b.header.totalsize + 1) offset

/-- Of `property`. -/
def propertyWords (node : Node) (name : List UInt8) : List Nat :=
  b.propertiesWords m node (· = name)

/-- Of `reg`. -/
def regWords (node : Node) : List Nat :=
  if 2 < node.addressCells ∨ 2 < node.sizeCells ∨ node.addressCells = 0 then []
  else b.propertyWords m node (bytesOf "reg")

/-- Of `find_node`. -/
def findNodeWords (path : List UInt8) : List Nat :=
  b.scanWords m (findTurn path) (fun _ => []) fun d => d.val = 0

/-- Of one turn of `find_compatible_after`. -/
def compatibleWords (offset : Nat) : Step → List Nat
  | .property _ _ => []
  | .node node _ =>
      if node.offset ≤ offset then [] else b.propertyWords m node (bytesOf "compatible")

/-- Of `find_compatible_after`. -/
def findCompatibleAfterWords (wanted : List UInt8) (offset : Nat) : List Nat :=
  b.scanWords m (b.compatibleTurn m wanted offset) (b.compatibleWords m offset) ()

/-- Of the loop over the header's reservation block. -/
def reserveBlockWords : Nat → Nat → List Nat
  | 0, _ => []
  | n + 1, offset => b.u64AtWords m offset ++ afterOk (b.u64At m offset).run fun base =>
      afterOk (add32 offset 8) fun next => b.u64AtWords m next ++
        afterOk (b.u64At m next).run fun size =>
          match base, size with
          | some base, some size =>
              if base = 0 ∧ size = 0 then []
              else afterOk (add32 offset 16) fun offset' => reserveBlockWords n offset'
          | _, _ => []

/-- Of one turn of the loop over the children of `/reserved-memory`. -/
def childWords (parent : Node) : Step → List Nat
  | .property _ _ => []
  | .node node _ =>
      if node.offset ≤ parent.offset then []
      else if node.depth ≤ parent.depth then []
      else if node.depth = parent.depth + 1 then b.regWords m node
      else []

/-- Of the loop over the children of `/reserved-memory`. -/
def reserveChildrenWords (map : MemoryMap) : List Nat :=
  b.findNodeWords m (bytesOf "/reserved-memory") ++
    afterOk (b.findNode m (bytesOf "/reserved-memory")) fun o =>
      match o with
      | some parent => b.scanWords m (b.childTurn m parent) (b.childWords m parent) map
      | none => []

/-- Of the part about `/memory`. -/
def takeMemoryWords : List Nat :=
  b.findNodeWords m (bytesOf "/memory") ++ afterOk (b.findNode m (bytesOf "/memory")) fun o =>
    match o with
    | some memory => b.regWords m memory ++ afterFound (b.reg m memory 0) fun entry =>
        if entry.2 ≠ 0 then b.propertyWords m memory (bytesOf "reg") else []
    | none => []

/-- Of `memory_map`. -/
def memoryMapWords : List Nat :=
  let map := MemoryMap.empty.reserve b.pa b.header.totalsize
  b.reserveBlockWords m (b.header.totalsize + 1) b.header.offMemRsvmap ++
    afterOk (b.reserveBlock m (b.header.totalsize + 1) b.header.offMemRsvmap map) fun map =>
      b.reserveChildrenWords m map ++ afterOk (b.reserveChildren m map) fun _ => b.takeMemoryWords m

/-- `be32` is called at the offset, by one of the functions that read a blob. -/
inductive ReadsWord : Nat → Prop
  | walk {offset : Nat} (h : offset ∈ b.walkWords m) : ReadsWord offset
  | properties {offset : Nat} (node : Node) (found : List UInt8 → Bool)
      (h : offset ∈ b.propertiesWords m node found) : ReadsWord offset
  | findNode {offset : Nat} (path : List UInt8) (h : offset ∈ b.findNodeWords m path) :
      ReadsWord offset
  | findCompatibleAfter {offset : Nat} (wanted : List UInt8) (start : Nat)
      (h : offset ∈ b.findCompatibleAfterWords m wanted start) : ReadsWord offset
  | memoryMap {offset : Nat} (h : offset ∈ b.memoryMapWords m) : ReadsWord offset

end Blob

end Calls

/-! ## Alignment is kept -/

/-- The offsets are multiples of four. -/
def AllAligned (words : List Nat) : Prop := ∀ offset ∈ words, offset % 4 = 0

namespace AllAligned

variable {α : Type} {l l' : List Nat}

theorem nil : AllAligned [] := fun _ h => absurd h List.not_mem_nil

theorem append (h : AllAligned l) (h' : AllAligned l') : AllAligned (l ++ l') := by
  intro offset hmem
  rcases List.mem_append.mp hmem with hmem | hmem
  · exact h offset hmem
  · exact h' offset hmem

theorem found {x : Try α} {f : α → List Nat} (h : ∀ a, Gives x a → AllAligned (f a)) :
    AllAligned (afterFound x f) := by
  unfold afterFound
  split
  · exact h _ ‹_›
  · exact nil

theorem ok {x : Except Crash α} {f : α → List Nat} (h : ∀ a, x = .ok a → AllAligned (f a)) :
    AllAligned (afterOk x f) := by
  unfold afterOk
  split
  · exact h _ rfl
  · exact nil

end AllAligned

theorem align4_mod (offset : Nat) : align4 offset % 4 = 0 := by
  have hmod := @Nat.and_mod_two_pow (saturatingAdd32 offset 3) (not32 3) 2
  have hmask : not32 3 % 2 ^ 2 = 0 := by decide
  rw [hmask, Nat.and_zero] at hmod
  exact hmod

section Kept

variable {m : View} {b : Blob} {w : Walker} {offset : Nat}

/-- A word is read at a multiple of four, or it is not read at all. -/
def Blob.Fair (b : Blob) (offset : Nat) : Prop :=
  offset % 4 = 0 ∨ b.header.totalsize < offset + 4

theorem u32AtWords_aligned (h : b.Fair offset) : AllAligned (b.u32AtWords offset) := by
  intro offset' hmem
  unfold Blob.u32AtWords at hmem
  split at hmem
  · rename_i stop hstop
    obtain ⟨rfl, -⟩ := checkedAdd32_eq hstop
    split at hmem
    · exact absurd hmem List.not_mem_nil
    · obtain rfl := List.mem_singleton.mp hmem
      unfold Blob.Fair at h
      omega
  · exact absurd hmem List.not_mem_nil

/-- A word that is there was read at a multiple of four. -/
theorem Blob.Fair.of_u32At (hfair : b.Fair offset) (h : Sound m b) {value : Nat}
    (hvalue : Gives (b.u32At m offset) value) : offset % 4 = 0 := by
  have hle := ((h.u32At offset).of_gives hvalue).1
  unfold Blob.Fair at hfair
  omega

theorem u64AtWords_aligned (h : Sound m b) (hfair : b.Fair offset) :
    AllAligned (b.u64AtWords m offset) := by
  refine (u32AtWords_aligned hfair).append (.found fun high hhigh => .ok fun next hnext => ?_)
  have haligned := hfair.of_u32At h hhigh
  obtain rfl := add32_eq_ok hnext
  exact u32AtWords_aligned (.inl (by omega))

theorem tokenWords_aligned (h : Sound m b) (hfair : b.Fair offset) :
    AllAligned (b.tokenWords m offset) := by
  refine (u32AtWords_aligned hfair).append (.found fun token htoken => ?_)
  have haligned := hfair.of_u32At h htoken
  split
  · refine .ok fun next hnext => ?_
    obtain rfl := add32_eq_ok hnext
    refine (u32AtWords_aligned (.inl (by omega))).append (.found fun _ _ => .ok fun last hlast => ?_)
    obtain rfl := add32_eq_ok hlast
    exact u32AtWords_aligned (.inl (by omega))
  · exact .nil

/-- A cursor that stands at a multiple of four, or reads nothing. -/
structure Walker.Calm (b : Blob) (w : Walker) : Prop where
  sane : w.Sane b
  fair : w.stop ≤ w.offset ∨ b.Fair w.offset

theorem Walker.Calm.turnWords (hw : w.Calm b) (h : Sound m b) :
    AllAligned (w.turnWords m b) := by
  unfold Walker.turnWords
  split
  · exact .nil
  · exact tokenWords_aligned h (hw.fair.resolve_left ‹_›)

/-- A token leaves the cursor at a multiple of four. -/
theorem Walker.Calm.turn (hw : w.Calm b) (h : Sound m b) {r : Option Step × Walker}
    (hr : Gives (w.turn m b) r) : r.2.Calm b := by
  have hsane := ((h.turn hw.sane).of_gives hr).1
  have hin := lt_of_turn hr
  have hfair := hw.fair.resolve_left (Nat.not_le.mpr hin)
  refine ⟨hsane, .inr (.inl ?_)⟩
  cases h.token_of_turn hr with
  | nop htoken | close htoken _ =>
    have haligned := hfair.of_u32At h htoken
    simp only
    omega
  | opening parent d hparent hd htoken hname => exact align4_mod _
  | @property name value w'' hprop hnote =>
    have hsane' : ({ w with offset := afterProperty w.offset value } : Walker).Sane b :=
      ⟨hw.sane.stop_le, hw.sane.depth_lt⟩
    obtain ⟨w', hnote', -, hoffset, -⟩ := hsane'.note name value
    obtain rfl := Except.ok.inj (hnote'.symm.trans hnote)
    simp only [hoffset]
    exact align4_mod _

theorem Walker.Calm.nextUpToWords (h : Sound m b) (n : Nat) :
    ∀ w : Walker, w.Calm b → AllAligned (w.nextUpToWords m b n) := by
  induction n with
  | zero => exact fun _ _ => .nil
  | succ n ih =>
    intro w hw
    unfold Walker.nextUpToWords
    refine (hw.turnWords h).append (.found fun r hr => ?_)
    match r with
    | (some step, w') => exact .nil
    | (none, w') => exact ih w' (hw.turn h hr)

theorem Walker.Calm.nextUpTo (h : Sound m b) (n : Nat) : ∀ (w : Walker) (r : Option Step × Walker),
    w.Calm b → w.nextUpTo m b n = .ok r → r.2.Calm b := by
  induction n with
  | zero =>
    intro w r hw hr
    cases hr
  | succ n ih =>
    intro w r hw hr
    unfold Walker.nextUpTo at hr
    obtain ⟨o, ho, hr⟩ := of_bind_ok hr
    rcases o with _ | ⟨_ | step, w'⟩
    · obtain rfl := Except.ok.inj hr
      exact hw
    · exact ih w' r (hw.turn h ho) hr
    · obtain rfl := Except.ok.inj hr
      exact hw.turn h ho

theorem Walker.Calm.scanWords {σ α : Type} (h : Sound m b) {body : σ → Step → Except Crash (σ ⊕ α)}
    {bodyWords : Step → List Nat} (hbody : ∀ step, AllAligned (bodyWords step)) (n : Nat) :
    ∀ (w : Walker) (s : σ), w.Calm b → AllAligned (w.scanWords m b body bodyWords n s) := by
  induction n with
  | zero => exact fun _ _ _ => .nil
  | succ n ih =>
    intro w s hw
    unfold Walker.scanWords
    refine (Walker.Calm.nextUpToWords h _ w hw).append (.ok fun r hr => ?_)
    match r with
    | (none, w') => exact .nil
    | (some step, w') =>
      refine (hbody step).append (.ok fun next _ => ?_)
      match next with
      | .inl s' => exact ih w' s' (Walker.Calm.nextUpTo h _ w _ hw hr)
      | .inr a => exact .nil

/-! ## Properties -/

theorem Blob.Fair.propertyTurn (hfair : b.Fair offset) (h : Sound m b)
    {r : Option (List UInt8 × List UInt8) × Nat} (hr : Gives (Properties.turn m b offset) r) :
    b.Fair r.2 := by
  cases propertyToken_of_turn hr with
  | nop htoken =>
    have haligned := hfair.of_u32At h htoken
    exact .inl (by simp only; omega)
  | property _ => exact .inl (align4_mod _)

theorem Blob.Fair.propertyNextWords (h : Sound m b) (n : Nat) : ∀ offset, b.Fair offset →
    AllAligned (Properties.nextUpToWords m b n offset) := by
  induction n with
  | zero => exact fun _ _ => .nil
  | succ n ih =>
    intro offset hfair
    unfold Properties.nextUpToWords
    refine (tokenWords_aligned h hfair).append (.found fun r hr => ?_)
    match r with
    | (some property, offset') => exact .nil
    | (none, offset') => exact ih offset' (hfair.propertyTurn h hr)

theorem Blob.Fair.propertyNext (h : Sound m b) (n : Nat) :
    ∀ (offset : Nat) (r : Option (List UInt8 × List UInt8) × Nat), b.Fair offset →
      Properties.nextUpTo m b n offset = .ok r → b.Fair r.2 := by
  induction n with
  | zero =>
    intro offset r hfair hr
    cases hr
  | succ n ih =>
    intro offset r hfair hr
    unfold Properties.nextUpTo at hr
    obtain ⟨o, ho, hr⟩ := of_bind_ok hr
    rcases o with _ | ⟨_ | property, offset'⟩
    · obtain rfl := Except.ok.inj hr
      exact hfair
    · exact ih offset' r (hfair.propertyTurn h ho) hr
    · obtain rfl := Except.ok.inj hr
      exact hfair.propertyTurn h ho

theorem findWords_aligned (h : Sound m b) (found : List UInt8 → Bool) (n : Nat) : ∀ offset,
    b.Fair offset → AllAligned (Properties.findWords m b found n offset) := by
  induction n with
  | zero => exact fun _ _ => .nil
  | succ n ih =>
    intro offset hfair
    unfold Properties.findWords
    refine (Blob.Fair.propertyNextWords h _ offset hfair).append (.ok fun r hr => ?_)
    match r with
    | (none, offset') => exact .nil
    | (some (name, value), offset') =>
      show AllAligned (if found name then _ else _)
      split
      · exact .nil
      · exact ih offset' (Blob.Fair.propertyNext h _ offset _ hfair hr)

/-- Where `properties` starts has been aligned, or is no place to read from. -/
theorem propertiesWords_aligned (h : Sound m b) (node : Node) (found : List UInt8 → Bool) :
    AllAligned (b.propertiesWords m node found) := by
  refine .ok fun offset hoffset => findWords_aligned h found _ offset ?_
  have hsize := h.size_le
  rw [maxBlob_eq] at hsize
  obtain ⟨start, -, hoffset⟩ := of_bind_ok hoffset
  obtain ⟨o, -, hoffset⟩ := of_bind_ok hoffset
  match o with
  | some name =>
    obtain ⟨x, -, hoffset⟩ := of_bind_ok hoffset
    obtain ⟨y, -, hoffset⟩ := of_bind_ok hoffset
    obtain rfl := Except.ok.inj hoffset
    exact .inl (align4_mod _)
  | none =>
    obtain rfl := Except.ok.inj hoffset
    refine .inr ?_
    rw [u32Size_eq]
    omega

theorem regWords_aligned (h : Sound m b) (node : Node) : AllAligned (b.regWords m node) := by
  unfold Blob.regWords
  split
  · exact .nil
  · exact propertiesWords_aligned h node _

/-! ## The functions that read a blob -/

/-- The structure block starts at a multiple of four, or holds no token. -/
def Blob.StructAligned (b : Blob) : Prop :=
  b.header.offDtStruct % 4 = 0 ∨ b.header.sizeDtStruct = 0 ∨
    b.header.totalsize < b.header.offDtStruct + 4

/-- The reservation block starts at a multiple of four, or too close to the end to be read. -/
def Blob.RsvmapAligned (b : Blob) : Prop :=
  b.header.offMemRsvmap % 4 = 0 ∨ b.header.totalsize < b.header.offMemRsvmap + 4

theorem Blob.StructAligned.calm (hs : b.StructAligned) (h : Sound m b) : b.walk.Calm b := by
  have hstop := h.walk_stop
  refine ⟨h.walk, ?_⟩
  rcases hs with haligned | hempty | hshort
  · exact .inr (.inl haligned)
  · left
    rw [hstop, hempty]
    exact Nat.le_refl _
  · exact .inr (.inr hshort)

theorem Blob.StructAligned.scanWords {σ α : Type} (hs : b.StructAligned) (h : Sound m b)
    {body : σ → Step → Except Crash (σ ⊕ α)} {bodyWords : Step → List Nat}
    (hbody : ∀ step, AllAligned (bodyWords step)) (s : σ) :
    AllAligned (b.scanWords m body bodyWords s) :=
  Walker.Calm.scanWords h hbody _ b.walk s (hs.calm h)

theorem reserveBlockWords_aligned (h : Sound m b) (n : Nat) : ∀ offset, b.Fair offset →
    AllAligned (b.reserveBlockWords m n offset) := by
  induction n with
  | zero => exact fun _ _ => .nil
  | succ n ih =>
    intro offset hfair
    unfold Blob.reserveBlockWords
    refine (u64AtWords_aligned h hfair).append (.ok fun base hbase => .ok fun next hnext => ?_)
    obtain rfl := add32_eq_ok hnext
    have hnext : b.Fair (offset + 8) := by
      unfold Blob.Fair at hfair ⊢
      omega
    refine (u64AtWords_aligned h hnext).append (.ok fun size hsize => ?_)
    match base, size with
    | none, _ => exact .nil
    | some base, none => exact .nil
    | some base, some size =>
      simp only
      split
      · exact .nil
      · refine .ok fun offset' hoffset' => ih offset' ?_
        obtain rfl := add32_eq_ok hoffset'
        unfold Blob.Fair at hfair ⊢
        omega

theorem memoryMapWords_aligned (h : Sound m b) (hs : b.StructAligned) (hr : b.RsvmapAligned) :
    AllAligned (b.memoryMapWords m) := by
  refine (reserveBlockWords_aligned h _ _ hr).append (.ok fun map _ => ?_)
  refine .append (.append (hs.scanWords h (fun _ => .nil) _) (.ok fun o _ => ?_))
    (.ok fun _ _ => .append (hs.scanWords h (fun _ => .nil) _) (.ok fun o _ => ?_))
  · match o with
    | none => exact .nil
    | some parent =>
      refine hs.scanWords h (fun step => ?_) map
      match step with
      | .property _ _ => exact .nil
      | .node node name =>
        unfold Blob.childWords
        simp only
        split
        · exact .nil
        split
        · exact .nil
        split
        · exact regWords_aligned h node
        · exact .nil
  · match o with
    | none => exact .nil
    | some memory =>
      refine (regWords_aligned h memory).append (.found fun entry _ => ?_)
      split
      · exact propertiesWords_aligned h memory _
      · exact .nil

theorem Blob.ReadsWord.aligned (hread : b.ReadsWord m offset) (h : Sound m b)
    (hs : b.StructAligned) (hr : b.RsvmapAligned) : offset % 4 = 0 := by
  cases hread with
  | walk hmem => exact hs.scanWords h (fun _ => .nil) () offset hmem
  | properties node found hmem => exact propertiesWords_aligned h node found offset hmem
  | findNode path hmem => exact hs.scanWords h (fun _ => .nil) _ offset hmem
  | findCompatibleAfter wanted start hmem =>
    refine hs.scanWords h (fun step => ?_) () offset hmem
    match step with
    | .property _ _ => exact .nil
    | .node node name =>
      unfold Blob.compatibleWords
      simp only
      split
      · exact .nil
      · exact propertiesWords_aligned h node _
  | memoryMap hmem => exact memoryMapWords_aligned h hs hr offset hmem

/-! ## The first words -/

theorem mem_u32AtWords (hle : offset + 4 ≤ b.header.totalsize) (h : Sound m b) :
    offset ∈ b.u32AtWords offset := by
  have hsize := h.size_le
  rw [maxBlob_eq] at hsize
  have hadd : checkedAdd32 offset 4 = some (offset + 4) := if_pos (by rw [u32Size_eq]; omega)
  unfold Blob.u32AtWords
  rw [hadd]
  simp only
  rw [if_neg (Nat.not_lt.mpr hle)]
  exact List.mem_singleton_self _

/-- A walk starts by reading the first word of the structure block. -/
theorem reads_struct (h : Sound m b) (hsize : 0 < b.header.sizeDtStruct)
    (hle : b.header.offDtStruct + 4 ≤ b.header.totalsize) :
    b.ReadsWord m b.header.offDtStruct := by
  have hstop := h.walk_stop
  have hin : ¬ b.walk.stop ≤ b.walk.offset := by
    rw [hstop]
    show ¬ _ ≤ b.header.offDtStruct
    omega
  refine .walk ?_
  unfold Blob.walkWords Blob.scanWords Walker.scanWords Walker.nextWords Walker.nextUpToWords
    Walker.turnWords
  rw [if_neg hin]
  exact List.mem_append_left _ (List.mem_append_left _ (List.mem_append_left _
    (mem_u32AtWords hle h)))

/-- `memory_map` starts by reading the first word of the reservation block. -/
theorem reads_rsvmap (h : Sound m b) (hle : b.header.offMemRsvmap + 4 ≤ b.header.totalsize) :
    b.ReadsWord m b.header.offMemRsvmap := by
  refine .memoryMap ?_
  unfold Blob.memoryMapWords Blob.reserveBlockWords Blob.u64AtWords
  exact List.mem_append_left _ (List.mem_append_left _ (List.mem_append_left _
    (mem_u32AtWords hle h)))

/-- Every word of a blob that `probe` accepts is read at a multiple of four, if and only if
the two blocks of words start at one, or have no word that is read. -/
theorem words_are_aligned {va pa : Nat} {header : Header} (h : probe m va = .ok (.ok header))
    (hlt : va + header.totalsize < u64Size)
    (hblob : ∀ a, (m a).isSome = true ↔ va ≤ a ∧ a < va + header.totalsize) :
    (∀ offset, Blob.ReadsWord m ⟨pa, va, header⟩ offset → (va + offset) % 4 = 0) ↔
      Blob.StructAligned ⟨pa, va, header⟩ ∧ Blob.RsvmapAligned ⟨pa, va, header⟩ := by
  have hsound : Sound m ⟨pa, va, header⟩ := Sound.of_probe h hlt hblob
  have hva := (probed h).aligned
  constructor
  · intro hall
    refine ⟨?_, ?_⟩
    · unfold Blob.StructAligned
      by_contra hnot
      simp only at hnot
      have hread := hall _ (reads_struct hsound (by simp only; omega) (by simp only; omega))
      simp only at hread
      omega
    · unfold Blob.RsvmapAligned
      by_contra hnot
      simp only at hnot
      have hread := hall _ (reads_rsvmap hsound (by simp only; omega))
      simp only at hread
      omega
  · rintro ⟨hs, hr⟩ offset hread
    have haligned := hread.aligned hsound hs hr
    omega

end Kept

/-- No word of the reservations of `brokenTree` is read, and the others are where they
should be. -/
theorem brokenTree_words_are_aligned :
    ∃ header, probe (only 4096 brokenTree) 4096 = .ok (.ok header) ∧
      header.offMemRsvmap % 4 ≠ 0 ∧
      Blob.ReadsWord (only 4096 brokenTree) ⟨0, 4096, header⟩ 56 ∧
      ∀ offset, Blob.ReadsWord (only 4096 brokenTree) ⟨0, 4096, header⟩ offset →
        (4096 + offset) % 4 = 0 := by
  have hprobe : probe (only 4096 brokenTree) 4096 =
      .ok (.ok ⟨76, 56, 76, 75, 17, 16, 0, 0, 20⟩) := by decide +kernel
  have hsound : Sound (only 4096 brokenTree) ⟨0, 4096, ⟨76, 56, 76, 75, 17, 16, 0, 0, 20⟩⟩ :=
    Sound.of_probe hprobe (by decide) (isSome_only 4096 brokenTree)
  exact ⟨_, hprobe, by decide, reads_struct hsound (by decide) (by decide),
    (words_are_aligned hprobe (by decide) (isSome_only 4096 brokenTree)).mpr
      ⟨.inl rfl, .inr (by decide)⟩⟩

/-- The smallest tree, moved up by a byte inside its blob. -/
def crookedTree : List UInt8 :=
  [0xd0, 0x0d, 0xfe, 0xed, 0, 0, 0, 73, 0, 0, 0, 57, 0, 0, 0, 73, 0, 0, 0, 40,
   0, 0, 0, 17, 0, 0, 0, 16, 0, 0, 0, 0, 0, 0, 0, 0, 0, 0, 0, 16,
   0, 0, 0, 0, 0, 0, 0, 0, 0, 0, 0, 0, 0, 0, 0, 0, 0,
   0, 0, 0, 1, 0, 0, 0, 0, 0, 0, 0, 2, 0, 0, 0, 9]

/-- `probe` accepts a structure block at an odd offset, and the walk reads a word there. -/
theorem crookedTree_is_read_misaligned :
    ∃ header, probe (only 4096 crookedTree) 4096 = .ok (.ok header) ∧
      Blob.ReadsWord (only 4096 crookedTree) ⟨0, 4096, header⟩ 57 ∧
      ¬ ∀ offset, Blob.ReadsWord (only 4096 crookedTree) ⟨0, 4096, header⟩ offset →
        (4096 + offset) % 4 = 0 := by
  have hprobe : probe (only 4096 crookedTree) 4096 =
      .ok (.ok ⟨73, 57, 73, 40, 17, 16, 0, 0, 16⟩) := by decide +kernel
  have hsound : Sound (only 4096 crookedTree) ⟨0, 4096, ⟨73, 57, 73, 40, 17, 16, 0, 0, 16⟩⟩ :=
    Sound.of_probe hprobe (by decide) (isSome_only 4096 crookedTree)
  have hread := reads_struct hsound (by decide) (by decide)
  exact ⟨_, hprobe, hread, fun hall => absurd (hall _ hread) (by decide)⟩

end TheRack.Fdt
