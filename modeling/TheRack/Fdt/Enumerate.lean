/-
  Fdt/Enumerate.lean --- enumerating the devices of a kind.

  A driver asks for the first compatible node, then for the first one after that,
  and so on, and every question walks the tree again.  Nodes lie at offsets that go
  up, and none lies at offset zero, so the answers are the compatible nodes of one
  walk: in order, none left out and none twice.
-/
import TheRack.Fdt.Steps

set_option autoImplicit false

namespace TheRack.Fdt

open Lib

/-! ## Entries of a string list -/

/-- `entry` stands in `list` between NULs, or between a NUL and an end. -/
def IsEntry (list entry : List UInt8) : Prop :=
  ∃ before after, list = before ++ entry ++ after ∧
    (before = [] ∨ before.getLast? = some 0) ∧ (after = [] ∨ after.head? = some 0)

theorem isEntry_of_mem {entry : List UInt8} (n : Nat) : ∀ list : List UInt8, list.length ≤ n →
    entry ∈ list.splitOn 0 → IsEntry list entry := by
  induction n with
  | zero =>
    intro list hlen hmem
    obtain rfl := List.eq_nil_of_length_eq_zero (Nat.le_zero.mp hlen)
    obtain rfl : entry = [] := by simpa using hmem
    exact ⟨[], [], rfl, .inl rfl, .inl rfl⟩
  | succ n ih =>
    intro list hlen hmem
    by_cases hnul : (0 : UInt8) ∈ list
    · obtain ⟨first, rest, rfl, hfirst⟩ := List.eq_append_cons_of_mem hnul
      rw [List.splitOn_append_cons_self, List.splitOn_eq_singleton hfirst, List.singleton_append,
        List.mem_cons] at hmem
      rcases hmem with rfl | hmem
      · exact ⟨[], 0 :: rest, rfl, .inl rfl, .inr rfl⟩
      · rw [List.length_append, List.length_cons] at hlen
        obtain ⟨before, after, rfl, hbefore, hafter⟩ := ih rest (by omega) hmem
        refine ⟨first ++ 0 :: before, after, by simp, .inr ?_, hafter⟩
        rcases hbefore with rfl | hlast
        · simp
        · simp [List.getLast?_cons, hlast]
    · rw [List.splitOn_eq_singleton hnul, List.mem_singleton] at hmem
      subst hmem
      exact ⟨[], [], by simp, .inl rfl, .inl rfl⟩

theorem mem_of_isEntry {list entry : List UInt8} (hnul : 0 ∉ entry) (h : IsEntry list entry) :
    entry ∈ list.splitOn 0 := by
  obtain ⟨before, after, rfl, hbefore, hafter⟩ := h
  -- what follows the entry does not belong to it
  have hstart : entry ∈ (entry ++ after).splitOn 0 := by
    rcases hafter with rfl | hafter
    · rw [List.append_nil, List.splitOn_eq_singleton hnul]
      exact List.mem_singleton_self _
    · obtain ⟨rest, rfl⟩ := List.head?_eq_some_iff.mp hafter
      rw [List.splitOn_append_cons_self, List.splitOn_eq_singleton hnul]
      exact List.mem_cons_self
  rcases hbefore with rfl | hbefore
  · exact hstart
  · obtain ⟨before, rfl⟩ := List.getLast?_eq_some_iff.mp hbefore
    rw [List.append_assoc, List.append_assoc, List.singleton_append, List.splitOn_append_cons_self]
    exact List.mem_append_right _ hstart

/-- `string_list_contains` treats first, middle, last and unterminated entries alike. -/
theorem stringListContains_iff {list wanted : List UInt8} (hnul : 0 ∉ wanted) :
    stringListContains list wanted = true ↔ IsEntry list wanted := by
  unfold stringListContains
  rw [List.any_eq_true]
  constructor
  · rintro ⟨entry, hmem, heq⟩
    obtain rfl := of_decide_eq_true heq
    exact isEntry_of_mem _ _ (Nat.le_refl _) hmem
  · intro h
    exact ⟨wanted, mem_of_isEntry hnul h, decide_eq_true rfl⟩

/-! ## Where nodes lie -/

section Nodes

variable {m : View} {b : Blob} {w : Walker} {steps : List Step}

/-- The nodes of a walk lie at offsets that go up, from the cursor on, and can all be read. -/
theorem Sound.nodes_sorted (h : Sound m b) (hw : w.Sane b) (hsteps : w.Tokens m b steps) :
    ((nodesOf steps).Pairwise fun x y => x.offset < y.offset) ∧
      ∀ node ∈ nodesOf steps, w.offset ≤ node.offset ∧ node.Sane b := by
  induction hsteps with
  | stop _ => exact ⟨.nil, fun _ hnode => absurd hnode List.not_mem_nil⟩
  | skip hturn _ ih =>
    obtain ⟨hsane, hlt, -⟩ := (h.turn hw).of_gives hturn
    obtain ⟨hsorted, hall⟩ := ih hsane
    refine ⟨hsorted, fun node hnode => ?_⟩
    obtain ⟨hle, hnode⟩ := hall node hnode
    exact ⟨Nat.le_trans (Nat.le_of_lt hlt) hle, hnode⟩
  | @give w w' step steps hturn _ ih =>
    obtain ⟨hsane, hlt, -, hopened⟩ := (h.turn hw).of_gives hturn
    have hlt : w.offset < w'.offset := hlt
    obtain ⟨hsorted, hall⟩ := ih hsane
    have hlater : ∀ node ∈ nodesOf steps, w.offset ≤ node.offset ∧ node.Sane b := by
      intro node hnode
      obtain ⟨hle, hnode⟩ := hall node hnode
      exact ⟨by omega, hnode⟩
    cases h.token_of_turn hturn with
    | property _ _ => exact ⟨hsorted, hlater⟩
    | opening parent d hparent hd htoken hname =>
      refine ⟨List.pairwise_cons.mpr ⟨fun node hnode => ?_, hsorted⟩, fun node hnode => ?_⟩
      · have hle := (hall node hnode).1
        show w.offset < node.offset
        omega
      · rcases List.mem_cons.mp hnode with rfl | hnode
        · exact ⟨Nat.le_refl _, hopened _ _ rfl⟩
        · exact hlater node hnode

/-- The blob starts with its magic, which is no token. -/
theorem no_token_at_zero {va pa : Nat} {header : Header} (h : probe m va = .ok (.ok header))
    {token : Nat} (htoken : Gives (Blob.u32At m ⟨pa, va, header⟩ 0) token) : token = magic := by
  unfold Blob.u32At at htoken
  obtain ⟨stop, -, htoken⟩ := htoken.of_option
  obtain ⟨-, htoken⟩ := htoken.of_checked
  rw [(probed h).magic_eq] at htoken
  exact (Gives.of_pure htoken).symm

/-- No node lies at offset zero. -/
theorem Sound.nodes_pos {va pa : Nat} {header : Header} (h : probe m va = .ok (.ok header))
    (hsound : Sound m ⟨pa, va, header⟩)
    (hsteps : (Blob.walk ⟨pa, va, header⟩).Reports m ⟨pa, va, header⟩ steps) :
    ∀ node ∈ nodesOf steps, 0 < node.offset := by
  have htokens := hsound.tokens hsound.walk hsteps
  intro node hnode
  obtain ⟨hle, -⟩ := (hsound.nodes_sorted hsound.walk htokens).2 node hnode
  rcases Nat.eq_zero_or_pos (Blob.walk ⟨pa, va, header⟩).offset with hzero | hpos
  · -- a walk from the magic ends there
    have hnone : ∀ r, ¬ Gives ((Blob.walk ⟨pa, va, header⟩).turn m ⟨pa, va, header⟩) r := by
      intro r hr
      cases hsound.token_of_turn hr with
      | nop htoken | close htoken _ | opening _ _ _ _ htoken _ =>
        rw [hzero] at htoken
        exact absurd (no_token_at_zero h htoken) (by decide)
      | property hprop _ =>
        have htoken := hprop.token
        rw [hzero] at htoken
        exact absurd (no_token_at_zero h htoken) (by decide)
    cases htokens with
    | stop _ => exact absurd hnode List.not_mem_nil
    | skip hr _ => exact absurd hr (hnone _)
    | give hr _ => exact absurd hr (hnone _)
  · omega

end Nodes

/-! ## Compatible nodes -/

section Compatible

variable {m : View} {b : Blob} {steps : List Step} {wanted : List UInt8}

/-- The `compatible` value of the node has the string among its entries. -/
def Compatible (m : View) (b : Blob) (wanted : List UInt8) (node : Node) : Prop :=
  ∃ list, b.property m node (bytesOf "compatible") = .ok (some list) ∧ IsEntry list wanted

/-- What `find_compatible_after` asks of a node. -/
def isCompatible (m : View) (b : Blob) (wanted : List UInt8) (node : Node) : Bool :=
  match b.property m node (bytesOf "compatible") with
  | .ok (some list) => stringListContains list wanted
  | _ => false

theorem isCompatible_iff (hnul : 0 ∉ wanted) {node : Node} :
    isCompatible m b wanted node = true ↔ Compatible m b wanted node := by
  unfold isCompatible Compatible
  match hvalue : b.property m node (bytesOf "compatible") with
  | .ok (some list) =>
    simp only [stringListContains_iff hnul]
    exact ⟨fun h => ⟨list, rfl, h⟩, fun ⟨list', heq, h⟩ => by cases heq; exact h⟩
  | .ok none => exact ⟨nofun, fun ⟨_, heq, _⟩ => (nomatch heq)⟩
  | .error c => exact ⟨nofun, fun ⟨_, heq, _⟩ => (nomatch heq)⟩

/-- `find_compatible_after` finds the first compatible node of the walk past the offset. -/
theorem Sound.findCompatibleAfter_eq (h : Sound m b) (hsteps : b.walk.Reports m b steps)
    (offset : Nat) : b.findCompatibleAfter m wanted offset =
      .ok ((nodesOf steps).find? fun node =>
        decide (offset < node.offset) && isCompatible m b wanted node) := by
  have hsane : ∀ node ∈ nodesOf steps, node.Sane b := fun node hnode =>
    ((h.nodes_sorted h.walk (h.tokens h.walk hsteps)).2 node hnode).2
  rw [findCompatibleAfter_eq_scan, h.scan_steps hsteps]
  clear hsteps
  induction steps with
  | nil => rfl
  | cons step steps ih =>
    match step with
    | .property name value => exact ih hsane
    | .node node name =>
      have hlater := ih fun node' hnode' => hsane node' (List.mem_cons_of_mem _ hnode')
      obtain ⟨value, hvalue, -⟩ := h.property (hsane node List.mem_cons_self) (bytesOf "compatible")
      rw [nodesOf_node, List.find?_cons]
      by_cases hlt : offset < node.offset
      · have hturn : b.compatibleTurn m wanted offset () (.node node name) =
            .ok (if isCompatible m b wanted node then .inr node else .inl ()) := by
          unfold Blob.compatibleTurn isCompatible
          simp only
          rw [if_neg (Nat.not_le.mpr hlt), hvalue]
          cases value <;> rfl
        rw [decide_eq_true hlt, Bool.true_and, overSteps, hturn]
        cases hcompatible : isCompatible m b wanted node with
        | true => rfl
        | false => exact hlater
      · have hturn : b.compatibleTurn m wanted offset () (.node node name) = .ok (.inl ()) :=
          if_pos (Nat.not_lt.mp hlt)
        rw [decide_eq_false hlt, Bool.false_and, overSteps, hturn]
        exact hlater

/-- One turn of a driver's loop: the next compatible node, and where to go on from. -/
def Blob.nextCompatible (m : View) (b : Blob) (wanted : List UInt8) (offset : Nat) :
    Except Crash (Option Node × Nat) := do
  match ← b.findCompatibleAfter m wanted offset with
  | some node => return (some node, node.offset)
  | none => return (none, offset)

/-- Asking from offset zero on, and then each time from the last answer on, gives the
compatible nodes of a walk, in order and each once, and then comes to an end. -/
theorem enumeration_is_exact {va pa : Nat} {header : Header} (h : probe m va = .ok (.ok header))
    (hlt : va + header.totalsize < u64Size)
    (hblob : ∀ a, (m a).isSome = true ↔ va ≤ a ∧ a < va + header.totalsize) (hnul : 0 ∉ wanted) :
    ∃ steps found, (Blob.walk ⟨pa, va, header⟩).Reports m ⟨pa, va, header⟩ steps ∧
      Yields (Blob.nextCompatible m ⟨pa, va, header⟩ wanted) 0 found ∧
      found.Sublist (nodesOf steps) ∧ found.Pairwise (fun x y => x.offset < y.offset) ∧
      ∀ node, node ∈ found ↔ node ∈ nodesOf steps ∧ Compatible m ⟨pa, va, header⟩ wanted node := by
  have hsound : Sound m ⟨pa, va, header⟩ := Sound.of_probe h hlt hblob
  obtain ⟨steps, hsteps, htokens, -⟩ := hsound.reports hsound.walk
  have hsorted := (hsound.nodes_sorted hsound.walk htokens).1
  have hpos := hsound.nodes_pos h hsteps
  refine ⟨steps, after Node.offset (isCompatible m ⟨pa, va, header⟩ wanted) (nodesOf steps) 0,
    hsteps, Yields.after hsorted (fun k node hnode => ?_) (fun k hnone => ?_) 0, ?_, ?_,
    fun node => ?_⟩
  · unfold Blob.nextCompatible
    rw [hsound.findCompatibleAfter_eq hsteps, hnode]
    rfl
  · unfold Blob.nextCompatible
    rw [hsound.findCompatibleAfter_eq hsteps, hnone]
    rfl
  · exact List.filter_sublist
  · exact hsorted.filter _
  · unfold after
    rw [List.mem_filter, Bool.and_eq_true, decide_eq_true_iff, isCompatible_iff hnul]
    constructor
    · rintro ⟨hmem, -, hcompatible⟩
      exact ⟨hmem, hcompatible⟩
    · rintro ⟨hmem, hcompatible⟩
      exact ⟨hmem, hpos node hmem, hcompatible⟩

end Compatible

/-- A tree whose root has three children, the first and the last a virtio transport. -/
def transportTree : List UInt8 :=
  [0xd0, 0x0d, 0xfe, 0xed, 0, 0, 0, 167, 0, 0, 0, 56, 0, 0, 0, 156, 0, 0, 0, 40,
   0, 0, 0, 17, 0, 0, 0, 16, 0, 0, 0, 0, 0, 0, 0, 11, 0, 0, 0, 100,
   0, 0, 0, 0, 0, 0, 0, 0, 0, 0, 0, 0, 0, 0, 0, 0,
   0, 0, 0, 1, 0, 0, 0, 0,
   0, 0, 0, 1, 97, 0, 0, 0, 0, 0, 0, 3, 0, 0, 0, 12, 0, 0, 0, 0,
   118, 105, 114, 116, 105, 111, 44, 109, 109, 105, 111, 0, 0, 0, 0, 2,
   0, 0, 0, 1, 98, 0, 0, 0, 0, 0, 0, 2,
   0, 0, 0, 1, 99, 0, 0, 0, 0, 0, 0, 3, 0, 0, 0, 12, 0, 0, 0, 0,
   118, 105, 114, 116, 105, 111, 44, 109, 109, 105, 111, 0, 0, 0, 0, 2,
   0, 0, 0, 2, 0, 0, 0, 9,
   99, 111, 109, 112, 97, 116, 105, 98, 108, 101, 0]

/-- The two of them, in order. -/
theorem transports_are_enumerated :
    ∃ header steps, probe (only 4096 transportTree) 4096 = .ok (.ok header) ∧
      (Blob.walk ⟨0, 4096, header⟩).Reports (only 4096 transportTree) ⟨0, 4096, header⟩ steps ∧
      Yields (Blob.nextCompatible (only 4096 transportTree) ⟨0, 4096, header⟩
        (bytesOf "virtio,mmio")) 0 [⟨64, 2, 2, 1⟩, ⟨112, 2, 2, 1⟩] ∧
      ∀ node, node ∈ [(⟨64, 2, 2, 1⟩ : Node), ⟨112, 2, 2, 1⟩] ↔ node ∈ nodesOf steps ∧
        Compatible (only 4096 transportTree) ⟨0, 4096, header⟩ (bytesOf "virtio,mmio") node := by
  have hprobe : probe (only 4096 transportTree) 4096 =
      .ok (.ok ⟨167, 56, 156, 40, 17, 16, 0, 11, 100⟩) := by decide +kernel
  have hlength : transportTree.length = 167 := by decide +kernel
  have hblob := isSome_only 4096 transportTree
  rw [hlength] at hblob
  obtain ⟨steps, found, hsteps, hfound, -, -, hexact⟩ :=
    @enumeration_is_exact (only 4096 transportTree) (bytesOf "virtio,mmio") 4096 0 _ hprobe
      (by decide) hblob (by decide +kernel)
  have hfirst : Blob.nextCompatible (only 4096 transportTree)
      ⟨0, 4096, ⟨167, 56, 156, 40, 17, 16, 0, 11, 100⟩⟩ (bytesOf "virtio,mmio") 0 =
        .ok (some ⟨64, 2, 2, 1⟩, 64) := by decide +kernel
  have hsecond : Blob.nextCompatible (only 4096 transportTree)
      ⟨0, 4096, ⟨167, 56, 156, 40, 17, 16, 0, 11, 100⟩⟩ (bytesOf "virtio,mmio") 64 =
        .ok (some ⟨112, 2, 2, 1⟩, 112) := by decide +kernel
  have hlast : Blob.nextCompatible (only 4096 transportTree)
      ⟨0, 4096, ⟨167, 56, 156, 40, 17, 16, 0, 11, 100⟩⟩ (bytesOf "virtio,mmio") 112 =
        .ok (none, 112) := by decide +kernel
  obtain rfl := hfound.unique (.cons hfirst (.cons hsecond (.nil hlast)))
  exact ⟨_, steps, hprobe, hsteps, hfound, hexact⟩

end TheRack.Fdt
