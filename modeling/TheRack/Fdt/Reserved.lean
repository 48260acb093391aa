/-
  Fdt/Reserved.lean --- what `memory_map` lists as spoken for.

  Three lists are gathered: the blob, the pairs of the reservation block, and the
  `reg`s of the children of `/reserved-memory`.  `reserve` keeps the first of what
  it is given and counts the others, so nothing that is read gets lost.  But of each
  `reg` only the first entry is read.
-/
import TheRack.Fdt.Paths
import TheRack.Fdt.Cells
import TheRack.Fdt.Enumerate

set_option autoImplicit false

namespace TheRack.Fdt

open Lib

/-! ## Lists of regions -/

/-- The regions that have a size. -/
def sized (regions : List (Nat × Nat)) : List (Nat × Nat) := regions.filter fun r => r.2 ≠ 0

/-- The map lists the first of these regions, and has counted the others. -/
structure MemoryMap.Holds (map : MemoryMap) (regions : List (Nat × Nat)) : Prop where
  reserved_eq : map.reserved = regions.take maxReservations
  dropped_eq : map.dropped = regions.length - maxReservations

/-- Every one of these regions is listed or counted, and no other one is. -/
def MemoryMap.Accounts (map : MemoryMap) (regions : List (Nat × Nat)) : Prop :=
  ∃ lost, (map.reserved ++ lost).Perm regions ∧ lost.length = map.dropped

/-- `reserve`, for one region after the other. -/
def MemoryMap.reserveAll (map : MemoryMap) (regions : List (Nat × Nat)) : MemoryMap :=
  regions.foldl (fun map region => map.reserve region.1 region.2) map

section Maps

variable {map : MemoryMap} {regions : List (Nat × Nat)}

theorem MemoryMap.empty_holds : MemoryMap.empty.Holds [] := ⟨rfl, rfl⟩

theorem MemoryMap.Holds.reserve (h : map.Holds regions) (region : Nat × Nat) :
    (map.reserve region.1 region.2).Holds (regions ++ sized [region]) := by
  have hlen : map.reserved.length = min maxReservations regions.length := by
    rw [h.reserved_eq, List.length_take]
  unfold MemoryMap.reserve sized
  by_cases hsize : region.2 = 0
  · simpa [hsize] using h
  · rw [if_neg hsize, List.filter_cons_of_pos (by simpa using hsize), List.filter_nil]
    split
    · rename_i hfull
      refine ⟨?_, ?_⟩
      · rw [List.take_append_of_le_length (by omega)]
        exact h.reserved_eq
      · rw [List.length_append, List.length_singleton]
        simp only [h.dropped_eq]
        omega
    · rename_i hroom
      have hall : map.reserved = regions := by
        rw [h.reserved_eq]
        exact List.take_of_length_le (by omega)
      refine ⟨?_, ?_⟩
      · rw [hall, List.take_of_length_le (by rw [List.length_append, List.length_singleton]; omega)]
      · rw [List.length_append, List.length_singleton]
        simp only [h.dropped_eq]
        omega

theorem MemoryMap.Holds.reserveAll (h : map.Holds regions) (more : List (Nat × Nat)) :
    (map.reserveAll more).Holds (regions ++ sized more) := by
  induction more generalizing map regions with
  | nil =>
    rw [sized, List.filter_nil, List.append_nil]
    exact h
  | cons region more ih =>
    have hrest := ih (h.reserve region)
    rw [List.append_assoc, sized, sized, ← List.filter_append, List.singleton_append] at hrest
    exact hrest

theorem MemoryMap.reserveAll_append (map : MemoryMap) (l l' : List (Nat × Nat)) :
    map.reserveAll (l ++ l') = (map.reserveAll l).reserveAll l' := List.foldl_append

/-- A map that holds what was read accounts for what was declared, of which that is a part, if
and only if all of it was read. -/
theorem MemoryMap.Holds.accounts_iff {declared : List (Nat × Nat)} (h : map.Holds regions)
    (hsub : regions.Sublist declared) : map.Accounts declared ↔ regions = declared := by
  constructor
  · rintro ⟨lost, hperm, hlost⟩
    refine hsub.eq_of_length ?_
    have hlen := hperm.length_eq
    rw [List.length_append, hlost, h.reserved_eq, h.dropped_eq, List.length_take] at hlen
    omega
  · rintro rfl
    refine ⟨regions.drop maxReservations, ?_, ?_⟩
    · rw [h.reserved_eq, List.take_append_drop]
    · rw [List.length_drop, h.dropped_eq]

end Maps

/-! ## The reservation block -/

section Block

variable {m : View} {b : Blob}

/-- Pairs of an address and a size, up to the pair of zeroes. -/
inductive BlockLies (m : View) (b : Blob) : Nat → List (Nat × Nat) → Prop
  | nil {offset : Nat} (hbase : b.LongAt m offset 0) (hsize : b.LongAt m (offset + 8) 0) :
      BlockLies m b offset []
  | cons {offset base size : Nat} {block : List (Nat × Nat)} (hbase : b.LongAt m offset base)
      (hsize : b.LongAt m (offset + 8) size) (hne : ¬ (base = 0 ∧ size = 0))
      (hrest : BlockLies m b (offset + 16) block) : BlockLies m b offset ((base, size) :: block)

theorem BlockLies.reserveBlock (h : Sound m b) {offset : Nat} {block : List (Nat × Nat)}
    (hlies : BlockLies m b offset block) (n : Nat) (map : MemoryMap)
    (hn : b.header.totalsize < n + offset) :
    b.reserveBlock m n offset map = .ok (map.reserveAll block) := by
  have hsmall := h.size_le
  rw [maxBlob_eq] at hsmall
  induction hlies generalizing n map with
  | @nil offset hbase hsize =>
    have hle := (h.u64At (offset + 8)).of_gives (hsize.gives h)
    obtain ⟨n, rfl⟩ : ∃ k, n = k + 1 := ⟨n - 1, by omega⟩
    have hfirst : (b.u64At m offset).run = .ok (some 0) := hbase.gives h
    have hsecond : (b.u64At m (offset + 8)).run = .ok (some 0) := hsize.gives h
    unfold Blob.reserveBlock
    simp [hfirst, hsecond, add32_ok (show offset + 8 < u32Size by rw [u32Size_eq]; omega), bind,
      Except.bind]
    rfl
  | @cons offset base size block hbase hsize hne hrest ih =>
    have hle := (h.u64At (offset + 8)).of_gives (hsize.gives h)
    obtain ⟨n, rfl⟩ : ∃ k, n = k + 1 := ⟨n - 1, by omega⟩
    have hfirst : (b.u64At m offset).run = .ok (some base) := hbase.gives h
    have hsecond : (b.u64At m (offset + 8)).run = .ok (some size) := hsize.gives h
    have hnext := ih n (map.reserve base size) (by omega)
    unfold Blob.reserveBlock
    simp only [hfirst, hsecond, add32_ok (show offset + 8 < u32Size by rw [u32Size_eq]; omega),
      add32_ok (show offset + 16 < u32Size by rw [u32Size_eq]; omega), bind, Except.bind, if_neg hne]
    exact hnext

end Block

/-! ## The children of `/reserved-memory` -/

/-- The children of the node at `/reserved-memory`. -/
def reservedChildren (root : Forest Label) : List (Visit Above Label) :=
  match nodeAt (components (bytesOf "/reserved-memory")) root with
  | some parent => parent.tops Above.down
  | none => []

/-- What of the children's entries is read. -/
def firstEntries (children : List (Visit Above Label)) : List (Nat × Nat) :=
  children.flatMap fun child => (entriesOf child).take 1

section Children

variable {m : View} {b : Blob} {parent : Node} {map : MemoryMap}

theorem nodesOf_flatMap_stepsOf (visits : List (Visit Above Label)) :
    nodesOf (visits.flatMap stepsOf) = visits.map nodeOf := by
  induction visits with
  | nil => rfl
  | cons v visits ih =>
    have hproperties : ∀ (properties : List (List UInt8 × List UInt8)) (steps : List Step),
        nodesOf (properties.map (fun property => .property property.1 property.2) ++ steps) =
          nodesOf steps := by
      intro properties steps
      induction properties with
      | nil => rfl
      | cons property properties ih => exact ih
    rw [List.flatMap_cons, stepsOf, List.cons_append, nodesOf_node, hproperties, ih, List.map_cons]

/-- Nodes that a loop has no use for. -/
theorem overSteps_visits {σ α : Type} {body : σ → Step → Except Crash (σ ⊕ α)} {s : σ}
    (hproperty : ∀ name value, body s (.property name value) = .ok (.inl s))
    {visits : List (Visit Above Label)}
    (hnode : ∀ v ∈ visits, body s (.node (nodeOf v) v.label.name) = .ok (.inl s))
    (steps : List Step) :
    overSteps body (visits.flatMap stepsOf ++ steps) s = overSteps body steps s := by
  induction visits with
  | nil => rfl
  | cons v visits ih =>
    have hrest := ih fun w hw => hnode w (List.mem_cons_of_mem _ hw)
    rw [List.flatMap_cons, stepsOf, List.cons_append, List.cons_append, List.append_assoc,
      overSteps_stay (hnode v List.mem_cons_self), overSteps_properties hproperty, hrest]

/-- One turn of the loop, at a child. -/
theorem childTurn_child (h : Sound m b) {v : Visit Above Label} (hlies : LabelLies m b v.label)
    (hpast : parent.offset < (nodeOf v).offset) (hdepth : v.context.names.length = parent.depth) :
    b.childTurn m parent map (.node (nodeOf v) v.label.name) =
      .ok (.inl (map.reserveAll ((entriesOf v).take 1))) := by
  have hdeep : (nodeOf v).depth = parent.depth + 1 := congrArg (· + 1) hdepth
  have hfirst := hlies.reg_eq h 0
  unfold Blob.childTurn
  simp only
  rw [if_neg (Nat.not_le.mpr hpast), if_neg (by omega), if_pos hdeep, hfirst]
  cases entriesOf v with
  | nil => rfl
  | cons entry entries => rfl

/-- The loop over the trees right below `/reserved-memory`. -/
theorem children_loop (h : Sound m b) {forest : Forest Label} {above : Above}
    (hdepth : above.names.length = parent.depth)
    (hvisits : ∀ v ∈ forest.visits Above.down above,
      parent.offset < (nodeOf v).offset ∧ LabelLies m b v.label) (steps : List Step) :
    overSteps (b.childTurn m parent) (treeSteps above forest ++ steps) map =
      overSteps (b.childTurn m parent) steps (map.reserveAll (firstEntries (forest.tops above))) := by
  induction forest generalizing map with
  | nil => rfl
  | tree label children rest _ ihr =>
    rw [Forest.visits_tree] at hvisits
    obtain ⟨hpast, hlies⟩ := hvisits _ List.mem_cons_self
    have hturn := @childTurn_child m b parent map h ⟨above, label, children⟩ hlies hpast hdepth
    have hrest := fun map => @ihr map fun v hv =>
      hvisits v (List.mem_cons_of_mem _ (List.mem_append_right _ hv))
    -- what lies below the child is too deep
    have hbelow : ∀ (map : MemoryMap), ∀ v ∈ children.visits Above.down (above.down label),
        b.childTurn m parent map (.node (nodeOf v) v.label.name) = .ok (.inl map) := by
      intro map v hv
      have hlater := (hvisits v (List.mem_cons_of_mem _ (List.mem_append_left _ hv))).1
      have hlevel := @Forest.level_le _ _ _ _ _ _ (fun above => above.names.length)
        Above.length_down hv
      have hdeep : parent.depth + 1 < (nodeOf v).depth := by
        simp only [Above.length_down] at hlevel
        unfold nodeOf
        simp only
        omega
      unfold Blob.childTurn
      simp only
      rw [if_neg (Nat.not_le.mpr hlater), if_neg (by omega), if_neg (by omega)]
    rw [treeSteps_tree, List.append_assoc, List.append_assoc, stepsOf, List.cons_append,
      overSteps_stay hturn, overSteps_properties (fun _ _ => rfl),
      treeSteps, overSteps_visits (fun _ _ => rfl) (hbelow _), hrest, ← MemoryMap.reserveAll_append]
    rfl

/-- What is read of `/reserved-memory`: of each child the first entry. -/
theorem TreeLies.reserveChildren (h : Sound m b) {root : Forest Label} (htree : TreeLies m b root)
    (map : MemoryMap) :
    b.reserveChildren m map = .ok (map.reserveAll (firstEntries (reservedChildren root))) := by
  unfold Blob.reserveChildren reservedChildren
  rw [htree.findNode h]
  cases hnode : nodeAt (components (bytesOf "/reserved-memory")) root with
  | none => rfl
  | some v =>
    obtain ⟨-, before, after, hvisits, -⟩ := List.find?_eq_some_iff_append.mp hnode
    obtain ⟨later, rfl, hlater⟩ := @Forest.visits_split _ _ _ _ _ _ (fun above => above.names.length)
      Above.length_down _ _ hvisits
    have hreports := htree.reports h
    have hsorted := (h.nodes_sorted h.walk (h.tokens h.walk hreports)).1
    unfold treeSteps at hreports hsorted
    rw [nodesOf_flatMap_stepsOf, List.pairwise_map, hvisits] at hsorted
    obtain ⟨-, hafter, hbefore⟩ := List.pairwise_append.mp hsorted
    have hpast := (List.pairwise_cons.mp hafter).1
    rw [hvisits] at hreports
    -- up to the node itself nothing is read
    have hskip : ∀ w ∈ before ++ [v],
        b.childTurn m (nodeOf v) map (.node (nodeOf w) w.label.name) = .ok (.inl map) := by
      intro w hw
      refine if_pos ?_
      rcases List.mem_append.mp hw with hw | hw
      · exact Nat.le_of_lt (hbefore w hw v List.mem_cons_self)
      · obtain rfl := List.mem_singleton.mp hw
        exact Nat.le_refl _
    -- below it the children are
    have hinside : ∀ w ∈ v.children.visits Above.down (v.context.down v.label),
        (nodeOf v).offset < (nodeOf w).offset ∧ LabelLies m b w.label := by
      intro w hw
      refine ⟨hpast w (List.mem_append_left _ hw), htree.label ?_⟩
      rw [hvisits]
      exact List.mem_append_right _ (List.mem_cons_of_mem _ (List.mem_append_left _ hw))
    have hdepth : (v.context.down v.label).names.length = (nodeOf v).depth := by
      simp [nodeOf]
    -- and what comes then ends the loop
    have hend : ∀ map, ∃ r, overSteps (b.childTurn m (nodeOf v)) (later.flatMap stepsOf) map = .ok r ∧
        (r = .inl map ∨ r = .inr map) := by
      intro map
      cases later with
      | nil => exact ⟨_, rfl, .inl rfl⟩
      | cons w later =>
        have hleave : b.childTurn m (nodeOf v) map (.node (nodeOf w) w.label.name) = .ok (.inr map) := by
          have hoffset := hpast w (List.mem_append_right _ List.mem_cons_self)
          have hlevel := Nat.succ_le_succ (hlater w rfl)
          unfold Blob.childTurn
          simp only
          rw [if_neg (Nat.not_le.mpr hoffset)]
          exact if_pos hlevel
        exact ⟨_, overSteps_leave hleave _, .inr rfl⟩
    have hsteps : ((before ++ v :: (v.below Above.down ++ later)).flatMap stepsOf) =
        (before ++ [v]).flatMap stepsOf ++
          (treeSteps (v.context.down v.label) v.children ++ later.flatMap stepsOf) := by
      simp [treeSteps, Visit.below]
    rw [hsteps] at hreports
    obtain ⟨r, hr, hmap⟩ := hend (map.reserveAll (firstEntries (v.tops Above.down)))
    have hscan : b.scan m (b.childTurn m (nodeOf v)) map = .ok r := by
      rw [h.scan_steps hreports, overSteps_visits (fun _ _ => rfl) hskip,
        children_loop h hdepth hinside]
      exact hr
    simp only [Option.map_some, bind, Except.bind, hscan]
    rcases hmap with rfl | rfl
    · rfl
    · rfl

end Children

/-! ## What is spoken for -/

/-- Everything with a size that is spoken for: the blob itself, the reservation block, and
what the children of `/reserved-memory` list. -/
def Blob.spokenFor (b : Blob) (block : List (Nat × Nat)) (root : Forest Label) :
    List (Nat × Nat) :=
  sized ((b.pa, b.header.totalsize) :: block ++ (reservedChildren root).flatMap entriesOf)

/-- What of it is read. -/
def Blob.readOf (b : Blob) (block : List (Nat × Nat)) (root : Forest Label) : List (Nat × Nat) :=
  sized ((b.pa, b.header.totalsize) :: block ++ firstEntries (reservedChildren root))

section Spoken

variable {m : View} {b : Blob} {block : List (Nat × Nat)} {root : Forest Label}

/-- `memory_map` keeps or counts everything that is read. -/
theorem TreeLies.memoryMap (h : Sound m b) (hblock : BlockLies m b b.header.offMemRsvmap block)
    (htree : TreeLies m b root) :
    ∃ map, b.memoryMap m = .ok map ∧ map.Holds (b.readOf block root) := by
  have hread : (((MemoryMap.empty.reserve b.pa b.header.totalsize).reserveAll block).reserveAll
      (firstEntries (reservedChildren root))).Holds (b.readOf block root) := by
    have hholds := MemoryMap.empty_holds.reserveAll
      ((b.pa, b.header.totalsize) :: block ++ firstEntries (reservedChildren root))
    rw [List.nil_append, MemoryMap.reserveAll_append] at hholds
    exact hholds
  obtain ⟨map, hmap, -⟩ := h.takeMemory
    (((MemoryMap.empty.reserve b.pa b.header.totalsize).reserveAll block).reserveAll
      (firstEntries (reservedChildren root)))
  obtain ⟨hreserved, hdropped⟩ := takeMemory_kept hmap
  refine ⟨map, ?_, hreserved.trans hread.reserved_eq, hdropped.trans hread.dropped_eq⟩
  unfold Blob.memoryMap
  simp only [hblock.reserveBlock h _ _ (show b.header.totalsize < b.header.totalsize + 1 +
    b.header.offMemRsvmap by omega), bind, Except.bind, htree.reserveChildren h]
  exact hmap

theorem sized_append (l l' : List (Nat × Nat)) : sized (l ++ l') = sized l ++ sized l' :=
  List.filter_append l l'

theorem sized_flatMap_sublist {α : Type} {f g : α → List (Nat × Nat)}
    (hsub : ∀ a, (f a).Sublist (g a)) (l : List α) :
    (sized (l.flatMap f)).Sublist (sized (l.flatMap g)) := by
  induction l with
  | nil => exact .refl _
  | cons a l ih =>
    rw [List.flatMap_cons, List.flatMap_cons, sized_append, sized_append]
    exact ((hsub a).filter _).append ih

/-- To leave things out of parts of a list changes nothing if and only if nothing with a size
is left out of any part. -/
theorem sized_flatMap_eq_iff {α : Type} {f g : α → List (Nat × Nat)}
    (hsub : ∀ a, (f a).Sublist (g a)) (l : List α) :
    sized (l.flatMap f) = sized (l.flatMap g) ↔ ∀ a ∈ l, sized (f a) = sized (g a) := by
  induction l with
  | nil => simp
  | cons a l ih =>
    rw [List.flatMap_cons, List.flatMap_cons, sized_append, sized_append, List.forall_mem_cons]
    constructor
    · intro heq
      have hfirst := ((hsub a).filter fun r => r.2 ≠ 0).length_le
      have hrest := (sized_flatMap_sublist hsub l).length_le
      have hlen := congrArg List.length heq
      rw [List.length_append, List.length_append] at hlen
      have hsame : sized (f a) = sized (g a) :=
        ((hsub a).filter _).eq_of_length (by unfold sized at *; omega)
      exact ⟨hsame, ih.mp ((sized_flatMap_sublist hsub l).eq_of_length (by unfold sized at *; omega))⟩
    · rintro ⟨hfirst, hrest⟩
      rw [hfirst, ih.mpr hrest]

theorem sized_take_one_iff (l : List (Nat × Nat)) :
    sized (l.take 1) = sized l ↔ ∀ entry ∈ l.drop 1, entry.2 = 0 := by
  have hsplit : sized l = sized (l.take 1) ++ sized (l.drop 1) := by
    rw [← sized_append, List.take_append_drop]
  rw [hsplit, List.self_eq_append_right]
  unfold sized
  simp [List.filter_eq_nil_iff]

/-- `memory_map` accounts for everything that is spoken for, and for nothing else, if and only
if no child of `/reserved-memory` lists a region with a size behind its first one. -/
theorem memoryMap_accounts_iff {va pa : Nat} {header : Header} (h : probe m va = .ok (.ok header))
    (hlt : va + header.totalsize < u64Size)
    (hblob : ∀ a, va ≤ a → a < va + header.totalsize → (m a).isSome = true)
    (hblock : BlockLies m ⟨pa, va, header⟩ header.offMemRsvmap block)
    (htree : TreeLies m ⟨pa, va, header⟩ root) :
    (∃ map, Blob.memoryMap m ⟨pa, va, header⟩ = .ok map ∧
        map.Accounts (Blob.spokenFor ⟨pa, va, header⟩ block root)) ↔
      ∀ child ∈ reservedChildren root, ∀ entry ∈ (entriesOf child).drop 1, entry.2 = 0 := by
  have hsound : Sound m ⟨pa, va, header⟩ :=
    ⟨hblob, Nat.pos_of_ne_zero (probed h).va_ne, hlt, (probed h).size_le, (probed h).struct_le,
      (probed h).strings_le, (probed h).rsvmap_lt⟩
  obtain ⟨map, hmap, hholds⟩ := htree.memoryMap hsound hblock
  have hsub : ∀ child : Visit Above Label, ((entriesOf child).take 1).Sublist (entriesOf child) :=
    fun child => List.take_sublist 1 _
  have hread : (Blob.readOf ⟨pa, va, header⟩ block root).Sublist
      (Blob.spokenFor ⟨pa, va, header⟩ block root) := by
    unfold Blob.readOf Blob.spokenFor firstEntries
    rw [sized_append, sized_append]
    exact (List.Sublist.refl _).append (sized_flatMap_sublist hsub _)
  have hall : Blob.readOf ⟨pa, va, header⟩ block root = Blob.spokenFor ⟨pa, va, header⟩ block root ↔
      ∀ child ∈ reservedChildren root, ∀ entry ∈ (entriesOf child).drop 1, entry.2 = 0 := by
    unfold Blob.readOf Blob.spokenFor firstEntries
    rw [sized_append, sized_append, List.append_cancel_left_eq, sized_flatMap_eq_iff hsub]
    simp only [sized_take_one_iff]
  rw [← hall, ← hholds.accounts_iff hread]
  constructor
  · rintro ⟨map', hmap', haccounts⟩
    obtain rfl := Except.ok.inj (hmap.symm.trans hmap')
    exact haccounts
  · intro haccounts
    exact ⟨map, hmap, haccounts⟩

end Spoken

/-- A tree in which a child of `/reserved-memory` lists two regions, the second of `size` bytes. -/
def reservedTree (size : UInt8) : List UInt8 :=
  [0xd0, 0x0d, 0xfe, 0xed, 0, 0, 0, 148, 0, 0, 0, 56, 0, 0, 0, 144, 0, 0, 0, 40,
   0, 0, 0, 17, 0, 0, 0, 16, 0, 0, 0, 0, 0, 0, 0, 4, 0, 0, 0, 88,
   0, 0, 0, 0, 0, 0, 0, 0, 0, 0, 0, 0, 0, 0, 0, 0,
   0, 0, 0, 1, 0, 0, 0, 0, 0, 0, 0, 1, 114, 101, 115, 101, 114, 118, 101, 100, 45, 109, 101, 109,
   111, 114, 121, 0, 0, 0, 0, 1, 97, 0, 0, 0, 0, 0, 0, 3, 0, 0, 0, 24, 0, 0, 0, 0,
   0, 0, 0, 0, 0, 0, 16, 0, 0, 0, 0, 16, 0, 0, 0, 0, 0, 0, 32, 0, 0, 0, 0, size,
   0, 0, 0, 2, 0, 0, 0, 2, 0, 0, 0, 2, 0, 0, 0, 9, 114, 101, 103, 0]

/-- Its root. -/
def reservedRoot (size : UInt8) : Forest Label :=
  .tree ⟨56, [], []⟩
    (.tree ⟨64, [114, 101, 115, 101, 114, 118, 101, 100, 45, 109, 101, 109, 111, 114, 121], []⟩
      (.tree ⟨84, [97], [([114, 101, 103],
        [0, 0, 0, 0, 0, 0, 16, 0, 0, 0, 0, 16, 0, 0, 0, 0, 0, 0, 32, 0, 0, 0, 0, size])]⟩ .nil .nil)
      .nil) .nil

/-- Its header. -/
def reservedHeader : Header := ⟨148, 56, 144, 40, 17, 16, 0, 4, 88⟩

theorem reservedTree_word (size : UInt8) (offset : Nat) (value : UInt8) (hle : offset + 4 ≤ 148)
    (h : ((reservedTree size).drop offset).take 4 = [0, 0, 0, value]) :
    Blob.WordAt (only 4096 (reservedTree size)) ⟨0, 4096, reservedHeader⟩ offset value.toNat :=
  ⟨[0, 0, 0, value], rfl, by simp [ofBigEndian], Blob.has_only hle h⟩

theorem reservedTree_string (size : UInt8) (offset limit : Nat) (s : List UInt8)
    (hle : offset + (s ++ [0]).length ≤ 148)
    (h : ((reservedTree size).drop offset).take (s ++ [0]).length = s ++ [0])
    (hlt : offset + s.length < limit) (hnul : 0 ∉ s) (hutf8 : Utf8 s) :
    Blob.StringAt (only 4096 (reservedTree size)) ⟨0, 4096, reservedHeader⟩ offset limit s :=
  ⟨Blob.has_only hle h, hlt, hnul, hutf8⟩

theorem reservedTree_block (size : UInt8) :
    BlockLies (only 4096 (reservedTree size)) ⟨0, 4096, reservedHeader⟩ 40 [] :=
  .nil ⟨[0, 0, 0, 0, 0, 0, 0, 0], rfl, rfl, Blob.has_only (by decide) rfl⟩
    ⟨[0, 0, 0, 0, 0, 0, 0, 0], rfl, rfl, Blob.has_only (by decide) rfl⟩

theorem reservedTree_lies (size : UInt8) :
    TreeLies (only 4096 (reservedTree size)) ⟨0, 4096, reservedHeader⟩ (reservedRoot size) := by
  have hreg := reservedTree_string size 144 148 [114, 101, 103] (by decide) rfl (by decide)
    (by decide) (by decide)
  have hproperty : Blob.PropertyLies (only 4096 (reservedTree size)) ⟨0, 4096, reservedHeader⟩ 92
      [114, 101, 103]
      [0, 0, 0, 0, 0, 0, 16, 0, 0, 0, 0, 16, 0, 0, 0, 0, 0, 0, 32, 0, 0, 0, 0, size] :=
    ⟨reservedTree_word size 92 3 (by decide) rfl, reservedTree_word size 96 24 (by decide) rfl,
      Blob.has_only (show 104 + 24 ≤ 148 by decide) rfl, 0,
      reservedTree_word size 100 0 (by decide) rfl, hreg⟩
  have hproperties : PropertiesLie (only 4096 (reservedTree size)) ⟨0, 4096, reservedHeader⟩
      (padded (84 + 4 + ([97] : List UInt8).length + 1)) [([114, 101, 103],
        [0, 0, 0, 0, 0, 0, 16, 0, 0, 0, 0, 16, 0, 0, 0, 0, 0, 0, 32, 0, 0, 0, 0, size])] 128 := by
    have hstart : padded (84 + 4 + ([97] : List UInt8).length + 1) = 92 := by decide
    have hstop : PropertiesLie (only 4096 (reservedTree size)) ⟨0, 4096, reservedHeader⟩
        (padded (92 + 12 + 24)) [] 128 := .nil 128
    rw [hstart]
    exact .cons (.refl _) hproperty hstop
  refine ⟨⟨_, _, _, rfl⟩, show 3 < maxDepth by decide, 140, 140, ?_, .refl _,
    reservedTree_word size 140 9 (by decide) rfl, by decide⟩
  refine .tree (.refl _) (reservedTree_word size 56 1 (by decide) rfl)
    (reservedTree_string size 60 144 [] (by decide) rfl (by decide) (by decide) (by decide)) (.nil _)
    ?_ (.refl _) (reservedTree_word size 136 2 (by decide) rfl) (.nil _)
  refine .tree (.refl _) (reservedTree_word size 64 1 (by decide) rfl)
    (reservedTree_string size 68 144 _ (by decide) rfl (by decide) (by decide) (by decide)) (.nil _)
    ?_ (.refl _) (reservedTree_word size 132 2 (by decide) rfl) (.nil _)
  refine .tree (.refl _) (reservedTree_word size 84 1 (by decide) rfl)
    (reservedTree_string size 88 144 [97] (by decide) rfl (by decide) (by decide) (by decide))
    hproperties (.nil _) (.refl _)
    (reservedTree_word size 128 2 (by decide) rfl) (.nil _)

theorem reservedTree_is_accounted_for :
    ∃ map, Blob.memoryMap (only 4096 (reservedTree 0)) ⟨0, 4096, reservedHeader⟩ = .ok map ∧
      map.Accounts (Blob.spokenFor ⟨0, 4096, reservedHeader⟩ [] (reservedRoot 0)) := by
  have hprobe : probe (only 4096 (reservedTree 0)) 4096 = .ok (.ok reservedHeader) := by
    decide +kernel
  have hlen : (reservedTree 0).length = reservedHeader.totalsize := by decide +kernel
  refine (memoryMap_accounts_iff hprobe (by decide)
    (fun a h1 h2 => (isSome_only 4096 (reservedTree 0) a).mpr ⟨h1, hlen ▸ h2⟩) (reservedTree_block 0)
    (reservedTree_lies 0)).mpr ?_
  decide +kernel

/-- The second region of a child is neither listed nor counted. -/
theorem reservedTree_misses_a_region :
    ∃ header root map, probe (only 4096 (reservedTree 16)) 4096 = .ok (.ok header) ∧
      BlockLies (only 4096 (reservedTree 16)) ⟨0, 4096, header⟩ header.offMemRsvmap [] ∧
      TreeLies (only 4096 (reservedTree 16)) ⟨0, 4096, header⟩ root ∧
      Blob.memoryMap (only 4096 (reservedTree 16)) ⟨0, 4096, header⟩ = .ok map ∧
      map.reserved = [(0, 148), (4096, 16)] ∧ map.dropped = 0 ∧
      (8192, 16) ∈ Blob.spokenFor ⟨0, 4096, header⟩ [] root ∧
      ¬ map.Accounts (Blob.spokenFor ⟨0, 4096, header⟩ [] root) := by
  have hmap : Blob.memoryMap (only 4096 (reservedTree 16)) ⟨0, 4096, reservedHeader⟩ =
      .ok ⟨0, 0, 0, [(0, 148), (4096, 16)], 0⟩ := by decide +kernel
  have hspoken : Blob.spokenFor ⟨0, 4096, reservedHeader⟩ [] (reservedRoot 16) =
      [(0, 148), (4096, 16), (8192, 16)] := by decide +kernel
  refine ⟨reservedHeader, reservedRoot 16, _, by decide +kernel, reservedTree_block 16,
    reservedTree_lies 16, hmap, rfl, rfl, ?_, ?_⟩
  · rw [hspoken]
    decide
  · rintro ⟨lost, hperm, hlost⟩
    have hlen := hperm.length_eq
    rw [hspoken, List.length_append, hlost] at hlen
    exact absurd hlen (by decide)

end TheRack.Fdt
