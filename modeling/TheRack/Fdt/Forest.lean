/-
  Fdt/Forest.lean --- trees, and how they lie in a blob.

  A tree is given apart from any blob: names, properties and children.  `Lies` says
  which bytes make it up, with deleted tokens anywhere between the others.  A walk
  over such bytes reports the tree in pre-order, each node at its depth and with the
  cell counts its parent declares, and `property` finds the properties of a node.
-/
import TheRack.Lib.Forest
import TheRack.Fdt.Content

set_option autoImplicit false

namespace TheRack.Fdt

open Lib

/-! ## Trees -/

/-- What there is to a node besides its children: where it lies, its name and its
properties, which are names with values. -/
structure Label where
  offset : Nat
  name : List UInt8
  properties : List (List UInt8 × List UInt8)

/-- What a node inherits: the names above it, the root's first, and the cell counts that its
parent declares. -/
structure Above where
  names : List (List UInt8)
  cells : Nat × Nat

/-- What the last property of that name says that is long enough for a number, or else `n`. -/
def lastCells (wanted : List UInt8) (n : Nat) (properties : List (List UInt8 × List UInt8)) : Nat :=
  properties.foldl
    (fun n property => if property.1 = wanted then (readCells property.2).getD n else n) n

/-- The cell counts that are declared by `properties`, on top of `cells`. -/
def declared (cells : Nat × Nat) (properties : List (List UInt8 × List UInt8)) : Nat × Nat :=
  (lastCells (bytesOf "#address-cells") cells.1 properties,
    lastCells (bytesOf "#size-cells") cells.2 properties)

theorem lastCells_eq (wanted : List UInt8) (n : Nat)
    (properties : List (List UInt8 × List UInt8)) : lastCells wanted n properties =
      (((properties.filter fun property => property.1 = wanted ∧ 4 ≤ property.2.length).getLast?).map
        fun property => ofBigEndian (property.2.take 4)).getD n := by
  induction properties generalizing n with
  | nil => rfl
  | cons property properties ih =>
    have hrest : lastCells wanted n (property :: properties) =
        lastCells wanted (if property.1 = wanted then (readCells property.2).getD n else n) properties :=
      rfl
    rw [hrest, ih]
    by_cases hcounts : property.1 = wanted ∧ 4 ≤ property.2.length
    · rw [List.filter_cons_of_pos (by simpa using hcounts), List.getLast?_cons, if_pos hcounts.1,
        readCells, if_pos hcounts.2]
      cases (properties.filter _).getLast? with
      | none => rfl
      | some last => rfl
    · rw [List.filter_cons_of_neg (by simpa using hcounts)]
      congr 1
      unfold readCells
      split
      · rw [if_neg fun hlong => hcounts ⟨‹_›, hlong⟩]
        rfl
      · rfl

/-- What the children of a node inherit. -/
def Above.down (above : Above) (label : Label) : Above where
  names := above.names ++ [label.name]
  cells := declared defaultCells label.properties

@[simp]
theorem Above.length_down (above : Above) (label : Label) :
    (above.down label).names.length = above.names.length + 1 := by
  simp [Above.down]

/-- What the root inherits. -/
def outside : Above where
  names := []
  cells := defaultCells

/-- The value of the first property of that name. -/
def Label.lookup (label : Label) (wanted : List UInt8) : Option (List UInt8) :=
  (label.properties.find? fun property => property.1 = wanted).map Prod.snd

/-- A node as the walk reports it. -/
def nodeOf (v : Visit Above Label) : Node where
  offset := v.label.offset
  depth := v.context.names.length + 1
  addressCells := v.context.cells.1
  sizeCells := v.context.cells.2

/-- What the walk reports of a node and its properties. -/
def stepsOf (v : Visit Above Label) : List Step :=
  .node (nodeOf v) v.label.name :: v.label.properties.map fun property =>
    .property property.1 property.2

/-- What the walk reports of trees: node by node in pre-order. -/
def treeSteps (above : Above) (forest : Forest Label) : List Step :=
  (forest.visits Above.down above).flatMap stepsOf

/-! ## Trees in a blob -/

section Lies

variable (m : View) (b : Blob)

/-- Where the structure block ends. -/
def Blob.structEnd : Nat := b.header.offDtStruct + b.header.sizeDtStruct

/-- Deleted tokens, one after the other. -/
inductive Nops : Nat → Nat → Prop
  | refl (offset : Nat) : Nops offset offset
  | nop {offset stop : Nat} (h : b.WordAt m offset fdtNop) (hrest : Nops (offset + 4) stop) :
      Nops offset stop

/-- Properties, one after the other. -/
inductive PropertiesLie : Nat → List (List UInt8 × List UInt8) → Nat → Prop
  | nil (offset : Nat) : PropertiesLie offset [] offset
  | cons {offset start stop : Nat} {name value : List UInt8}
      {properties : List (List UInt8 × List UInt8)} (hnops : Nops m b offset start)
      (h : b.PropertyLies m start name value)
      (hrest : PropertiesLie (padded (start + 12 + value.length)) properties stop) :
      PropertiesLie offset ((name, value) :: properties) stop

/-- Trees, one after the other: a node's token, its name, its properties, its children, and
the token that closes it. -/
inductive Lies : Nat → Forest Label → Nat → Prop
  | nil (offset : Nat) : Lies offset .nil offset
  | tree {offset inner last close stop : Nat} {label : Label} {children rest : Forest Label}
      (hnops : Nops m b offset label.offset) (hbegin : b.WordAt m label.offset fdtBeginNode)
      (hname : b.StringAt m (label.offset + 4) b.structEnd label.name)
      (hproperties : PropertiesLie m b (padded (label.offset + 4 + label.name.length + 1))
        label.properties inner)
      (hchildren : Lies inner children last) (hnops' : Nops m b last close)
      (hend : b.WordAt m close fdtEndNode) (hrest : Lies (close + 4) rest stop) :
      Lies offset (.tree label children rest) stop

/-- The structure block holds the tree: a root without a name, no deeper than a walk can
follow, and the token that ends the block. -/
structure TreeLies (root : Forest Label) : Prop where
  single : ∃ offset properties children, root = .tree ⟨offset, [], properties⟩ children .nil
  height_lt : root.height < maxDepth
  lies : ∃ last stop, Lies m b b.header.offDtStruct root last ∧ Nops m b last stop ∧
    b.WordAt m stop fdtEnd ∧ stop + 4 ≤ b.structEnd

end Lies

section Walks

variable {m : View} {b : Blob} {w : Walker} {offset stop : Nat} {steps : List Step}

theorem le_padded (offset : Nat) : offset ≤ padded offset := by
  unfold padded
  omega

theorem Nops.le (h : Nops m b offset stop) : offset ≤ stop := by
  induction h with
  | refl _ => exact Nat.le_refl _
  | nop _ _ ih => omega

theorem PropertiesLie.le {properties : List (List UInt8 × List UInt8)}
    (h : PropertiesLie m b offset properties stop) : offset ≤ stop := by
  induction h with
  | nil _ => exact Nat.le_refl _
  | @cons offset start stop name value properties hnops _ _ ih =>
    have hle := hnops.le
    have hpad := le_padded (start + 12 + value.length)
    omega

theorem Lies.le {forest : Forest Label} (h : Lies m b offset forest stop) : offset ≤ stop := by
  induction h with
  | nil _ => exact Nat.le_refl _
  | @tree offset inner last close stop label children rest hnops _ _ hproperties _ hnops' _ _ ihc
      ihr =>
    have hle := hnops.le
    have hle' := hnops'.le
    have hmid := hproperties.le
    have hpad := le_padded (label.offset + 4 + label.name.length + 1)
    omega

/-! ## The walk -/

theorem Nops.tokens (h : Sound m b) (hnops : Nops m b offset stop) (hw : w.offset = offset)
    (hle : stop ≤ w.stop) (hrest : ({ w with offset := stop }).Tokens m b steps) :
    w.Tokens m b steps := by
  induction hnops generalizing w with
  | refl offset =>
    subst hw
    exact hrest
  | nop hnop hnops ih =>
    subst hw
    have hlt := hnops.le
    exact .skip (h.turn_of (by omega) (.nop (hnop.gives h)))
      (ih (w := { w with offset := w.offset + 4 }) rfl hle hrest)

/-- What `next` records of a property, at the depth it is at. -/
theorem note_eq (d : Fin maxDepth) (hd : d.val = w.depth) (hpos : 0 < w.depth)
    (name value : List UInt8) : w.note name value =
      .ok { w with cells := Function.update w.cells d (declared (w.cells d) [(name, value)]) } := by
  have hlevel : level w.depth = .ok d := by
    rw [level_ok (hd ▸ d.isLt)]
    exact congrArg Except.ok (Fin.ext hd.symm)
  have hne : bytesOf "#address-cells" ≠ bytesOf "#size-cells" := by decide +kernel
  unfold Walker.note declared lastCells
  simp only [List.foldl_cons, List.foldl_nil, hlevel, hpos, if_true]
  cases hcells : readCells value with
  | none => simp
  | some cells =>
    by_cases haddress : name = bytesOf "#address-cells"
    · have hsize : name ≠ bytesOf "#size-cells" := haddress ▸ hne
      simp only [haddress, hne, if_true, if_false, Option.getD_some]
      rfl
    · by_cases hsize : name = bytesOf "#size-cells"
      · simp only [hsize, hne.symm, if_true, if_false, Option.getD_some]
        rfl
      · simp [haddress, hsize]

theorem declared_cons (cells : Nat × Nat) (property : List UInt8 × List UInt8)
    (properties : List (List UInt8 × List UInt8)) :
    declared cells (property :: properties) = declared (declared cells [property]) properties := rfl

/-- A walk over the properties of a node reports them, and records the cell counts. -/
theorem PropertiesLie.tokens (h : Sound m b) {properties : List (List UInt8 × List UInt8)}
    (hlies : PropertiesLie m b offset properties stop) (hw : w.offset = offset)
    (hle : stop ≤ w.stop) (d : Fin maxDepth) (hd : d.val = w.depth) (hpos : 0 < w.depth)
    (hrest : ({ w with
      offset := stop
      cells := Function.update w.cells d (declared (w.cells d) properties) }).Tokens m b steps) :
    w.Tokens m b (properties.map (fun property => .property property.1 property.2) ++ steps) := by
  induction hlies generalizing w with
  | nil offset =>
    subst hw
    have hsame : Function.update w.cells d (declared (w.cells d) []) = w.cells :=
      Function.update_eq_self d w.cells
    rw [hsame] at hrest
    exact hrest
  | @cons offset start stop name value properties hnops hprop hlies ih =>
    have hlt := hlies.le
    have hpad := le_padded (start + 12 + value.length)
    have hafter : afterProperty start value = padded (start + 12 + value.length) :=
      Blob.align4_eq_padded h hprop.value.le
    refine hnops.tokens h hw (by omega) ?_
    have hin : ({ w with offset := start } : Walker).offset < w.stop := by
      simp only
      omega
    have hnote := @note_eq { w with offset := afterProperty start value } d hd hpos name value
    refine .give (h.turn_of hin (.property (hprop.propertyAt h) hnote)) ?_
    refine @ih { w with
      offset := afterProperty start value
      cells := Function.update w.cells d (declared (w.cells d) [(name, value)]) } hafter hle hd hpos ?_
    simp only [Function.update_self, Function.update_idem, ← declared_cons]
    exact hrest

theorem treeSteps_tree (above : Above) (label : Label) (children rest : Forest Label) :
    treeSteps above (.tree label children rest) =
      stepsOf ⟨above, label, children⟩ ++
        (treeSteps (above.down label) children ++ treeSteps above rest) := by
  unfold treeSteps
  rw [Forest.visits_tree, List.flatMap_cons, List.flatMap_append]

/-- A walk over trees reports them, and comes back to the depth it was at with what it had
recorded there. -/
theorem Lies.tokens (h : Sound m b) {forest : Forest Label} (hlies : Lies m b offset forest stop)
    {above : Above} (hw : w.offset = offset) (hend : w.stop = b.structEnd) (hle : stop ≤ w.stop)
    (d : Fin maxDepth) (hd : d.val = w.depth) (hnames : above.names.length = w.depth)
    (hcells : w.cells d = above.cells) (hheight : w.depth + forest.height < maxDepth) :
    ∃ cells, (∀ i : Fin maxDepth, i.val ≤ w.depth → cells i = w.cells i) ∧
      ∀ steps, ({ w with offset := stop, cells } : Walker).Tokens m b steps →
        w.Tokens m b (treeSteps above forest ++ steps) := by
  induction hlies generalizing w above d with
  | nil offset =>
    subst hw
    exact ⟨w.cells, fun _ _ => rfl, fun _ hrest => hrest⟩
  | @tree offset inner last close stop label children rest hnops hbegin hname hproperties hchildren
      hnops' hclose hrest ihc ihr =>
    have hle₁ := hproperties.le
    have hle₂ := hchildren.le
    have hle₃ := hnops'.le
    have hle₄ := hrest.le
    have hpad := le_padded (label.offset + 4 + label.name.length + 1)
    have hbytes := hname.has.le
    rw [List.length_append, List.length_singleton] at hbytes
    unfold Forest.height at hheight
    have hafter : align4 (label.offset + 4 + label.name.length + 1) =
        padded (label.offset + 4 + label.name.length + 1) :=
      Blob.align4_eq_padded h (by omega)
    -- into the node: what it declares is recorded one level down
    obtain ⟨d', hd'⟩ : ∃ d' : Fin maxDepth, d'.val = w.depth + 1 := ⟨⟨w.depth + 1, by omega⟩, rfl⟩
    let cells' := Function.update w.cells d' (declared defaultCells label.properties)
    obtain ⟨cells₁, hcells₁, hchildren⟩ := @ihc
      { w with offset := inner, depth := w.depth + 1, cells := cells' } (above.down label) rfl hend
      (by simp only; omega) d' hd' (by simp [hnames])
      (Function.update_self _ _ _) (by simp only; omega)
    have hsame : ∀ i : Fin maxDepth, i.val ≤ w.depth → cells₁ i = w.cells i := by
      intro i hi
      rw [hcells₁ i (by simp only; omega)]
      exact Function.update_of_ne (fun heq => by omega) _ _
    obtain ⟨cells₂, hcells₂, hrest⟩ := @ihr
      { w with offset := close + 4, cells := cells₁ } above rfl hend hle d hd hnames
      ((hsame d (Nat.le_of_eq hd)).trans hcells) (by simp only; omega)
    refine ⟨cells₂, fun i hi => (hcells₂ i hi).trans (hsame i hi), fun steps hsteps => ?_⟩
    -- out of the node: a token closes it
    have hclosed : ({ w with offset := close, depth := w.depth + 1, cells := cells₁ } : Walker).Tokens
        m b (treeSteps above rest ++ steps) := by
      refine .skip (h.turn_of ?_ (.close (hclose.gives h) (Nat.succ_pos _))) (hrest steps hsteps)
      simp only
      omega
    have hlater : ({ w with offset := last, depth := w.depth + 1, cells := cells₁ } : Walker).Tokens
        m b (treeSteps above rest ++ steps) :=
      hnops'.tokens h rfl (by simp only; omega) hclosed
    -- the properties come before the children
    have hinner : ({ w with
        offset := padded (label.offset + 4 + label.name.length + 1)
        depth := w.depth + 1
        cells := Function.update w.cells d' defaultCells } : Walker).Tokens m b
        (label.properties.map (fun property => .property property.1 property.2) ++
          (treeSteps (above.down label) children ++ (treeSteps above rest ++ steps))) := by
      refine hproperties.tokens h rfl (by simp only; omega) d' hd' (Nat.succ_pos _) ?_
      simp only [Function.update_self, Function.update_idem]
      exact hchildren _ hlater
    rw [← hafter] at hinner
    have hname' : Gives (b.strAt m (label.offset + 4) w.stop) label.name := hend ▸ hname.gives h
    have hnode : nodeOf ⟨above, label, children⟩ =
        ⟨label.offset, w.depth + 1, (w.cells d).1, (w.cells d).2⟩ := by
      simp only [nodeOf, hnames, hcells]
    rw [treeSteps_tree, List.append_assoc, List.append_assoc]
    refine hnops.tokens h hw (by omega) ?_
    unfold stepsOf
    rw [hnode]
    refine .give (h.turn_of ?_ (.opening d d' hd hd' (hbegin.gives h) hname')) hinner
    simp only
    omega

/-- The last token of the block ends a walk. -/
theorem Sound.turn_end (h : Sound m b) (hw : w.Sane b) (hend : b.WordAt m w.offset fdtEnd) :
    (w.turn m b).run = .ok none := by
  obtain ⟨o, ho, -⟩ := h.turn hw
  cases o with
  | none => exact ho
  | some r =>
    have hend := hend.gives h
    cases h.token_of_turn ho with
    | nop htoken => exact absurd (htoken.unique hend) (by decide)
    | close htoken _ => exact absurd (htoken.unique hend) (by decide)
    | opening _ _ _ _ htoken _ => exact absurd (htoken.unique hend) (by decide)
    | property hprop _ => exact absurd (hprop.token.unique hend) (by decide)

/-- A walk over a tree reports the tree. -/
theorem TreeLies.reports (h : Sound m b) {root : Forest Label} (htree : TreeLies m b root) :
    b.walk.Reports m b (treeSteps outside root) := by
  obtain ⟨last, stop, hlies, hnops, hend, hle⟩ := htree.lies
  have hstop : b.walk.stop = b.structEnd := h.walk_stop
  have hpast := hnops.le
  obtain ⟨cells, -, htokens⟩ := @Lies.tokens m b b.walk _ _ h _ hlies outside rfl hstop (by omega)
    ⟨0, Nat.succ_pos 15⟩ rfl rfl rfl (Nat.zero_add _ ▸ htree.height_lt)
  have hsane : ({ b.walk with offset := stop, cells } : Walker).Sane b := ⟨h.walk.stop_le, h.walk.depth_lt⟩
  have hdone := htokens [] (hnops.tokens h rfl (by simp only; omega) (.stop (h.turn_end hsane hend)))
  rw [List.append_nil] at hdone
  exact h.reports_of_tokens h.walk hdone

/-! ## Properties -/

/-- A node's name and properties, and something else behind them. -/
structure LabelLies (m : View) (b : Blob) (label : Label) : Prop where
  name : b.StringAt m (label.offset + 4) b.structEnd label.name
  properties : ∃ inner next token,
    PropertiesLie m b (padded (label.offset + 4 + label.name.length + 1)) label.properties inner ∧
      Nops m b inner next ∧ b.WordAt m next token ∧ token ≠ fdtNop ∧ token ≠ fdtProp

/-- Behind its properties a node has its first child, or closes. -/
theorem Lies.next {children : Forest Label} {last close : Nat}
    (hlies : Lies m b offset children last) (hnops : Nops m b last close)
    (hend : b.WordAt m close fdtEndNode) :
    ∃ next token, Nops m b offset next ∧ b.WordAt m next token ∧ token ≠ fdtNop ∧ token ≠ fdtProp := by
  cases hlies with
  | nil _ => exact ⟨close, _, hnops, hend, by decide, by decide⟩
  | tree hnops' hbegin _ _ _ _ _ _ => exact ⟨_, _, hnops', hbegin, by decide, by decide⟩

theorem Lies.label {forest : Forest Label} (hlies : Lies m b offset forest stop) {above : Above}
    {v : Visit Above Label} (hv : v ∈ forest.visits Above.down above) : LabelLies m b v.label := by
  induction hlies generalizing above with
  | nil _ => exact absurd hv List.not_mem_nil
  | tree hnops hbegin hname hproperties hchildren hnops' hend hrest ihc ihr =>
    rcases List.mem_cons.mp hv with rfl | hv
    · obtain ⟨next, token, hnext⟩ := hchildren.next hnops' hend
      exact ⟨hname, _, next, token, hproperties, hnext⟩
    · rcases List.mem_append.mp hv with hv | hv
      · exact ihc hv
      · exact ihr hv

theorem TreeLies.label {root : Forest Label} (htree : TreeLies m b root) {v : Visit Above Label}
    (hv : v ∈ root.visits Above.down outside) : LabelLies m b v.label := by
  obtain ⟨_, _, hlies, -⟩ := htree.lies
  exact hlies.label hv

theorem Nops.properties (h : Sound m b) {listed : List (List UInt8 × List UInt8)}
    (hnops : Nops m b offset stop) (hrest : Properties.Tokens m b stop listed) :
    Properties.Tokens m b offset listed := by
  induction hnops with
  | refl _ => exact hrest
  | nop hnop _ ih => exact .skip (h.propertiesTurn_of (.nop (hnop.gives h))) (ih hrest)

theorem PropertiesLie.properties (h : Sound m b) {properties listed : List (List UInt8 × List UInt8)}
    (hlies : PropertiesLie m b offset properties stop)
    (hrest : Properties.Tokens m b stop listed) :
    Properties.Tokens m b offset (properties ++ listed) := by
  induction hlies with
  | nil _ => exact hrest
  | @cons offset start stop name value properties hnops hprop _ ih =>
    have hafter : afterProperty start value = padded (start + 12 + value.length) :=
      Blob.align4_eq_padded h hprop.value.le
    refine hnops.properties h (.give (h.propertiesTurn_of (.property (hprop.propertyAt h))) ?_)
    rw [hafter]
    exact ih hrest

/-- At another token the properties end. -/
theorem Sound.propertiesTurn_end (h : Sound m b) {token : Nat} (hword : b.WordAt m offset token)
    (hnop : token ≠ fdtNop) (hprop : token ≠ fdtProp) :
    (Properties.turn m b offset).run = .ok none := by
  obtain ⟨o, ho, -⟩ := h.propertiesTurn offset
  cases o with
  | none => exact ho
  | some r =>
    have hword := hword.gives h
    cases propertyToken_of_turn ho with
    | nop htoken => exact absurd (hword.unique htoken) hnop
    | property hat => exact absurd (hword.unique hat.token) hprop

/-- `properties` goes through the properties of a node. -/
theorem LabelLies.properties_eq (h : Sound m b) {v : Visit Above Label}
    (hlies : LabelLies m b v.label) : ∃ start, b.properties m (nodeOf v) = .ok start ∧
      Properties.Lists m b start v.label.properties := by
  obtain ⟨inner, next, token, hproperties, hnops, hword, hnop, hprop⟩ := hlies.properties
  have hbytes := hlies.name.has.le
  have hsize := h.size_le
  have hstruct := h.struct_le
  rw [List.length_append, List.length_singleton] at hbytes
  rw [maxBlob_eq] at hsize
  have hname : Gives (b.strAt m (v.label.offset + 4) b.header.totalsize) v.label.name :=
    Blob.StringAt.gives ⟨hlies.name.has, by omega, hlies.name.nul, hlies.name.utf8⟩ h
  have hfits : ∀ k, k ≤ b.header.totalsize → k < u32Size := by
    intro k hk
    rw [u32Size_eq]
    omega
  have hlen : asU32 v.label.name.length = v.label.name.length :=
    Nat.mod_eq_of_lt (hfits _ (by omega))
  refine ⟨padded (v.label.offset + 4 + v.label.name.length + 1), ?_, ?_⟩
  · unfold Blob.properties nodeOf
    have hread : (b.strAt m (v.label.offset + 4) b.header.totalsize).run = .ok (some v.label.name) :=
      hname
    simp only [add32_ok (hfits (v.label.offset + 4) (by omega)), bind, Except.bind, hread, hlen,
      add32_ok (hfits (v.label.offset + 4 + v.label.name.length) (by omega)),
      add32_ok (hfits (v.label.offset + 4 + v.label.name.length + 1) (by omega)), pure, Except.pure]
    rw [Blob.align4_eq_padded h (by omega)]
  · have hend := h.propertiesTurn_end hword hnop hprop
    have htokens := hproperties.properties h (hnops.properties h (.stop hend))
    rw [List.append_nil] at htokens
    exact h.lists_of_tokens htokens

/-- `property` finds the first property of that name. -/
theorem LabelLies.property_eq (h : Sound m b) {v : Visit Above Label}
    (hlies : LabelLies m b v.label) (wanted : List UInt8) :
    b.property m (nodeOf v) wanted = .ok (v.label.lookup wanted) := by
  obtain ⟨start, hstart, hlists⟩ := hlies.properties_eq h
  exact h.property_eq hstart hlists

end Walks

end TheRack.Fdt
