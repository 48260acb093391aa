/-
  Fdt/Readers.lean --- the two readers of properties.

  A walk and the iterator behind `property` decode the same tokens from the same
  place, so they agree token by token.  They differ in where they stop: the walk
  at the end of the structure block, the iterator at the end of the blob.  So the
  iterator sees more as soon as properties run past the end of the block.
-/
import TheRack.Fdt.Steps

set_option autoImplicit false

namespace TheRack.Fdt

open Lib

/-! ## Runs of properties -/

section Runs

variable {m : View} {b : Blob} {offset stop : Nat} {name value : List UInt8}

/-- From one offset to another over properties and tokens that were deleted. -/
inductive Along (m : View) (b : Blob) : Nat → Nat → Prop
  | refl (offset : Nat) : Along m b offset offset
  | nop {offset offset' : Nat} (h : Gives (b.u32At m offset) fdtNop)
      (hrest : Along m b (offset + 4) offset') : Along m b offset offset'
  | property {offset offset' : Nat} {name value : List UInt8} (h : PropertyAt m b offset name value)
      (hrest : Along m b (afterProperty offset value) offset') : Along m b offset offset'

/-- The properties of the run from an offset on all lie below `stop`. -/
def Confined (m : View) (b : Blob) (stop start : Nat) : Prop :=
  ∀ offset name value, Along m b start offset → PropertyAt m b offset name value → offset < stop

theorem PropertyAt.unique {name' value' : List UInt8} (h : PropertyAt m b offset name value)
    (h' : PropertyAt m b offset name' value') : name = name' ∧ value = value' := by
  obtain ⟨-, len, nameOffset, hlen, hname, hvalue, hstring⟩ := h
  obtain ⟨-, len', nameOffset', hlen', hname', hvalue', hstring'⟩ := h'
  obtain rfl := hlen.unique hlen'
  obtain rfl := hname.unique hname'
  exact ⟨hstring.unique hstring', hvalue.unique hvalue'⟩

theorem PropertyAt.not_nop (h : PropertyAt m b offset name value)
    (hnop : Gives (b.u32At m offset) fdtNop) : False :=
  absurd (h.token.unique hnop) (by decide)

/-- Where no property token is read there is no run. -/
theorem confined_of_misses (h : Sound m b) (hturn : (Properties.turn m b offset).run = .ok none) :
    Confined m b stop offset := by
  have hnone : ∀ r, ¬ PropertyToken m b offset r := by
    intro r hr
    exact nomatch Except.ok.inj (hturn.symm.trans (h.propertiesTurn_of hr))
  intro offset' name value halong hprop
  cases halong with
  | refl => exact (hnone _ (.property hprop)).elim
  | nop hnop _ => exact (hnone _ (.nop hnop)).elim
  | property hprop' _ => exact (hnone _ (.property hprop')).elim

theorem confined_nop (h : Gives (b.u32At m offset) fdtNop) :
    Confined m b stop offset ↔ Confined m b stop (offset + 4) := by
  constructor
  · intro hconfined offset' name value halong hprop
    exact hconfined offset' name value (.nop h halong) hprop
  · intro hconfined offset' name value halong hprop
    cases halong with
    | refl => exact (hprop.not_nop h).elim
    | nop _ hrest => exact hconfined offset' name value hrest hprop
    | property hprop' _ => exact (hprop'.not_nop h).elim

theorem confined_property (h : PropertyAt m b offset name value) :
    Confined m b stop offset ↔ offset < stop ∧ Confined m b stop (afterProperty offset value) := by
  constructor
  · intro hconfined
    refine ⟨hconfined offset name value (.refl _) h, fun offset' name' value' halong hprop => ?_⟩
    exact hconfined offset' name' value' (.property h halong) hprop
  · rintro ⟨hlt, hconfined⟩ offset' name' value' halong hprop
    cases halong with
    | refl => exact hlt
    | nop hnop _ => exact (h.not_nop hnop).elim
    | property hprop' hrest =>
      obtain ⟨-, rfl⟩ := h.unique hprop'
      exact hconfined offset' name' value' hrest hprop

/-- Past the end of the block every property is one too many. -/
theorem confined_outside (h : Sound m b) {listed : List (List UInt8 × List UInt8)}
    (hlisted : Properties.Tokens m b offset listed) (hout : stop ≤ offset) :
    listed = [] ↔ Confined m b stop offset := by
  induction hlisted with
  | stop hturn => exact ⟨fun _ => confined_of_misses h hturn, fun _ => rfl⟩
  | skip hturn _ ih =>
    cases propertyToken_of_turn hturn with
    | nop hnop =>
      rw [confined_nop hnop]
      exact ih (by omega)
  | give hturn _ _ =>
    cases propertyToken_of_turn hturn with
    | property hprop =>
      rw [confined_property hprop]
      exact ⟨nofun, fun hconfined => absurd hconfined.1 (Nat.not_lt.mpr hout)⟩

end Runs

/-! ## Agreement -/

section Agreement

variable {m : View} {b : Blob} {w : Walker} {steps : List Step}
  {listed : List (List UInt8 × List UInt8)}

/-- The properties that stand before any other step. -/
def leading : List Step → List (List UInt8 × List UInt8)
  | .property name value :: steps => (name, value) :: leading steps
  | _ => []

/-- A walk past the end of the block is over. -/
theorem Walker.Tokens.nil_of_outside (h : w.Tokens m b steps) (hout : w.stop ≤ w.offset) :
    steps = [] := by
  cases h with
  | stop _ => rfl
  | skip hturn _ => exact absurd (lt_of_turn hturn) (Nat.not_lt.mpr hout)
  | give hturn _ => exact absurd (lt_of_turn hturn) (Nat.not_lt.mpr hout)

/-- Both readers, token by token, from one place. -/
theorem Sound.prefix_iff (h : Sound m b) {offset : Nat}
    (hlisted : Properties.Tokens m b offset listed) :
    ∀ (w : Walker) (steps : List Step), w.Sane b → w.offset = offset → w.Tokens m b steps →
      (listed <+: leading steps ↔ Confined m b w.stop offset) := by
  induction hlisted with
  | stop hturn =>
    intro w steps _ _ _
    exact ⟨fun _ => confined_of_misses h hturn, fun _ => List.nil_prefix⟩
  | @skip offset offset' listed hturn hrest ih =>
    intro w steps hw hoffset hsteps
    cases propertyToken_of_turn hturn with
    | nop hnop =>
      rcases Nat.lt_or_ge offset w.stop with hin | hout
      · have hnext := h.turn_of (w := w) (hoffset ▸ hin) (.nop (hoffset ▸ hnop))
        rw [confined_nop hnop]
        exact ih { w with offset := w.offset + 4 } steps ⟨hw.stop_le, hw.depth_lt⟩
          (congrArg (· + 4) hoffset) (hsteps.of_skip hnext)
      · obtain rfl := hsteps.nil_of_outside (hoffset ▸ hout)
        rw [← confined_outside h (.skip hturn hrest) hout]
        exact List.prefix_nil
  | @give offset offset' property listed hturn hrest ih =>
    intro w steps hw hoffset hsteps
    cases propertyToken_of_turn hturn with
    | @property name value hprop =>
      rcases Nat.lt_or_ge offset w.stop with hin | hout
      · have hsane : ({ w with offset := afterProperty w.offset value } : Walker).Sane b :=
          ⟨hw.stop_le, hw.depth_lt⟩
        obtain ⟨w', hnote, hsane', hoffset', hstop'⟩ := hsane.note name value
        have hnext := h.turn_of (w := w) (hoffset ▸ hin) (.property (hoffset ▸ hprop) hnote)
        obtain ⟨rest, rfl, hsteps'⟩ := hsteps.of_give hnext
        have hlater := ih w' rest hsane' (by rw [hoffset', hoffset]) hsteps'
        rw [leading, List.cons_prefix_cons, confined_property hprop, hlater, hstop']
        exact ⟨fun hall => ⟨hin, hall.2⟩, fun hall => ⟨rfl, hall.2⟩⟩
      · obtain rfl := hsteps.nil_of_outside (hoffset ▸ hout)
        rw [← confined_outside h (.give hturn hrest) hout]
        exact List.prefix_nil

/-- A string ends where it ends, however far one may read. -/
theorem nulFrom_mono {limit limit' stop e : Nat} (hle : limit ≤ limit')
    (h : Gives (b.nulFrom m limit stop) e) : Gives (b.nulFrom m limit' stop) e := by
  induction hk : limit - stop using Nat.strongRecOn generalizing stop with
  | ind k ih =>
    unfold Blob.nulFrom at h ⊢
    by_cases hin : stop < limit
    · rw [if_pos hin] at h
      rw [if_pos (Nat.lt_of_lt_of_le hin hle)]
      obtain ⟨ptr, hptr, h⟩ := h.of_lift
      obtain ⟨byte, hbyte, h⟩ := h.of_lift
      refine .lift hptr (.lift hbyte ?_)
      by_cases hnul : byte = 0
      · rw [if_pos hnul] at h ⊢
        exact h
      · rw [if_neg hnul] at h ⊢
        obtain ⟨next, hnext, h⟩ := h.of_lift
        exact .lift hnext (ih (limit - (stop + 1)) (by omega) h rfl)
    · rw [if_neg hin] at h
      exact h.of_failure.elim

theorem strAt_mono {offset limit : Nat} {name : List UInt8} (hle : limit ≤ b.header.totalsize)
    (h : Gives (b.strAt m offset limit) name) :
    Gives (b.strAt m offset b.header.totalsize) name := by
  unfold Blob.strAt at h ⊢
  rw [Nat.min_eq_left hle] at h
  rw [Nat.min_self]
  obtain ⟨hin, h⟩ := h.of_checked
  obtain ⟨stop, hstop, h⟩ := h.of_bind
  exact .checked (by omega) ((nulFrom_mono hle hstop).bind h)

/-- Where the properties of a node start that a walk reported. -/
theorem Sound.properties_eq (h : Sound m b) (hw : w.Sane b) {node : Node} {name : List UInt8}
    {w' : Walker} (hturn : Gives (w.turn m b) (some (.node node name), w')) :
    b.properties m node = .ok w'.offset ∧
      w'.offset = align4 (node.offset + 4 + name.length + 1) := by
  have hsize := h.size_le
  rw [maxBlob_eq] at hsize
  cases h.token_of_turn hturn with
  | opening parent d hparent hd htoken hname =>
    have hlt := (h.strAt (w.offset + 4) w.stop).of_gives hname
    have hread : (b.strAt m (w.offset + 4) b.header.totalsize).run = .ok (some name) :=
      strAt_mono hw.stop_le hname
    have hlen : asU32 name.length = name.length := Nat.mod_eq_of_lt (by rw [u32Size_eq]; omega)
    refine ⟨?_, rfl⟩
    unfold Blob.properties
    have hfits : ∀ k, k ≤ w.offset + 4 + name.length + 1 → k < u32Size := by
      intro k hk
      rw [u32Size_eq]
      omega
    simp only [add32_ok (hfits (w.offset + 4) (by omega)), bind, Except.bind, hread, hlen,
      add32_ok (hfits (w.offset + 4 + name.length) (by omega)), add32_ok (hfits _ (Nat.le_refl _)),
      pure, Except.pure]

/-- The properties of a node are those that the walk reports right after the node, up to
where the iterator ends; and what is looked up is among them. -/
def ReadersAgree (m : View) (b : Blob) (node : Node) (rest : List Step) : Prop :=
  ∃ offset listed, b.properties m node = .ok offset ∧ Properties.Lists m b offset listed ∧
    listed <+: leading rest ∧
    ∀ wanted value, b.property m node wanted = .ok (some value) → (wanted, value) ∈ leading rest

/-- The two readers agree on a node that a walk reports if and only if the properties that
follow it lie below the end of the structure block. -/
theorem readers_agree {va pa : Nat} {header : Header} (h : probe m va = .ok (.ok header))
    (hlt : va + header.totalsize < u64Size)
    (hblob : ∀ a, (m a).isSome = true ↔ va ≤ a ∧ a < va + header.totalsize) (before rest : List Step)
    {node : Node} {name : List UInt8}
    (hwalk : (Blob.walk ⟨pa, va, header⟩).Reports m ⟨pa, va, header⟩
      (before ++ .node node name :: rest)) :
    ReadersAgree m ⟨pa, va, header⟩ node rest ↔
      Confined m ⟨pa, va, header⟩ (header.offDtStruct + header.sizeDtStruct)
        (align4 (node.offset + 4 + name.length + 1)) := by
  have hsound : Sound m ⟨pa, va, header⟩ := Sound.of_probe h hlt hblob
  obtain ⟨w, w', ⟨hw, hstop⟩, hturn, hrest⟩ :=
    Turns.of_append (P := fun w => w.Sane ⟨pa, va, header⟩ ∧
        w.stop = header.offDtStruct + header.sizeDtStruct) (fun w r hw hr => by
      obtain ⟨hsane, -, hstop, -⟩ := (hsound.turn hw.1).of_gives hr
      exact ⟨hsane, hstop.trans hw.2⟩) ⟨hsound.walk, hsound.walk_stop⟩ (hsound.tokens hsound.walk hwalk)
  obtain ⟨hsane', -, hstop', -⟩ := (hsound.turn hw).of_gives hturn
  obtain ⟨hstart, hoffset⟩ := hsound.properties_eq hw hturn
  obtain ⟨listed, hlists, htokens, -⟩ := hsound.lists w'.offset
  have hprefix := hsound.prefix_iff htokens w' rest hsane' rfl hrest
  have hstop' : w'.stop = header.offDtStruct + header.sizeDtStruct := hstop'.trans hstop
  rw [hstop', hoffset] at hprefix
  constructor
  · rintro ⟨offset, listed', hstart', hlists', hagree, -⟩
    obtain rfl := Except.ok.inj (hstart.symm.trans hstart')
    obtain rfl := hlists.unique hlists'
    exact hprefix.mp hagree
  · intro hconfined
    have hagree := hprefix.mpr hconfined
    refine ⟨w'.offset, listed, hstart, hlists, hagree, fun wanted value hfound => ?_⟩
    rw [hsound.property_eq hstart hlists] at hfound
    obtain ⟨property, hfind, rfl⟩ := Option.map_eq_some_iff.mp (Except.ok.inj hfound)
    obtain rfl : property.1 = wanted := by simpa using List.find?_some hfind
    exact hagree.subset (List.mem_of_find?_eq_some hfind)

end Agreement

/-- A tree whose root has a `reg`, in the structure block. -/
def regTree : List UInt8 :=
  [0xd0, 0x0d, 0xfe, 0xed, 0, 0, 0, 92, 0, 0, 0, 56, 0, 0, 0, 88, 0, 0, 0, 40,
   0, 0, 0, 17, 0, 0, 0, 16, 0, 0, 0, 0, 0, 0, 0, 4, 0, 0, 0, 32,
   0, 0, 0, 0, 0, 0, 0, 0, 0, 0, 0, 0, 0, 0, 0, 0,
   0, 0, 0, 1, 0, 0, 0, 0, 0, 0, 0, 3, 0, 0, 0, 4, 0, 0, 0, 0, 64, 0, 0, 0,
   0, 0, 0, 2, 0, 0, 0, 9, 114, 101, 103, 0]

/-- Both find it. -/
theorem regTree_readers_agree :
    ∃ header node, probe (only 4096 regTree) 4096 = .ok (.ok header) ∧
      (Blob.walk ⟨0, 4096, header⟩).Reports (only 4096 regTree) ⟨0, 4096, header⟩
        [.node node [], .property (bytesOf "reg") [64, 0, 0, 0]] ∧
      Blob.property (only 4096 regTree) ⟨0, 4096, header⟩ node (bytesOf "reg") =
        .ok (some [64, 0, 0, 0]) ∧
      ReadersAgree (only 4096 regTree) ⟨0, 4096, header⟩ node
        [.property (bytesOf "reg") [64, 0, 0, 0]] := by
  have hprobe : probe (only 4096 regTree) 4096 =
      .ok (.ok ⟨92, 56, 88, 40, 17, 16, 0, 4, 32⟩) := by decide +kernel
  have hsound : Sound (only 4096 regTree) ⟨0, 4096, _⟩ :=
    Sound.of_probe hprobe (by decide) (isSome_only 4096 regTree)
  have hwalk := hsound.reports_of_scan
    [.node ⟨56, 1, 2, 1⟩ [], .property (bytesOf "reg") [64, 0, 0, 0]] (by decide +kernel)
  have hturn : (Properties.turn (only 4096 regTree)
      ⟨0, 4096, ⟨92, 56, 88, 40, 17, 16, 0, 4, 32⟩⟩ 64).run =
        .ok (some (some (bytesOf "reg", [64, 0, 0, 0]), 80)) := by decide +kernel
  refine ⟨_, _, hprobe, hwalk, by decide +kernel, ?_⟩
  refine (readers_agree hprobe (by decide) (isSome_only 4096 regTree) [] _ hwalk).mpr ?_
  cases propertyToken_of_turn hturn with
  | property hprop =>
    exact (confined_property hprop).mpr
      ⟨by decide, confined_of_misses hsound (by decide +kernel)⟩

/-- A tree whose structure block ends with the name of the root, and after it a `reg`. -/
def overrunTree : List UInt8 :=
  [0xd0, 0x0d, 0xfe, 0xed, 0, 0, 0, 84, 0, 0, 0, 56, 0, 0, 0, 80, 0, 0, 0, 40,
   0, 0, 0, 17, 0, 0, 0, 16, 0, 0, 0, 0, 0, 0, 0, 4, 0, 0, 0, 8,
   0, 0, 0, 0, 0, 0, 0, 0, 0, 0, 0, 0, 0, 0, 0, 0,
   0, 0, 0, 1, 0, 0, 0, 0, 0, 0, 0, 3, 0, 0, 0, 4, 0, 0, 0, 0, 64, 0, 0, 0,
   114, 101, 103, 0]

/-- The root of that tree has a `reg` for `property`, and no property for the walk. -/
theorem overrunTree_readers_disagree :
    ∃ header node, probe (only 4096 overrunTree) 4096 = .ok (.ok header) ∧
      (Blob.walk ⟨0, 4096, header⟩).Reports (only 4096 overrunTree) ⟨0, 4096, header⟩
        [.node node []] ∧
      Blob.property (only 4096 overrunTree) ⟨0, 4096, header⟩ node (bytesOf "reg") =
        .ok (some [64, 0, 0, 0]) ∧
      ¬ ReadersAgree (only 4096 overrunTree) ⟨0, 4096, header⟩ node [] := by
  have hprobe : probe (only 4096 overrunTree) 4096 =
      .ok (.ok ⟨84, 56, 80, 40, 17, 16, 0, 4, 8⟩) := by decide +kernel
  have hsound : Sound (only 4096 overrunTree) ⟨0, 4096, _⟩ :=
    Sound.of_probe hprobe (by decide) (isSome_only 4096 overrunTree)
  have hwalk := hsound.reports_of_scan [.node ⟨56, 1, 2, 1⟩ []] (by decide +kernel)
  have hreg : Blob.property (only 4096 overrunTree) ⟨0, 4096, ⟨84, 56, 80, 40, 17, 16, 0, 4, 8⟩⟩
      ⟨56, 1, 2, 1⟩ (bytesOf "reg") = .ok (some [64, 0, 0, 0]) := by decide +kernel
  refine ⟨_, _, hprobe, hwalk, hreg, ?_⟩
  rintro ⟨offset, listed, -, -, -, hfound⟩
  exact absurd (hfound _ _ hreg) List.not_mem_nil

end TheRack.Fdt
