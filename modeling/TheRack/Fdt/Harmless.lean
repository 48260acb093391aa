/-
  Fdt/Harmless.lean --- no blob can harm the parser.

  Of the memory around the blob nothing is known, so a load outside of it would
  be a crash.  Every function here is shown to come to an end without one: each
  of its loads was checked against `totalsize` first, and each of its loops
  moves an offset towards a bound.
-/
import TheRack.Fdt.MemoryMap
import TheRack.Lib.Bits

set_option autoImplicit false

namespace TheRack.Fdt

open Lib

/-- The blob is there, and its blocks lie inside it. -/
structure Sound (m : View) (b : Blob) : Prop where
  mapped : ∀ a, b.va ≤ a → a < b.va + b.header.totalsize → (m a).isSome = true
  va_pos : 0 < b.va
  va_lt : b.va + b.header.totalsize < u64Size
  size_le : b.header.totalsize ≤ maxBlob
  struct_le : b.header.offDtStruct + b.header.sizeDtStruct ≤ b.header.totalsize
  strings_le : b.header.offDtStrings + b.header.sizeDtStrings ≤ b.header.totalsize
  rsvmap_lt : b.header.offMemRsvmap < b.header.totalsize

section Loads

variable {m : View} {b : Blob}

theorem u32Size_eq : u32Size = 4294967296 := rfl
theorem maxBlob_eq : maxBlob = 1048576 := rfl

theorem ofBigEndian_lt (l : List UInt8) : ofBigEndian l < 256 ^ l.length := by
  unfold ofBigEndian
  suffices h : ∀ (l : List UInt8) (v k : Nat), v < 256 ^ k →
      l.foldl (fun value byte => value * 256 + byte.toNat) v < 256 ^ (k + l.length) by
    have h0 := h l 0 0 (by decide)
    rwa [Nat.zero_add] at h0
  intro l
  induction l with
  | nil => exact fun v k hv => hv
  | cons byte l ih =>
    intro v k hv
    have hbyte := byte.toNat_lt
    have hnext := ih (v * 256 + byte.toNat) (k + 1) (by rw [Nat.pow_succ]; omega)
    rwa [List.length_cons, ← Nat.add_assoc, Nat.add_right_comm]

/-- The bytes of the blob are there to load. -/
theorem Sound.loadBytes (h : Sound m b) : ∀ (n offset : Nat), offset + n ≤ b.header.totalsize →
    Succeeds (Fdt.loadBytes m (b.va + offset) n) fun l => l.length = n := by
  intro n
  induction n with
  | zero => exact fun _ _ => .ok rfl
  | succ n ih =>
    intro offset hle
    obtain ⟨byte, hbyte⟩ := Option.isSome_iff_exists.mp
      (h.mapped (b.va + offset) (by omega) (by omega))
    obtain ⟨rest, hrest, hlen⟩ := ih (offset + 1) (by omega)
    refine ⟨byte :: rest, ?_, congrArg (· + 1) hlen⟩
    unfold Fdt.loadBytes Fdt.load
    rw [hbyte]
    show (Fdt.loadBytes m (b.va + (offset + 1)) n >>= fun rest => .ok (byte :: rest)) = _
    rw [hrest]
    rfl

theorem Sound.be32 (h : Sound m b) {offset : Nat} (hle : offset + 4 ≤ b.header.totalsize) :
    Succeeds (Fdt.be32 m b.va offset) fun v => v < u32Size := by
  have hlt := h.va_lt
  unfold Fdt.be32
  rw [add64_ok (by omega)]
  show Succeeds (Fdt.loadBytes m (b.va + offset) 4 >>= fun l => .ok (ofBigEndian l)) _
  refine Succeeds.bind (h.loadBytes 4 offset hle) fun l hl => ?_
  have hvalue := ofBigEndian_lt l
  rw [hl] at hvalue
  exact .ok hvalue

theorem checkedAdd32_eq {a c d : Nat} (h : checkedAdd32 a c = some d) :
    d = a + c ∧ a + c < u32Size := by
  unfold checkedAdd32 at h
  split at h
  · exact ⟨(Option.some.inj h).symm, ‹_›⟩
  · exact nomatch h

theorem add32_ok {a c : Nat} (h : a + c < u32Size) : add32 a c = .ok (a + c) := if_pos h

theorem Sound.u32At (h : Sound m b) (offset : Nat) :
    Finds (b.u32At m offset) fun v => offset + 4 ≤ b.header.totalsize ∧ v < u32Size := by
  unfold Blob.u32At
  refine Finds.option fun stop hstop => ?_
  obtain ⟨rfl, -⟩ := checkedAdd32_eq hstop
  refine Finds.checked fun hle => ?_
  exact (Finds.ofSucceeds (h.be32 (by omega))).mono fun v hv => ⟨by omega, hv⟩

theorem Sound.u64At (h : Sound m b) (offset : Nat) :
    Finds (b.u64At m offset) fun _ => offset + 8 ≤ b.header.totalsize := by
  have hsize := h.size_le
  rw [maxBlob_eq] at hsize
  unfold Blob.u64At
  refine Finds.bind (h.u32At offset) fun high hhigh => ?_
  refine Finds.lift (add32_ok (by rw [u32Size_eq]; omega)) ?_
  exact Finds.bind (h.u32At (offset + 4)) fun low hlow => .pure (by omega)

theorem Sound.bytesAt (h : Sound m b) (offset len : Nat) :
    Finds (b.bytesAt m offset len) fun l => offset + len ≤ b.header.totalsize ∧ l.length = len := by
  have hlt := h.va_lt
  have hpos := h.va_pos
  unfold Blob.bytesAt
  refine Finds.option fun stop hstop => ?_
  obtain ⟨rfl, -⟩ := checkedAdd32_eq hstop
  refine Finds.checked fun hle => ?_
  refine Finds.lift (add64_ok (by omega)) ?_
  unfold fromRawParts
  rw [if_neg (by omega)]
  exact (Finds.ofSucceeds (h.loadBytes len offset (by omega))).mono fun l hl => ⟨by omega, hl⟩

theorem Sound.nulFrom (h : Sound m b) {limit : Nat} (hlimit : limit ≤ b.header.totalsize)
    (stop : Nat) : Finds (b.nulFrom m limit stop) fun e => stop ≤ e ∧ e < limit := by
  have hsize := h.size_le
  have hlt := h.va_lt
  rw [maxBlob_eq] at hsize
  induction hk : limit - stop using Nat.strongRecOn generalizing stop with
  | ind k ih =>
    unfold Blob.nulFrom
    split
    · rename_i hin
      refine Finds.lift (add64_ok (by omega)) ?_
      obtain ⟨byte, hbyte⟩ := Option.isSome_iff_exists.mp
        (h.mapped (b.va + stop) (by omega) (by omega))
      refine Finds.lift (a := byte) (by unfold load; rw [hbyte]) ?_
      split
      · exact .pure ⟨Nat.le_refl _, hin⟩
      · refine Finds.lift (add32_ok (by rw [u32Size_eq]; omega)) ?_
        exact (ih (limit - (stop + 1)) (by omega) (stop + 1) rfl).mono fun e he => by omega
    · exact .failure

theorem Sound.strAt (h : Sound m b) (offset limit : Nat) :
    Finds (b.strAt m offset limit) fun s =>
      offset + s.length < limit ∧ offset + s.length < b.header.totalsize := by
  unfold Blob.strAt
  refine Finds.checked fun _ => ?_
  refine Finds.bind (h.nulFrom (Nat.min_le_right _ _) offset) fun stop hstop => ?_
  refine Finds.bind (h.bytesAt offset (stop - offset)) fun bytes hbytes => ?_
  refine ⟨fromUtf8 bytes, rfl, fun s hs => ?_⟩
  unfold fromUtf8 at hs
  split at hs
  · obtain rfl := Option.some.inj hs
    omega
  · exact nomatch hs

theorem Sound.string (h : Sound m b) (nameOffset : Nat) :
    Finds (b.string m nameOffset) fun _ => True := by
  unfold Blob.string
  refine Finds.option fun start _ => Finds.option fun stop _ => ?_
  exact Finds.checked fun _ => (h.strAt start stop).mono fun _ _ => trivial

theorem align4_eq {offset : Nat} (h : offset + 3 < u32Size) :
    align4 offset = (offset + 3) / 4 * 4 := by
  unfold align4 saturatingAdd32
  rw [u32Size_eq] at h
  rw [Nat.min_eq_left (by rw [u32Size_eq]; omega)]
  exact and_high_mask (s := 2) (k := 30) (by omega)

theorem le_align4 {offset : Nat} (h : offset + 3 < u32Size) :
    offset ≤ align4 offset ∧ align4 offset ≤ offset + 3 := by
  rw [align4_eq h]
  omega

end Loads

/-! ## Cursors -/

/-- A cursor `walk` and `next` can lead to. -/
structure Walker.Sane (b : Blob) (w : Walker) : Prop where
  stop_le : w.stop ≤ b.header.totalsize
  depth_lt : w.depth < maxDepth

/-- A node `next` can return. -/
structure Node.Sane (b : Blob) (node : Node) : Prop where
  offset_le : node.offset + 4 ≤ b.header.totalsize
  depth_pos : 0 < node.depth
  depth_lt : node.depth < maxDepth

section Cursors

variable {m : View} {b : Blob} {w : Walker}

theorem Sound.walk (h : Sound m b) : b.walk.Sane b := by
  have hstruct := h.struct_le
  refine ⟨?_, Nat.succ_pos 15⟩
  show saturatingAdd32 _ _ ≤ _
  unfold saturatingAdd32
  omega

theorem level_ok {i : Nat} (h : i < maxDepth) : level i = .ok ⟨i, h⟩ := dif_pos h

theorem Walker.Sane.note (h : w.Sane b) (name value : List UInt8) :
    Succeeds (w.note name value) fun w' => w'.Sane b ∧ w'.offset = w.offset ∧ w'.stop = w.stop := by
  unfold Walker.note
  split
  · rw [level_ok h.depth_lt]
    split
    · split
      · exact .ok ⟨⟨h.stop_le, h.depth_lt⟩, rfl, rfl⟩
      · split
        · exact .ok ⟨⟨h.stop_le, h.depth_lt⟩, rfl, rfl⟩
        · exact .ok ⟨h, rfl, rfl⟩
    · exact .ok ⟨h, rfl, rfl⟩
  · exact .ok ⟨h, rfl, rfl⟩

/-- One token: the cursor moves on, and a node lies where it stood. -/
theorem Sound.turn (h : Sound m b) (hw : w.Sane b) :
    Finds (w.turn m b) fun r => r.2.Sane b ∧ w.offset < r.2.offset ∧ r.2.stop = w.stop ∧
      ∀ node name, r.1 = some (.node node name) → node.Sane b := by
  have hsize := h.size_le
  have hstop := hw.stop_le
  have hdepth := hw.depth_lt
  rw [maxBlob_eq] at hsize
  unfold Walker.turn
  refine Finds.checked fun hin => ?_
  refine Finds.bind (h.u32At w.offset) fun token htoken => ?_
  have hnext : add32 w.offset 4 = .ok (w.offset + 4) := add32_ok (by rw [u32Size_eq]; omega)
  split
  · refine Finds.lift hnext (.pure ⟨⟨hstop, hdepth⟩, by simp, rfl, fun _ _ h => nomatch h⟩)
  split
  · exact .failure
  split
  · -- a node opens
    refine Finds.lift hnext (Finds.bind (h.strAt _ w.stop) fun name hname => ?_)
    refine Finds.checked fun hdeep => ?_
    refine Finds.lift (level_ok (by omega)) (Finds.lift (level_ok hdepth) ?_)
    have hlen : asU32 name.length = name.length := Nat.mod_eq_of_lt (by rw [u32Size_eq]; omega)
    rw [hlen]
    refine Finds.lift (add32_ok (by rw [u32Size_eq]; omega))
      (Finds.lift (add32_ok (by rw [u32Size_eq]; omega)) ?_)
    obtain ⟨hle, -⟩ := @le_align4 (w.offset + 4 + name.length + 1)
      (by rw [u32Size_eq]; omega)
    refine .pure ⟨⟨hstop, by simp only; omega⟩, by simp only; omega, rfl, fun node' name' heq => ?_⟩
    obtain ⟨rfl, -⟩ := Step.node.inj (Option.some.inj heq)
    exact ⟨htoken.1, Nat.succ_pos _, by simp only; omega⟩
  split
  · -- a node closes
    refine Finds.checked fun _ => Finds.lift hnext ?_
    exact .pure ⟨⟨hstop, by simp only; omega⟩, by simp, rfl, fun _ _ h => nomatch h⟩
  split
  · refine Finds.lift hnext (Finds.bind (h.u32At _) fun len hlen => ?_)
    refine Finds.lift (add32_ok (by rw [u32Size_eq]; omega)) (Finds.bind (h.u32At _) fun nameOffset _ => ?_)
    refine Finds.lift (add32_ok (by rw [u32Size_eq]; omega)) (Finds.bind (h.bytesAt _ _) fun value hvalue => ?_)
    refine Finds.bind (h.string nameOffset) fun name _ => ?_
    refine Finds.lift (add32_ok (by rw [u32Size_eq]; omega)) ?_
    obtain ⟨hle, -⟩ := @le_align4 (w.offset + 12 + len) (by rw [u32Size_eq]; omega)
    have hsane : ({ w with offset := align4 (w.offset + 12 + len) } : Walker).Sane b :=
      ⟨hstop, hdepth⟩
    refine Finds.lifted (hsane.note name value) fun w' hw' => ?_
    refine .pure ⟨hw'.1, ?_, hw'.2.2, fun _ _ h => nomatch h⟩
    rw [hw'.2.1]
    simp only
    omega
  · exact .failure

/-- What `next` leads to: a step found further on, or the end, where it stays. -/
structure Stepped (m : View) (b : Blob) (w w' : Walker) (step : Option Step) : Prop where
  sane : w'.Sane b
  le : w.offset ≤ w'.offset
  found : step ≠ none → w.offset < w'.offset ∧ w.offset < b.header.totalsize
  ended : step = none → (w'.turn m b).run = .ok none
  node : ∀ node name, step = some (.node node name) → node.Sane b

/-- A token is consumed below the end of the structure block. -/
theorem lt_of_turn {r : Option Step × Walker} (h : (w.turn m b).run = .ok (some r)) :
    w.offset < w.stop := by
  by_contra hge
  have hfail : w.turn m b = failure := by
    unfold Walker.turn
    exact if_pos (by omega)
  rw [hfail] at h
  exact nomatch h

theorem Sound.nextUpTo (h : Sound m b) (n : Nat) : ∀ w : Walker, w.Sane b → w.stop - w.offset < n →
    Succeeds (w.nextUpTo m b n) fun r => Stepped m b w r.2 r.1 := by
  induction n with
  | zero => exact fun _ _ hlt => absurd hlt (Nat.not_lt_zero _)
  | succ n ih =>
    intro w hw hfuel
    unfold Walker.nextUpTo
    obtain ⟨o, ho, hturn⟩ := h.turn hw
    rw [ho]
    match o with
    | none => exact .ok ⟨hw, Nat.le_refl _, fun hne => absurd rfl hne, fun _ => ho, nofun⟩
    | some (some step, w') =>
      obtain ⟨hsane, hlt, -, hnode⟩ := hturn _ rfl
      have hin := lt_of_turn ho
      have hstop := hw.stop_le
      exact .ok ⟨hsane, Nat.le_of_lt hlt, fun _ => ⟨hlt, by omega⟩, nofun, hnode⟩
    | some (none, w') =>
      obtain ⟨hsane, hlt, hstop, -⟩ := hturn _ rfl
      have hlt : w.offset < w'.offset := hlt
      have hstop : w'.stop = w.stop := hstop
      -- a token consumed below the bound is a turn less to go
      have hin := lt_of_turn ho
      refine (ih w' hsane (by omega)).mono fun r hr => ?_
      have hle := hr.le
      exact ⟨hr.sane, by omega, fun hne => by have := hr.found hne; omega, hr.ended, hr.node⟩

theorem Sound.next (h : Sound m b) (hw : w.Sane b) :
    Succeeds (w.next m b) fun r => Stepped m b w r.2 r.1 :=
  h.nextUpTo _ w hw (Nat.lt_succ_self _)

/-- Once there is no next step there never is one. -/
theorem next_none (h : (w.turn m b).run = .ok none) : w.next m b = .ok (none, w) := by
  unfold Walker.next Walker.nextUpTo
  rw [h]
  rfl

theorem Walker.Sane.offset_lt {r : Option Step × Walker} (h : Sound m b) (hw : w.Sane b)
    (hr : (w.turn m b).run = .ok (some r)) : w.offset < r.2.offset :=
  ((h.turn hw).of_gives hr).2.1

/-- A loop over the steps comes to an end if its body does. -/
theorem Sound.scan {σ α : Type} {body : σ → Step → Except Crash (σ ⊕ α)} {I : σ → Prop} {Q : α → Prop}
    (h : Sound m b) (hbody : ∀ s step, I s → (∀ node name, step = .node node name → node.Sane b) →
      Succeeds (body s step) fun r => r.elim I Q) :
    ∀ (n : Nat) (w : Walker) (s : σ), w.Sane b → b.header.totalsize - w.offset < n → I s →
      Succeeds (w.scan m b body n s) fun r => r.elim I Q := by
  intro n
  induction n with
  | zero => exact fun _ _ _ hlt _ => absurd hlt (Nat.not_lt_zero _)
  | succ n ih =>
    intro w s hw hfuel hs
    unfold Walker.scan
    refine Succeeds.bind (h.next hw) fun r hr => ?_
    rcases r with ⟨_ | step, w'⟩
    · exact .ok hs
    · obtain ⟨hlt, hin⟩ := hr.found (Option.some_ne_none step)
      have hlt : w.offset < w'.offset := hlt
      refine Succeeds.bind (hbody s step hs fun node name heq => hr.node node name (heq ▸ rfl))
        fun r hr' => ?_
      rcases r with s' | a
      · exact ih w' s' hr.sane (by omega) hr'
      · exact .ok hr'

theorem Sound.scanAll {σ α : Type} {body : σ → Step → Except Crash (σ ⊕ α)} {I : σ → Prop}
    {Q : α → Prop} {s : σ} (h : Sound m b)
    (hbody : ∀ s step, I s → (∀ node name, step = .node node name → node.Sane b) →
      Succeeds (body s step) fun r => r.elim I Q) (hs : I s) :
    Succeeds (b.scan m body s) fun r => r.elim I Q :=
  h.scan hbody _ b.walk s h.walk (by omega) hs

end Cursors

/-! ## Properties -/

section Properties

variable {m : View} {b : Blob} {node : Node}

theorem Sound.propertiesTurn (h : Sound m b) (offset : Nat) :
    Finds (Properties.turn m b offset) fun r => offset < r.2 ∧ offset < b.header.totalsize := by
  have hsize := h.size_le
  rw [maxBlob_eq] at hsize
  unfold Properties.turn
  refine Finds.bind (h.u32At offset) fun token htoken => ?_
  have hnext : add32 offset 4 = .ok (offset + 4) := add32_ok (by rw [u32Size_eq]; omega)
  split
  · exact Finds.lift hnext (.pure ⟨by simp, by omega⟩)
  split
  · exact .failure
  refine Finds.lift hnext (Finds.bind (h.u32At _) fun len hlen => ?_)
  refine Finds.lift (add32_ok (by rw [u32Size_eq]; omega)) (Finds.bind (h.u32At _) fun nameOffset _ => ?_)
  refine Finds.lift (add32_ok (by rw [u32Size_eq]; omega)) (Finds.bind (h.bytesAt _ _) fun value hvalue => ?_)
  refine Finds.bind (h.string nameOffset) fun name _ => ?_
  refine Finds.lift (add32_ok (by rw [u32Size_eq]; omega)) ?_
  obtain ⟨hle, -⟩ := @le_align4 (offset + 12 + len) (by rw [u32Size_eq]; omega)
  exact .pure ⟨by simp only; omega, by omega⟩

theorem Sound.propertiesNextUpTo (h : Sound m b) (n : Nat) : ∀ offset : Nat,
    b.header.totalsize - offset < n →
    Succeeds (Properties.nextUpTo m b n offset) fun r =>
      r.1 ≠ none → offset < r.2 ∧ offset < b.header.totalsize := by
  induction n with
  | zero => exact fun _ hlt => absurd hlt (Nat.not_lt_zero _)
  | succ n ih =>
    intro offset hfuel
    unfold Properties.nextUpTo
    obtain ⟨o, ho, hturn⟩ := h.propertiesTurn offset
    rw [ho]
    match o with
    | none => exact .ok fun hne => absurd rfl hne
    | some (some property, offset') => exact .ok fun _ => hturn _ rfl
    | some (none, offset') =>
      obtain ⟨hlt, hin⟩ := hturn _ rfl
      have hlt : offset < offset' := hlt
      exact (ih offset' (by omega)).mono fun r hr hne => by have := hr hne; omega

theorem Sound.propertiesNext (h : Sound m b) (offset : Nat) :
    Succeeds (Properties.next m b offset) fun r =>
      r.1 ≠ none → offset < r.2 ∧ offset < b.header.totalsize :=
  h.propertiesNextUpTo _ offset (Nat.lt_succ_self _)

theorem Sound.find (h : Sound m b) (wanted : List UInt8) (n : Nat) : ∀ offset : Nat,
    b.header.totalsize - offset < n → Succeeds (Properties.find m b wanted n offset) fun _ => True := by
  induction n with
  | zero => exact fun _ hlt => absurd hlt (Nat.not_lt_zero _)
  | succ n ih =>
    intro offset hfuel
    unfold Properties.find
    refine Succeeds.bind (h.propertiesNext offset) fun r hr => ?_
    match r with
    | (none, offset') => exact .ok trivial
    | (some (name, value), offset') =>
      obtain ⟨hlt, hin⟩ := hr (Option.some_ne_none _)
      have hlt : offset < offset' := hlt
      show Succeeds (if name = wanted then _ else _) _
      split
      · exact .ok trivial
      · exact ih offset' (by omega)

theorem Sound.properties (h : Sound m b) (hnode : node.Sane b) :
    Succeeds (b.properties m node) fun _ => True := by
  have hsize := h.size_le
  have hle := hnode.offset_le
  rw [maxBlob_eq] at hsize
  unfold Blob.properties
  refine Succeeds.step (add32_ok (by rw [u32Size_eq]; omega))
    (Succeeds.bind (h.strAt _ _).run fun o ho => ?_)
  match o with
  | none => exact .ok trivial
  | some name =>
    have hlt := (ho name rfl).2
    have hlen : asU32 name.length = name.length := Nat.mod_eq_of_lt (by rw [u32Size_eq]; omega)
    simp only [hlen]
    exact Succeeds.step (add32_ok (by rw [u32Size_eq]; omega))
      (Succeeds.step (add32_ok (by rw [u32Size_eq]; omega)) (.ok trivial))

theorem Sound.property (h : Sound m b) (hnode : node.Sane b) (name : List UInt8) :
    Succeeds (b.property m node name) fun _ => True :=
  Succeeds.bind (h.properties hnode) fun offset _ => h.find name _ offset (by omega)

theorem Sound.reg (h : Sound m b) (hnode : node.Sane b) (index : Nat) :
    Finds (b.reg m node index) fun _ => node.addressCells ≤ 2 ∧ node.sizeCells ≤ 2 := by
  unfold Blob.reg
  refine Finds.checked fun hcells => ?_
  refine Finds.bind (P := fun _ => True) ?_ fun value _ => ?_
  · obtain ⟨o, ho, -⟩ := h.property hnode (bytesOf "reg")
    exact ⟨o, ho, fun _ _ => trivial⟩
  refine Finds.option fun start _ => Finds.option fun stop _ => ?_
  refine Finds.checked fun _ => Finds.option fun address _ => Finds.option fun size _ => ?_
  exact .pure (by omega)

end Properties

/-! ## Searches -/

section Searches

variable {m : View} {b : Blob}

theorem Node.Sane.matched {node : Node} (h : node.Sane b) (path : List UInt8)
    (onPath : Fin maxDepth → Bool) (name : List UInt8) :
    Succeeds (Blob.matched path onPath node name) fun _ => True := by
  have hpos := h.depth_pos
  have hlt := h.depth_lt
  unfold Blob.matched
  split
  · exact .ok trivial
  · refine Succeeds.step (sub64_ok (by omega)) ?_
    split
    · exact Succeeds.step (level_ok (by omega)) (.ok trivial)
    · exact .ok trivial

theorem Sound.findNode (h : Sound m b) (path : List UInt8) :
    Succeeds (b.findNode m path) fun o => ∀ node, o = some node → node.Sane b := by
  unfold Blob.findNode
  refine Succeeds.bind (h.scanAll (I := fun _ => True) (Q := fun node => node.Sane b)
    (fun onPath step _ hstep => ?_) trivial) fun r hr => ?_
  · match step with
    | .property _ _ => exact .ok trivial
    | .node node name =>
      have hnode := hstep node name rfl
      refine Succeeds.bind (hnode.matched path onPath name) fun matched _ => ?_
      · refine Succeeds.step (level_ok hnode.depth_lt) ?_
        split
        · exact .ok hnode
        · exact .ok trivial
  · match r with
    | .inl _ => exact .ok nofun
    | .inr node => exact .ok fun node' heq => Option.some.inj heq ▸ hr

theorem Sound.findCompatibleAfter (h : Sound m b) (wanted : List UInt8) (offset : Nat) :
    Succeeds (b.findCompatibleAfter m wanted offset) fun o => ∀ node, o = some node → node.Sane b := by
  unfold Blob.findCompatibleAfter
  refine Succeeds.bind (h.scanAll (I := fun _ => True) (Q := fun node => node.Sane b)
    (fun _ step _ hstep => ?_) trivial) fun r hr => ?_
  · match step with
    | .property _ _ => exact .ok trivial
    | .node node name =>
      simp only
      split
      · exact .ok trivial
      · refine Succeeds.bind (h.property (hstep node name rfl) _) fun o _ => ?_
        match o with
        | none => exact .ok trivial
        | some list =>
          simp only
          split
          · exact .ok (hstep node name rfl)
          · exact .ok trivial
  · match r with
    | .inl _ => exact .ok nofun
    | .inr node => exact .ok fun node' heq => Option.some.inj heq ▸ hr

theorem Sound.reserveBlock (h : Sound m b) (n : Nat) : ∀ (offset : Nat) (map : MemoryMap),
    offset ≤ b.header.totalsize → b.header.totalsize - offset < n →
      Succeeds (b.reserveBlock m n offset map) fun _ => True := by
  have hsize := h.size_le
  rw [maxBlob_eq] at hsize
  induction n with
  | zero => exact fun _ _ _ hlt => absurd hlt (Nat.not_lt_zero _)
  | succ n ih =>
    intro offset map hin hfuel
    unfold Blob.reserveBlock
    refine Succeeds.bind (h.u64At offset).run fun base _ => ?_
    refine Succeeds.step (add32_ok (by rw [u32Size_eq]; omega)) ?_
    refine Succeeds.bind (h.u64At (offset + 8)).run fun size hsize => ?_
    rcases base with _ | base
    · exact .ok trivial
    rcases size with _ | size
    · exact .ok trivial
    · have hle : offset + 8 + 8 ≤ b.header.totalsize := hsize size rfl
      simp only
      split
      · exact .ok trivial
      · exact Succeeds.step (add32_ok (by rw [u32Size_eq]; omega))
          (ih (offset + 16) _ (by omega) (by omega))

theorem Sound.childTurn (h : Sound m b) (parent : Node) (map : MemoryMap) (step : Step)
    (hstep : ∀ node name, step = .node node name → node.Sane b) :
    Succeeds (b.childTurn m parent map step) fun r => r.elim (fun _ => True) fun _ => True := by
  match step with
  | .property _ _ => exact .ok trivial
  | .node node name =>
    unfold Blob.childTurn
    simp only
    split
    · exact .ok trivial
    split
    · exact .ok trivial
    split
    · refine Succeeds.bind (h.reg (hstep node name rfl) 0).run fun o _ => ?_
      match o with
      | none => exact .ok trivial
      | some (base, size) => exact .ok trivial
    · exact .ok trivial

theorem Sound.banks (h : Sound m b) {memory : Node} (hnode : memory.Sane b)
    (hcells : memory.addressCells ≤ 2 ∧ memory.sizeCells ≤ 2) :
    Succeeds (b.banks m memory) fun _ => True := by
  unfold Blob.banks
  refine Succeeds.bind (h.property hnode _) fun o _ => ?_
  match o with
  | none => exact .ok trivial
  | some value =>
    refine Succeeds.step (add32_ok (by rw [u32Size_eq]; omega)) ?_
    have hlt : (memory.addressCells + memory.sizeCells) * 4 < u32Size := by
      rw [u32Size_eq]
      omega
    exact Succeeds.step (if_pos hlt) (.ok trivial)

theorem Sound.reserveChildren (h : Sound m b) (map : MemoryMap) :
    Succeeds (b.reserveChildren m map) fun _ => True := by
  unfold Blob.reserveChildren
  refine Succeeds.bind (h.findNode _) fun o _ => ?_
  match o with
  | none => exact .ok trivial
  | some parent =>
    refine Succeeds.bind (h.scanAll (I := fun _ => True) (Q := fun _ => True)
      (fun map step _ hstep => h.childTurn parent map step hstep) trivial) fun r _ => ?_
    match r with
    | .inl _ => exact .ok trivial
    | .inr _ => exact .ok trivial

theorem Sound.takeMemory (h : Sound m b) (map : MemoryMap) :
    Succeeds (b.takeMemory m map) fun _ => True := by
  unfold Blob.takeMemory
  refine Succeeds.bind (h.findNode _) fun o ho => ?_
  match o with
  | none => exact .ok trivial
  | some memory =>
    have hnode := ho memory rfl
    refine Succeeds.bind (h.reg hnode 0).run fun o ho => ?_
    match o with
    | none => exact .ok trivial
    | some (base, size) =>
      simp only
      split
      · exact Succeeds.bind (h.banks hnode (ho _ rfl)) fun _ _ => .ok trivial
      · exact .ok trivial

theorem Sound.memoryMap (h : Sound m b) : Succeeds (b.memoryMap m) fun _ => True := by
  have hrsvmap := h.rsvmap_lt
  unfold Blob.memoryMap
  refine Succeeds.bind (h.reserveBlock _ _ _ (by omega) (by omega)) fun map _ => ?_
  exact Succeeds.bind (h.reserveChildren map) fun map _ => h.takeMemory map

end Searches

/-! ## Hostile blobs -/

theorem le_of_endsInside {totalsize offset size : Nat}
    (h : endsInside totalsize offset size = true) : offset + size ≤ totalsize := by
  unfold endsInside at h
  split at h
  · rename_i stop hstop
    obtain ⟨rfl, -⟩ := checkedAdd32_eq hstop
    exact of_decide_eq_true h
  · exact nomatch h

/-- What `probe` has read and checked when it accepts. -/
structure Probed (m : View) (va : Nat) (header : Header) : Prop where
  va_ne : va ≠ 0
  aligned : va % 8 = 0
  magic_eq : be32 m va 0 = .ok magic
  totalsize_eq : be32 m va 4 = .ok header.totalsize
  size_ge : headerSize ≤ header.totalsize
  size_le : header.totalsize ≤ maxBlob
  struct_le : header.offDtStruct + header.sizeDtStruct ≤ header.totalsize
  strings_le : header.offDtStrings + header.sizeDtStrings ≤ header.totalsize
  rsvmap_lt : header.offMemRsvmap < header.totalsize

theorem probed {m : View} {va : Nat} {header : Header} (h : probe m va = .ok (.ok header)) :
    Probed m va header := by
  unfold probe at h
  split at h
  · exact nomatch Except.ok.inj h
  rename_i hva
  split at h
  · exact nomatch Except.ok.inj h
  rename_i haligned
  obtain ⟨magic', hread, h⟩ := of_bind_ok h
  split at h
  · exact nomatch Except.ok.inj h
  rename_i hmagic
  obtain rfl := Decidable.not_not.mp hmagic
  obtain ⟨totalsize, hsize, h⟩ := of_bind_ok h
  split at h
  · exact nomatch Except.ok.inj h
  rename_i hmin
  split at h
  · exact nomatch Except.ok.inj h
  rename_i hmax
  obtain ⟨offDtStruct, -, h⟩ := of_bind_ok h
  obtain ⟨offDtStrings, -, h⟩ := of_bind_ok h
  obtain ⟨offMemRsvmap, -, h⟩ := of_bind_ok h
  obtain ⟨version, -, h⟩ := of_bind_ok h
  obtain ⟨lastCompVersion, -, h⟩ := of_bind_ok h
  obtain ⟨bootCpuidPhys, -, h⟩ := of_bind_ok h
  obtain ⟨sizeDtStrings, -, h⟩ := of_bind_ok h
  obtain ⟨sizeDtStruct, -, h⟩ := of_bind_ok h
  simp only at h
  split at h
  · exact nomatch Except.ok.inj h
  split at h
  · exact nomatch Except.ok.inj h
  rename_i hblocks
  obtain ⟨hstruct, hstrings, hrsvmap⟩ := not_or.mp hblocks |>.imp_right not_or.mp
  obtain rfl := Except.ok.inj (Except.ok.inj h)
  exact ⟨hva, Decidable.not_not.mp haligned, hread, hsize, Nat.not_lt.mp hmin, Nat.not_lt.mp hmax,
    le_of_endsInside (by simpa using hstruct), le_of_endsInside (by simpa using hstrings),
    Nat.not_le.mp hrsvmap⟩

/-- What `probe` accepts, in a memory in which there is nothing but the blob. -/
theorem Sound.of_probe {m : View} {va pa : Nat} {header : Header}
    (h : probe m va = .ok (.ok header)) (hlt : va + header.totalsize < u64Size)
    (hblob : ∀ a, (m a).isSome = true ↔ va ≤ a ∧ a < va + header.totalsize) :
    Sound m ⟨pa, va, header⟩ where
  mapped a h1 h2 := (hblob a).mpr ⟨h1, h2⟩
  va_pos := Nat.pos_of_ne_zero (probed h).va_ne
  va_lt := hlt
  size_le := (probed h).size_le
  struct_le := (probed h).struct_le
  strings_le := (probed h).strings_le
  rsvmap_lt := (probed h).rsvmap_lt

/-- The cursors of a walk: between two calls of `next`, and between two tokens. -/
inductive Cursor (m : View) (b : Blob) : Walker → Prop
  | walk : Cursor m b b.walk
  | next {w w' : Walker} {step : Option Step} : Cursor m b w → w.next m b = .ok (step, w') →
      Cursor m b w'
  | turn {w w' : Walker} {step : Option Step} : Cursor m b w →
      (w.turn m b).run = .ok (some (step, w')) → Cursor m b w'

theorem Cursor.sane {m : View} {b : Blob} {w : Walker} (h : Sound m b) (hw : Cursor m b w) :
    w.Sane b := by
  induction hw with
  | walk => exact h.walk
  | next _ hnext ih =>
    obtain ⟨r, hr, hstepped⟩ := h.next ih
    obtain rfl := Except.ok.inj (hr.symm.trans hnext)
    exact hstepped.sane
  | turn _ hturn ih => exact ((h.turn ih).of_gives hturn).1

/-- What the parser does with a blob, whatever the blob is made of: it never crashes
and never hangs, its walk moves on with every token, and it stays at its end. -/
structure Harmless (m : View) (b : Blob) : Prop where
  next : ∀ w, Cursor m b w → ∃ step w', w.next m b = .ok (step, w') ∧ w.offset ≤ w'.offset ∧
    (step = none → w'.next m b = .ok (none, w')) ∧
    ∀ node name, step = some (.node node name) → node.Sane b
  token : ∀ w step w', Cursor m b w → (w.turn m b).run = .ok (some (step, w')) →
    w.offset < w'.offset
  properties : ∀ node : Node, node.Sane b → ∃ offset, b.properties m node = .ok offset
  next_property : ∀ offset, ∃ r, Properties.next m b offset = .ok r
  property : ∀ (node : Node) name, node.Sane b → ∃ value, b.property m node name = .ok value
  reg : ∀ (node : Node) index, node.Sane b → ∃ entry, (b.reg m node index).run = .ok entry
  findNode : ∀ path, ∃ o, b.findNode m path = .ok o ∧ ∀ node, o = some node → node.Sane b
  findCompatibleAfter : ∀ wanted offset, ∃ o, b.findCompatibleAfter m wanted offset = .ok o ∧
    ∀ node, o = some node → node.Sane b
  memoryMap : ∃ map, b.memoryMap m = .ok map

/-- A blob whose header `probe` accepts is harmless, with nothing to load beyond it. -/
theorem hostile_blobs_are_harmless {m : View} {va pa : Nat} {header : Header}
    (h : probe m va = .ok (.ok header)) (hlt : va + header.totalsize < u64Size)
    (hblob : ∀ a, (m a).isSome = true ↔ va ≤ a ∧ a < va + header.totalsize) :
    Harmless m ⟨pa, va, header⟩ := by
  have hsound : Sound m ⟨pa, va, header⟩ := Sound.of_probe h hlt hblob
  refine ⟨fun w hw => ?_, fun w step w' hw hturn => ?_, fun node hnode => ?_, fun offset => ?_,
    fun node name hnode => ?_, fun node index hnode => ?_, fun path => hsound.findNode path,
    fun wanted offset => hsound.findCompatibleAfter wanted offset, ?_⟩
  · obtain ⟨⟨step, w'⟩, hr, hstepped⟩ := hsound.next (hw.sane hsound)
    exact ⟨step, w', hr, hstepped.le, fun hnone => next_none (hstepped.ended hnone), hstepped.node⟩
  · exact (hw.sane hsound).offset_lt hsound hturn
  · obtain ⟨offset, hr, -⟩ := hsound.properties hnode
    exact ⟨offset, hr⟩
  · obtain ⟨r, hr, -⟩ := hsound.propertiesNext offset
    exact ⟨r, hr⟩
  · obtain ⟨value, hr, -⟩ := hsound.property hnode name
    exact ⟨value, hr⟩
  · obtain ⟨entry, hr, -⟩ := hsound.reg hnode index
    exact ⟨entry, hr⟩
  · obtain ⟨map, hr, -⟩ := hsound.memoryMap
    exact ⟨map, hr⟩

/-- The smallest tree: a root with nothing in it. -/
def emptyTree : List UInt8 :=
  [0xd0, 0x0d, 0xfe, 0xed, 0, 0, 0, 72, 0, 0, 0, 56, 0, 0, 0, 72, 0, 0, 0, 40,
   0, 0, 0, 17, 0, 0, 0, 16, 0, 0, 0, 0, 0, 0, 0, 0, 0, 0, 0, 16,
   0, 0, 0, 0, 0, 0, 0, 0, 0, 0, 0, 0, 0, 0, 0, 0,
   0, 0, 0, 1, 0, 0, 0, 0, 0, 0, 0, 2, 0, 0, 0, 9]

/-- A memory in which there is nothing but `bytes`, from `va` on. -/
def only (va : Nat) (bytes : List UInt8) : View := fun a =>
  if va ≤ a then bytes[a - va]? else none

theorem isSome_only (va : Nat) (bytes : List UInt8) (a : Nat) :
    (only va bytes a).isSome = true ↔ va ≤ a ∧ a < va + bytes.length := by
  unfold only
  split
  · rw [isSome_getElem?]
    omega
  · rename_i hlt
    exact ⟨fun h => (nomatch h), fun h => absurd h.1 hlt⟩

/-- A tree that breaks off in a property: its value and its name lie far outside, no node
is closed, and the reservations start at the last byte. -/
def brokenTree : List UInt8 :=
  [0xd0, 0x0d, 0xfe, 0xed, 0, 0, 0, 76, 0, 0, 0, 56, 0, 0, 0, 76, 0, 0, 0, 75,
   0, 0, 0, 17, 0, 0, 0, 16, 0, 0, 0, 0, 0, 0, 0, 0, 0, 0, 0, 20,
   0, 0, 0, 0, 0, 0, 0, 0, 0, 0, 0, 0, 0, 0, 0, 0,
   0, 0, 0, 1, 0, 0, 0, 0, 0, 0, 0, 3, 255, 255, 255, 255, 255, 255, 255, 255]

/-- `probe` accepts it, and asked for its first property the parser gives none. -/
theorem broken_tree_is_harmless : ∃ header node offset,
    probe (only 4096 brokenTree) 4096 = .ok (.ok header) ∧
      Blob.findNode (only 4096 brokenTree) ⟨0, 4096, header⟩ [47] = .ok (some node) ∧
      Blob.properties (only 4096 brokenTree) ⟨0, 4096, header⟩ node = .ok offset ∧
      (∃ offset', Properties.next (only 4096 brokenTree) ⟨0, 4096, header⟩ offset =
        .ok (none, offset')) ∧
      Harmless (only 4096 brokenTree) ⟨0, 4096, header⟩ := by
  have hprobe : probe (only 4096 brokenTree) 4096 =
      .ok (.ok ⟨76, 56, 76, 75, 17, 16, 0, 0, 20⟩) := by decide +kernel
  exact ⟨_, ⟨56, 1, 2, 1⟩, 64, hprobe, by decide +kernel, by decide +kernel,
    ⟨64, by decide +kernel⟩,
    hostile_blobs_are_harmless hprobe (by decide) (isSome_only 4096 brokenTree)⟩

end TheRack.Fdt
