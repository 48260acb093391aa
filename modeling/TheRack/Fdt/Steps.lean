/-
  Fdt/Steps.lean --- a walk as the list of its steps.

  `next` and the iterator of properties both loop over tokens, so both are cursors
  that yield a list.  A loop over a walk then is a loop over that list, and what a
  search finds can be said without a cursor.
-/
import TheRack.Fdt.Harmless
import TheRack.Lib.Iterator

set_option autoImplicit false

namespace TheRack.Fdt

open Lib

section Walks

variable {m : View} {b : Blob} {w : Walker} {steps : List Step}

/-- The steps a walk reports from a cursor on. -/
abbrev Walker.Reports (m : View) (b : Blob) (w : Walker) (steps : List Step) : Prop :=
  Yields (Walker.next m b) w steps

/-- The steps that tokens make from a cursor on. -/
abbrev Walker.Tokens (m : View) (b : Blob) (w : Walker) (steps : List Step) : Prop :=
  Turns (fun w => (w.turn m b).run) w steps

theorem Walker.nextUpTo_eq (n : Nat) (w : Walker) :
    w.nextUpTo m b n = turnUpTo (fun w => (w.turn m b).run) .hang n w := by
  induction n generalizing w with
  | zero => rfl
  | succ n ih =>
    unfold Walker.nextUpTo turnUpTo
    rcases (w.turn m b).run with c | _ | ⟨_ | step, w'⟩
    · rfl
    · rfl
    · exact ih w'
    · rfl

/-- A token leaves a sane cursor, closer to the end. -/
theorem Sound.turn_lt (h : Sound m b) (hw : w.Sane b) : ∃ r, (w.turn m b).run = .ok r ∧
    ∀ r', r = some r' → r'.2.Sane b ∧ r'.2.stop - r'.2.offset < w.stop - w.offset := by
  obtain ⟨r, hr, hturn⟩ := h.turn hw
  refine ⟨r, hr, fun r' heq => ?_⟩
  subst heq
  obtain ⟨hsane, hlt, hstop, -⟩ := hturn r' rfl
  have hin := lt_of_turn hr
  exact ⟨hsane, by omega⟩

/-- Where a walk ends. -/
theorem Sound.walk_stop (h : Sound m b) :
    b.walk.stop = b.header.offDtStruct + b.header.sizeDtStruct := by
  have hsize := h.size_le
  have hstruct := h.struct_le
  rw [maxBlob_eq] at hsize
  show saturatingAdd32 _ _ = _
  unfold saturatingAdd32
  rw [u32Size_eq]
  exact Nat.min_eq_left (by omega)

/-- What tokens make is what a walk reports. -/
theorem Sound.reports_of_tokens (h : Sound m b) (hw : w.Sane b) (htokens : w.Tokens m b steps) :
    w.Reports m b steps := by
  refine Turns.yields (Walker.Sane b) (fun w => w.stop - w.offset) (fun s r hs hr => ?_)
    (fun s _ => s.nextUpTo_eq _) hw htokens
  obtain ⟨r', hr', hnext⟩ := h.turn_lt hs
  exact hnext r (Except.ok.inj (hr'.symm.trans hr))

/-- A walk comes to its end, and the tokens are all it sees. -/
theorem Sound.reports (h : Sound m b) (hw : w.Sane b) :
    ∃ steps, w.Reports m b steps ∧ w.Tokens m b steps ∧ steps.length ≤ w.stop - w.offset := by
  obtain ⟨steps, htokens, hlen⟩ :=
    Turns.exists (Walker.Sane b) (fun w => w.stop - w.offset) (fun _ hs => h.turn_lt hs) hw
  exact ⟨steps, h.reports_of_tokens hw htokens, htokens, hlen⟩

theorem Sound.tokens (h : Sound m b) (hw : w.Sane b) (hsteps : w.Reports m b steps) :
    w.Tokens m b steps := by
  obtain ⟨steps', hreports, htokens, -⟩ := h.reports hw
  rwa [hsteps.unique hreports]

/-! ## Loops over a walk -/

/-- A loop over steps that are all there. -/
def overSteps {σ α : Type} (body : σ → Step → Except Crash (σ ⊕ α)) :
    List Step → σ → Except Crash (σ ⊕ α)
  | [], s => .ok (.inl s)
  | step :: steps, s => do
      match ← body s step with
      | .inl s' => overSteps body steps s'
      | .inr a => return .inr a

theorem scan_eq {σ α : Type} {body : σ → Step → Except Crash (σ ⊕ α)}
    (h : w.Reports m b steps) (n : Nat) (s : σ) (hn : steps.length < n) :
    w.scan m b body n s = overSteps body steps s := by
  induction h generalizing n s with
  | nil hnext =>
    obtain ⟨n, rfl⟩ := Nat.exists_eq_succ_of_ne_zero (Nat.ne_of_gt hn)
    unfold Walker.scan
    rw [hnext]
    rfl
  | @cons w w' step steps hnext _ ih =>
    obtain ⟨n, rfl⟩ := Nat.exists_eq_succ_of_ne_zero (Nat.ne_of_gt (Nat.zero_lt_of_lt hn))
    rw [List.length_cons] at hn
    unfold Walker.scan overSteps
    rw [hnext]
    simp only [bind, Except.bind]
    match body s step with
    | .error c => rfl
    | .ok (.inl s') => exact ih n s' (by omega)
    | .ok (.inr a) => rfl

/-- A loop over the whole walk is a loop over its steps. -/
theorem Sound.scan_steps {σ α : Type} {body : σ → Step → Except Crash (σ ⊕ α)} (h : Sound m b)
    (hsteps : b.walk.Reports m b steps) (s : σ) : b.scan m body s = overSteps body steps s := by
  have hstop := h.walk.stop_le
  obtain ⟨steps', hreports, -, hlen⟩ := h.reports h.walk
  obtain rfl := hsteps.unique hreports
  exact scan_eq hsteps _ s (by omega)

theorem overSteps_collect (steps seen : List Step) :
    overSteps (fun seen step => .ok (.inl (seen ++ [step]))) steps seen =
      .ok (.inl (seen ++ steps) : List Step ⊕ Unit) := by
  induction steps generalizing seen with
  | nil => rw [List.append_nil, overSteps]
  | cons step steps ih =>
    have hrest := ih (seen ++ [step])
    rwa [List.append_assoc, List.singleton_append] at hrest

/-- A walk can be run, and its steps collected. -/
theorem Sound.reports_of_scan (h : Sound m b) (steps : List Step)
    (hscan : b.scan m (fun seen step => .ok (.inl (seen ++ [step]))) [] =
      .ok (.inl steps : List Step ⊕ Unit)) : b.walk.Reports m b steps := by
  obtain ⟨steps', hreports, -, -⟩ := h.reports h.walk
  rw [h.scan_steps hreports, overSteps_collect, List.nil_append] at hscan
  obtain rfl := Sum.inl.inj (Except.ok.inj hscan)
  exact hreports

/-- One turn of the loop of `find_compatible_after`. -/
def Blob.compatibleTurn (m : View) (b : Blob) (wanted : List UInt8) (offset : Nat) :
    Unit → Step → Except Crash (Unit ⊕ Node)
  | _, .property _ _ => .ok (.inl ())
  | _, .node node _ =>
      if node.offset ≤ offset then .ok (.inl ())
      else do
        match ← b.property m node (bytesOf "compatible") with
        | some list => .ok (if stringListContains list wanted then .inr node else .inl ())
        | none => .ok (.inl ())

theorem findCompatibleAfter_eq_scan (wanted : List UInt8) (offset : Nat) :
    b.findCompatibleAfter m wanted offset =
      (b.scan m (b.compatibleTurn m wanted offset) ()).map fun r => r.elim (fun _ => none) some := by
  have hscan : ∀ body : Unit → Step → Except Crash (Unit ⊕ Node),
      (∀ s step, body s step = b.compatibleTurn m wanted offset s step) →
      b.scan m body () = b.scan m (b.compatibleTurn m wanted offset) () := by
    intro body hbody
    have heq : body = b.compatibleTurn m wanted offset := funext fun s => funext (hbody s)
    rw [heq]
  unfold Blob.findCompatibleAfter
  dsimp only
  rw [hscan]
  · rcases b.scan m (b.compatibleTurn m wanted offset) () with c | _ | node
    · rfl
    · rfl
    · rfl
  · intro _ step
    cases step <;> rfl

/-! ## The nodes of a walk -/

/-- The nodes among some steps. -/
def nodesOf (steps : List Step) : List Node :=
  steps.filterMap fun
    | .node node _ => some node
    | .property _ _ => none

@[simp] theorem nodesOf_nil : nodesOf [] = [] := rfl

@[simp] theorem nodesOf_node (node : Node) (name : List UInt8) (steps : List Step) :
    nodesOf (.node node name :: steps) = node :: nodesOf steps := rfl

@[simp] theorem nodesOf_property (name value : List UInt8) (steps : List Step) :
    nodesOf (.property name value :: steps) = nodesOf steps := rfl

end Walks

/-! ## Tokens -/

section Tokens

variable {m : View} {b : Blob} {w w' : Walker}

theorem add32_eq_ok {a c d : Nat} (h : add32 a c = .ok d) : d = a + c := by
  unfold add32 at h
  split at h
  · exact (Except.ok.inj h).symm
  · exact nomatch h

/-- There is a property at `offset`. -/
structure PropertyAt (m : View) (b : Blob) (offset : Nat) (name value : List UInt8) : Prop where
  token : Gives (b.u32At m offset) fdtProp
  fields : ∃ len nameOffset, Gives (b.u32At m (offset + 4)) len ∧
    Gives (b.u32At m (offset + 8)) nameOffset ∧ Gives (b.bytesAt m (offset + 12) len) value ∧
    Gives (b.string m nameOffset) name

/-- Where the token after a property is. -/
def afterProperty (offset : Nat) (value : List UInt8) : Nat := align4 (offset + 12 + value.length)

theorem loadBytes_length {n va : Nat} {l : List UInt8} (h : loadBytes m va n = .ok l) :
    l.length = n := by
  induction n generalizing va l with
  | zero =>
    obtain rfl := Except.ok.inj h
    rfl
  | succ n ih =>
    obtain ⟨byte, -, h⟩ := of_bind_ok h
    obtain ⟨rest, hrest, h⟩ := of_bind_ok h
    obtain rfl := Except.ok.inj h
    rw [List.length_cons, ih hrest]

theorem bytesAt_length {offset len : Nat} {l : List UInt8} (h : Gives (b.bytesAt m offset len) l) :
    l.length = len := by
  unfold Blob.bytesAt at h
  obtain ⟨stop, -, h⟩ := h.of_option
  obtain ⟨-, h⟩ := h.of_checked
  obtain ⟨ptr, -, h⟩ := h.of_lift
  unfold fromRawParts at h
  split at h
  · exact nomatch h
  · cases hload : loadBytes m ptr len with
    | error c =>
      rw [hload] at h
      exact nomatch h
    | ok l' =>
      rw [hload] at h
      obtain rfl := Gives.of_pure h
      exact loadBytes_length hload

/-- What follows a property token takes what was read of it. -/
theorem PropertyAt.of_reading {β : Type} {offset : Nat} {k : List UInt8 → List UInt8 → Nat → Try β}
    {r : β} (htoken : Gives (b.u32At m offset) fdtProp)
    (h : Gives (do
      let len ← b.u32At m (← Seek.lift (add32 offset 4))
      let nameOffset ← b.u32At m (← Seek.lift (add32 offset 8))
      let start ← Seek.lift (add32 offset 12)
      let value ← b.bytesAt m start len
      let name ← b.string m nameOffset
      let last ← Seek.lift (add32 start len)
      k name value last) r) :
    ∃ name value, PropertyAt m b offset name value ∧
      Gives (k name value (offset + 12 + value.length)) r := by
  obtain ⟨at4, h4, h⟩ := h.of_lift
  obtain ⟨len, hlen, h⟩ := h.of_bind
  obtain ⟨at8, h8, h⟩ := h.of_lift
  obtain ⟨nameOffset, hname, h⟩ := h.of_bind
  obtain ⟨start, hstart, h⟩ := h.of_lift
  obtain ⟨value, hvalue, h⟩ := h.of_bind
  obtain ⟨name, hstring, h⟩ := h.of_bind
  obtain ⟨last, hlast, h⟩ := h.of_lift
  obtain rfl := add32_eq_ok h4
  obtain rfl := add32_eq_ok h8
  obtain rfl := add32_eq_ok hstart
  obtain rfl := add32_eq_ok hlast
  obtain rfl := bytesAt_length hvalue
  exact ⟨name, value, ⟨htoken, _, _, hlen, hname, hvalue, hstring⟩, h⟩

theorem Sound.reading_of {β : Type} (h : Sound m b) {offset : Nat} {name value : List UInt8}
    {k : List UInt8 → List UInt8 → Nat → Try β} {r : β}
    (hprop : PropertyAt m b offset name value)
    (hk : Gives (k name value (offset + 12 + value.length)) r) :
    Gives (do
      let len ← b.u32At m (← Seek.lift (add32 offset 4))
      let nameOffset ← b.u32At m (← Seek.lift (add32 offset 8))
      let start ← Seek.lift (add32 offset 12)
      let value ← b.bytesAt m start len
      let name ← b.string m nameOffset
      let last ← Seek.lift (add32 start len)
      k name value last) r := by
  have hsize := h.size_le
  rw [maxBlob_eq] at hsize
  obtain ⟨-, len, nameOffset, hlen, hname, hvalue, hstring⟩ := hprop
  have hle := (h.bytesAt (offset + 12) len).of_gives hvalue
  have hfits : ∀ n, n ≤ offset + 12 + len → n < u32Size := by
    intro n hn
    rw [u32Size_eq]
    omega
  refine .lift (add32_ok (hfits _ (by omega))) (hlen.bind ?_)
  refine .lift (add32_ok (hfits _ (by omega))) (hname.bind ?_)
  refine .lift (add32_ok (hfits _ (by omega))) (hvalue.bind (hstring.bind ?_))
  refine .lift (add32_ok (hfits _ (by omega))) ?_
  rw [← hle.2]
  exact hk

/-- What one turn over the properties has read when it found something. -/
inductive PropertyToken (m : View) (b : Blob) (offset : Nat) :
    Option (List UInt8 × List UInt8) × Nat → Prop
  | nop (h : Gives (b.u32At m offset) fdtNop) : PropertyToken m b offset (none, offset + 4)
  | property {name value : List UInt8} (h : PropertyAt m b offset name value) :
      PropertyToken m b offset (some (name, value), afterProperty offset value)

theorem propertyToken_of_turn {offset : Nat} {r : Option (List UInt8 × List UInt8) × Nat}
    (h : Gives (Properties.turn m b offset) r) : PropertyToken m b offset r := by
  unfold Properties.turn at h
  obtain ⟨token, htoken, h⟩ := h.of_bind
  split at h
  · rename_i hnop
    subst hnop
    obtain ⟨next, hnext, h⟩ := h.of_lift
    obtain rfl := add32_eq_ok hnext
    obtain rfl := h.of_pure
    exact .nop htoken
  split at h
  · exact h.of_failure.elim
  rename_i hprop
  obtain rfl := Decidable.not_not.mp hprop
  obtain ⟨name, value, hread, h⟩ := PropertyAt.of_reading htoken h
  obtain rfl := h.of_pure
  exact .property hread

theorem Sound.propertiesTurn_of (h : Sound m b) {offset : Nat}
    {r : Option (List UInt8 × List UInt8) × Nat} (ht : PropertyToken m b offset r) :
    Gives (Properties.turn m b offset) r := by
  have hsize := h.size_le
  rw [maxBlob_eq] at hsize
  unfold Properties.turn
  cases ht with
  | nop htoken =>
    have hle := (h.u32At offset).of_gives htoken
    exact htoken.bind (.lift (add32_ok (by rw [u32Size_eq]; omega)) .pure)
  | property hprop => exact hprop.1.bind (h.reading_of hprop .pure)

/-- What one token of a walk is, when it is not the last one. -/
inductive Walker.Token (m : View) (b : Blob) (w : Walker) : Option Step × Walker → Prop
  | nop (h : Gives (b.u32At m w.offset) fdtNop) :
      Walker.Token m b w (none, { w with offset := w.offset + 4 })
  | close (h : Gives (b.u32At m w.offset) fdtEndNode) (hdepth : 0 < w.depth) :
      Walker.Token m b w (none, { w with offset := w.offset + 4, depth := w.depth - 1 })
  | opening {name : List UInt8} (parent d : Fin maxDepth) (hparent : parent.val = w.depth)
      (hd : d.val = w.depth + 1) (h : Gives (b.u32At m w.offset) fdtBeginNode)
      (hname : Gives (b.strAt m (w.offset + 4) w.stop) name) :
      Walker.Token m b w
        (some (.node ⟨w.offset, w.depth + 1, (w.cells parent).1, (w.cells parent).2⟩ name),
          { w with
            offset := align4 (w.offset + 4 + name.length + 1)
            depth := w.depth + 1
            cells := Function.update w.cells d defaultCells })
  | property {name value : List UInt8} {w' : Walker} (h : PropertyAt m b w.offset name value)
      (hnote : { w with offset := afterProperty w.offset value }.note name value = .ok w') :
      Walker.Token m b w (some (.property name value), w')

theorem level_eq_ok {i : Nat} {d : Fin maxDepth} (h : level i = .ok d) : d.val = i := by
  unfold level at h
  split at h
  · rw [← Except.ok.inj h]
  · exact nomatch h

theorem Sound.token_of_turn (h : Sound m b) {r : Option Step × Walker}
    (hr : Gives (w.turn m b) r) : w.Token m b r := by
  have hsize := h.size_le
  rw [maxBlob_eq] at hsize
  unfold Walker.turn at hr
  obtain ⟨-, hr⟩ := hr.of_checked
  obtain ⟨token, htoken, hr⟩ := hr.of_bind
  split at hr
  · rename_i hnop
    subst hnop
    obtain ⟨next, hnext, hr⟩ := hr.of_lift
    obtain rfl := add32_eq_ok hnext
    obtain rfl := hr.of_pure
    exact .nop htoken
  split at hr
  · exact hr.of_failure.elim
  split at hr
  · rename_i hbegin
    subst hbegin
    obtain ⟨start, hstart, hr⟩ := hr.of_lift
    obtain rfl := add32_eq_ok hstart
    obtain ⟨name, hname, hr⟩ := hr.of_bind
    obtain ⟨-, hr⟩ := hr.of_checked
    obtain ⟨d, hd, hr⟩ := hr.of_lift
    obtain ⟨parent, hparent, hr⟩ := hr.of_lift
    have hlt := (h.strAt (w.offset + 4) w.stop).of_gives hname
    have hlen : asU32 name.length = name.length := Nat.mod_eq_of_lt (by rw [u32Size_eq]; omega)
    rw [hlen] at hr
    obtain ⟨last, hlast, hr⟩ := hr.of_lift
    obtain ⟨last', hlast', hr⟩ := hr.of_lift
    obtain rfl := add32_eq_ok hlast
    obtain rfl := add32_eq_ok hlast'
    obtain rfl := hr.of_pure
    exact .opening parent d (level_eq_ok hparent) (level_eq_ok hd) htoken hname
  split at hr
  · rename_i hclose
    subst hclose
    obtain ⟨hdepth, hr⟩ := hr.of_checked
    obtain ⟨next, hnext, hr⟩ := hr.of_lift
    obtain rfl := add32_eq_ok hnext
    obtain rfl := hr.of_pure
    exact .close htoken (Nat.pos_of_ne_zero hdepth)
  split at hr
  · rename_i hprop
    subst hprop
    obtain ⟨name, value, hread, hr⟩ := PropertyAt.of_reading htoken hr
    obtain ⟨w', hnote, hr⟩ := hr.of_lift
    obtain rfl := hr.of_pure
    exact .property hread hnote
  · exact hr.of_failure.elim

/-- A token below the end of the block is read as what it is. -/
theorem Sound.turn_of (h : Sound m b) (hin : w.offset < w.stop)
    {r : Option Step × Walker} (ht : w.Token m b r) : Gives (w.turn m b) r := by
  have hsize := h.size_le
  rw [maxBlob_eq] at hsize
  unfold Walker.turn
  refine .checked (Nat.not_le.mpr hin) ?_
  cases ht with
  | nop htoken =>
    have hle := (h.u32At w.offset).of_gives htoken
    exact htoken.bind (.lift (add32_ok (by rw [u32Size_eq]; omega)) .pure)
  | close htoken hdepth =>
    have hle := (h.u32At w.offset).of_gives htoken
    have hclose : Gives (do
        if w.depth = 0 then failure
        let offset ← Seek.lift (add32 w.offset 4)
        return ((none : Option Step), { w with offset, depth := w.depth - 1 }))
        (none, { w with offset := w.offset + 4, depth := w.depth - 1 }) :=
      .checked (Nat.ne_of_gt hdepth) (.lift (add32_ok (by rw [u32Size_eq]; omega)) .pure)
    exact htoken.bind hclose
  | @opening name parent d hparent hd htoken hname =>
    have hlt := (h.strAt (w.offset + 4) w.stop).of_gives hname
    have hdeep := d.isLt
    have hlen : asU32 name.length = name.length := Nat.mod_eq_of_lt (by rw [u32Size_eq]; omega)
    have hparent' : level w.depth = .ok parent := by
      rw [level_ok (hparent ▸ parent.isLt)]
      exact congrArg Except.ok (Fin.ext hparent.symm)
    have hd' : level (w.depth + 1) = .ok d := by
      rw [level_ok (hd ▸ d.isLt)]
      exact congrArg Except.ok (Fin.ext hd.symm)
    refine htoken.bind (.lift (add32_ok (by rw [u32Size_eq]; omega)) (hname.bind ?_))
    refine .checked (by omega) (.lift hd' (.lift hparent' ?_))
    rw [hlen]
    exact .lift (add32_ok (by rw [u32Size_eq]; omega))
      (.lift (add32_ok (by rw [u32Size_eq]; omega)) .pure)
  | property hprop hnote => exact hprop.1.bind (h.reading_of hprop (.lift hnote .pure))

end Tokens

/-! ## The properties of a node -/

section Listed

variable {m : View} {b : Blob} {offset : Nat} {listed : List (List UInt8 × List UInt8)}

/-- The properties that the iterator yields from an offset on. -/
abbrev Properties.Lists (m : View) (b : Blob) (offset : Nat)
    (listed : List (List UInt8 × List UInt8)) : Prop :=
  Yields (Properties.next m b) offset listed

/-- The properties that tokens make from an offset on. -/
abbrev Properties.Tokens (m : View) (b : Blob) (offset : Nat)
    (listed : List (List UInt8 × List UInt8)) : Prop :=
  Turns (fun offset => (Properties.turn m b offset).run) offset listed

theorem Properties.nextUpTo_eq (n offset : Nat) :
    Properties.nextUpTo m b n offset =
      turnUpTo (fun offset => (Properties.turn m b offset).run) .hang n offset := by
  induction n generalizing offset with
  | zero => rfl
  | succ n ih =>
    unfold Properties.nextUpTo turnUpTo
    rcases (Properties.turn m b offset).run with c | _ | ⟨_ | property, offset'⟩
    · rfl
    · rfl
    · exact ih offset'
    · rfl

theorem Sound.propertiesTurn_lt (h : Sound m b) (offset : Nat) :
    ∃ r, (Properties.turn m b offset).run = .ok r ∧
      ∀ r', r = some r' → True ∧ b.header.totalsize - r'.2 < b.header.totalsize - offset := by
  obtain ⟨r, hr, hturn⟩ := h.propertiesTurn offset
  refine ⟨r, hr, fun r' heq => ⟨trivial, ?_⟩⟩
  have hlt := hturn r' heq
  omega

theorem Sound.lists_of_tokens (h : Sound m b) (htokens : Properties.Tokens m b offset listed) :
    Properties.Lists m b offset listed := by
  refine Turns.yields (fun _ : Nat => True) (fun offset => b.header.totalsize - offset)
    (fun offset r _ hr => ?_) (fun offset _ => Properties.nextUpTo_eq _ offset) trivial htokens
  obtain ⟨r', hr', hnext⟩ := h.propertiesTurn_lt offset
  exact hnext r (Except.ok.inj (hr'.symm.trans hr))

theorem Sound.lists (h : Sound m b) (offset : Nat) :
    ∃ listed, Properties.Lists m b offset listed ∧ Properties.Tokens m b offset listed ∧
      listed.length ≤ b.header.totalsize - offset := by
  obtain ⟨listed, htokens, hlen⟩ := Turns.exists (fun _ : Nat => True)
    (fun offset => b.header.totalsize - offset) (fun offset _ => h.propertiesTurn_lt offset) trivial
  exact ⟨listed, h.lists_of_tokens htokens, htokens, hlen⟩

/-- To look a property up is to find it among those listed. -/
theorem find_eq {wanted : List UInt8} (h : Properties.Lists m b offset listed) (n : Nat)
    (hn : listed.length < n) :
    Properties.find m b wanted n offset =
      .ok ((listed.find? fun property => property.1 = wanted).map Prod.snd) := by
  induction h generalizing n with
  | nil hnext =>
    obtain ⟨n, rfl⟩ := Nat.exists_eq_succ_of_ne_zero (Nat.ne_of_gt hn)
    unfold Properties.find
    rw [hnext]
    rfl
  | @cons offset offset' property listed hnext _ ih =>
    obtain ⟨n, rfl⟩ := Nat.exists_eq_succ_of_ne_zero (Nat.ne_of_gt (Nat.zero_lt_of_lt hn))
    obtain ⟨name, value⟩ := property
    rw [List.length_cons] at hn
    unfold Properties.find
    rw [hnext]
    simp only [bind, Except.bind, List.find?_cons]
    by_cases heq : name = wanted
    · simp [heq]
      rfl
    · simp only [heq, if_false, decide_false]
      exact ih n (by omega)

/-- A property of a node is one of those listed. -/
theorem Sound.property_eq (h : Sound m b) {node : Node} {wanted : List UInt8}
    (hstart : b.properties m node = .ok offset) (hlisted : Properties.Lists m b offset listed) :
    b.property m node wanted =
      .ok ((listed.find? fun property => property.1 = wanted).map Prod.snd) := by
  obtain ⟨listed', hlists, -, hlen⟩ := h.lists offset
  obtain rfl := hlisted.unique hlists
  unfold Blob.property
  rw [hstart]
  exact find_eq hlisted _ (by omega)

end Listed

end TheRack.Fdt
