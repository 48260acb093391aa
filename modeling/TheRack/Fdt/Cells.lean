/-
  Fdt/Cells.lean --- numbers made of cells.

  Shifting the next cell in and taking all bytes as one number come to the same, as
  long as a word has room for them.  So `u64_at` reads eight bytes, and `reg` reads
  the entry it is asked for.
-/
import TheRack.Fdt.Forest

set_option autoImplicit false

namespace TheRack.Fdt

open Lib

/-! ## Bytes as one number -/

section Numbers

theorem ofBigEndian_append (l l' : List UInt8) :
    ofBigEndian (l ++ l') = ofBigEndian l * 256 ^ l'.length + ofBigEndian l' := by
  have hfrom : ∀ (l : List UInt8) (v : Nat),
      l.foldl (fun value byte => value * 256 + byte.toNat) v = v * 256 ^ l.length + ofBigEndian l := by
    intro l
    induction l with
    | nil => simp [ofBigEndian]
    | cons byte l ih =>
      intro v
      have hbyte : ofBigEndian (byte :: l) = byte.toNat * 256 ^ l.length + ofBigEndian l := by
        rw [← ih byte.toNat]
        simp [ofBigEndian]
      rw [List.foldl_cons, ih, hbyte, List.length_cons, Nat.pow_succ, Nat.add_mul]
      simp [Nat.mul_assoc, Nat.mul_comm, Nat.add_assoc]
  unfold ofBigEndian
  rw [List.foldl_append, hfrom]
  rfl

/-- To shift a cell in is to append its bytes. -/
theorem shift_cell {l cell : List UInt8} (hcell : cell.length = 4) :
    ofBigEndian l <<< 32 ||| ofBigEndian cell = ofBigEndian (l ++ cell) := by
  have hlt := ofBigEndian_lt cell
  rw [hcell] at hlt
  rw [ofBigEndian_append, hcell, ← Nat.shiftLeft_add_eq_or_of_lt hlt, Nat.shiftLeft_eq]
  rfl

theorem takeCells_eq (count : Nat) : ∀ seen rest : List UInt8, seen.length + 4 * count ≤ 8 →
    4 * count ≤ rest.length → takeCells count (ofBigEndian seen) rest =
      some (ofBigEndian (seen ++ rest.take (4 * count)), rest.drop (4 * count)) := by
  induction count with
  | zero =>
    intro seen rest _ _
    simp [takeCells]
  | succ count ih =>
    intro seen rest hroom hlen
    have hcell : (rest.take 4).length = 4 := List.length_take_of_le (by omega)
    have hlt := ofBigEndian_lt seen
    have hfits : ofBigEndian seen <<< 32 < u64Size := by
      have hpow : 256 ^ seen.length ≤ 256 ^ 4 := Nat.pow_le_pow_right (by decide) (by omega)
      rw [Nat.shiftLeft_eq, u64Size_eq]
      omega
    have hnext := ih (seen ++ rest.take 4) (rest.drop 4)
      (by rw [List.length_append, hcell]; omega) (by rw [List.length_drop]; omega)
    rw [takeCells, if_pos (by omega), Nat.mod_eq_of_lt hfits, shift_cell hcell, hnext,
      List.append_assoc, ← List.take_add, List.drop_drop, Nat.mul_succ, Nat.add_comm 4]

end Numbers

/-! ## Words of eight bytes -/

section Words

variable {m : View} {b : Blob} {offset value : Nat}

/-- A big endian number of eight bytes. -/
def Blob.LongAt (m : View) (b : Blob) (offset value : Nat) : Prop :=
  ∃ bytes : List UInt8, bytes.length = 8 ∧ ofBigEndian bytes = value ∧ b.Has m offset bytes

theorem Blob.LongAt.gives (hlong : b.LongAt m offset value) (h : Sound m b) :
    Gives (b.u64At m offset) value := by
  obtain ⟨bytes, hlen, rfl, hbytes⟩ := hlong
  have hle := hbytes.le
  have hsize := h.size_le
  rw [maxBlob_eq] at hsize
  rw [hlen] at hle
  have hhigh : (bytes.take 4).length = 4 := List.length_take_of_le (by omega)
  have hlow : (bytes.drop 4).length = 4 := by
    rw [List.length_drop]
    omega
  rw [← List.take_append_drop 4 bytes] at hbytes
  obtain ⟨hfirst, hsecond⟩ := Blob.has_append.mp hbytes
  rw [hhigh] at hsecond
  unfold Blob.u64At
  refine Gives.bind (Blob.WordAt.gives ⟨_, hhigh, rfl, hfirst⟩ h) ?_
  refine Gives.lift (add32_ok (by rw [u32Size_eq]; omega)) ?_
  refine Gives.bind (Blob.WordAt.gives ⟨_, hlow, rfl, hsecond⟩ h) ?_
  rw [shift_cell hlow, List.take_append_drop]
  exact .pure

end Words

/-! ## Entries of a `reg` -/

/-- How many bytes an entry takes. -/
def entrySize (cells : Nat × Nat) : Nat := (cells.1 + cells.2) * 4

/-- The address and the size in the bytes of an entry. -/
def entryOf (cells : Nat × Nat) (bytes : List UInt8) : Nat × Nat :=
  (ofBigEndian (bytes.take (4 * cells.1)), ofBigEndian (bytes.drop (4 * cells.1)))

/-- The entries of a `reg`, if they have an address, and neither more than two cells of
address nor more than two of size. -/
def regEntries (cells : Nat × Nat) (value : List UInt8) : List (Nat × Nat) :=
  if 2 < cells.1 ∨ 2 < cells.2 ∨ cells.1 = 0 then []
  else (List.range (value.length / entrySize cells)).map fun k =>
    entryOf cells ((value.drop (k * entrySize cells)).take (entrySize cells))

/-- What the `reg` of a node lists. -/
def entriesOf (v : Visit Above Label) : List (Nat × Nat) :=
  match v.label.lookup (bytesOf "reg") with
  | some value => regEntries v.context.cells value
  | none => []

section Reg

variable {m : View} {b : Blob} {offset stop : Nat}

theorem PropertiesLie.value_le {properties : List (List UInt8 × List UInt8)}
    (hlies : PropertiesLie m b offset properties stop) :
    ∀ property ∈ properties, property.2.length ≤ b.header.totalsize := by
  induction hlies with
  | nil _ => exact fun _ hmem => absurd hmem List.not_mem_nil
  | cons _ hprop _ ih =>
    intro property hmem
    rcases List.mem_cons.mp hmem with rfl | hmem
    · exact Nat.le_trans (Nat.le_add_left _ _) hprop.value.le
    · exact ih property hmem

theorem LabelLies.value_le {label : Label} (hlies : LabelLies m b label) {wanted value : List UInt8}
    (hfound : label.lookup wanted = some value) : value.length ≤ b.header.totalsize := by
  obtain ⟨_, _, _, hproperties, -⟩ := hlies.properties
  obtain ⟨property, hfind, rfl⟩ := Option.map_eq_some_iff.mp hfound
  exact hproperties.value_le property (List.mem_of_find?_eq_some hfind)

theorem regEntries_getElem? {cells : Nat × Nat} {value : List UInt8}
    (hcells : ¬ (2 < cells.1 ∨ 2 < cells.2 ∨ cells.1 = 0)) (index : Nat) :
    (regEntries cells value)[index]? =
      if (index + 1) * entrySize cells ≤ value.length then
        some (entryOf cells ((value.drop (index * entrySize cells)).take (entrySize cells)))
      else none := by
  have hpos : 0 < entrySize cells := by
    unfold entrySize
    omega
  unfold regEntries
  rw [if_neg hcells, List.getElem?_map]
  by_cases hlt : index < value.length / entrySize cells
  · rw [List.getElem?_range hlt, if_pos ((Nat.le_div_iff_mul_le hpos).mp hlt)]
    rfl
  · have hle : ¬ (index + 1) * entrySize cells ≤ value.length := fun hle =>
      hlt ((Nat.le_div_iff_mul_le hpos).mpr hle)
    rw [List.getElem?_eq_none (by rw [List.length_range]; omega), if_neg hle]
    rfl

/-- `reg` returns the entry of that index. -/
theorem LabelLies.reg_eq (h : Sound m b) {v : Visit Above Label} (hlies : LabelLies m b v.label)
    (index : Nat) : (b.reg m (nodeOf v) index).run = .ok (entriesOf v)[index]? := by
  have hproperty := hlies.property_eq h (bytesOf "reg")
  unfold entriesOf
  unfold Blob.reg
  by_cases hcells : 2 < v.context.cells.1 ∨ 2 < v.context.cells.2 ∨ v.context.cells.1 = 0
  · refine (Misses.checked fun hfit => absurd hcells hfit).trans ?_
    cases v.label.lookup (bytesOf "reg") with
    | none => rfl
    | some value => simp only [regEntries, if_pos hcells, List.getElem?_nil]
  cases hfound : v.label.lookup (bytesOf "reg") with
  | none =>
    rw [hfound] at hproperty
    refine Misses.checked fun _ => .bind ?_
    exact hproperty
  | some value =>
    have hvalue : Gives (OptionT.mk (b.property m (nodeOf v) (bytesOf "reg"))) value :=
      hproperty.trans (congrArg Except.ok hfound)
    have hsize := h.size_le
    have hle := hlies.value_le hfound
    rw [maxBlob_eq] at hsize
    have hentry : ((nodeOf v).addressCells + (nodeOf v).sizeCells) * 4 = entrySize v.context.cells := rfl
    change _ = Except.ok (regEntries v.context.cells value)[index]?
    rw [regEntries_getElem? hcells, Nat.succ_mul]
    by_cases hin : index * entrySize v.context.cells + entrySize v.context.cells ≤ value.length
    · have hbytes : ((value.take (index * entrySize v.context.cells + entrySize v.context.cells)).drop
          (index * entrySize v.context.cells)) =
          (value.drop (index * entrySize v.context.cells)).take (entrySize v.context.cells) := by
        rw [List.drop_take, Nat.add_sub_cancel_left]
      rw [if_pos hin]
      refine Gives.checked hcells (hvalue.bind ?_)
      refine .option (if_pos (by rw [hentry, u64Size_eq]; omega)) ?_
      refine .option (if_pos (by rw [hentry, u64Size_eq]; omega)) ?_
      refine .checked (by rw [hentry]; omega) ?_
      rw [hentry, hbytes]
      generalize hentryBytes : (value.drop (index * entrySize v.context.cells)).take
        (entrySize v.context.cells) = bytes
      have hlen : bytes.length = entrySize v.context.cells := by
        rw [← hentryBytes]
        exact List.length_take_of_le (by rw [List.length_drop]; omega)
      unfold entrySize at hlen
      have haddress := takeCells_eq v.context.cells.1 [] bytes (by simp only [List.length_nil]; omega)
        (by omega)
      have hcount := takeCells_eq v.context.cells.2 [] (bytes.drop (4 * v.context.cells.1))
        (by simp only [List.length_nil]; omega) (by rw [List.length_drop]; omega)
      rw [List.take_of_length_le (by rw [List.length_drop]; omega)] at hcount
      exact .option haddress (.option hcount .pure)
    · rw [if_neg hin]
      refine Misses.checked fun _ => ?_
      refine .after hvalue (.option fun start hstart => .option fun stop hstop => ?_)
      refine .checked fun hle => absurd ?_ hin
      split at hstart
      · obtain rfl := Option.some.inj hstart
        obtain ⟨-, rfl⟩ := checkedAdd_eq_some.mp hstop
        exact Nat.not_lt.mp hle
      · exact nomatch hstart

end Reg

end TheRack.Fdt
