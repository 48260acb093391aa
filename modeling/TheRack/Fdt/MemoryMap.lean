/-
  Fdt/MemoryMap.lean --- what the tree says about memory, from fdt.rs.

  The array of reservations and its count are one list, which `reserve` keeps to
  `MAX_RESERVATIONS`.
-/
import TheRack.Fdt.Walk

set_option autoImplicit false

namespace TheRack.Fdt

open Lib

/-- `MAX_RESERVATIONS`. -/
def maxReservations : Nat := 8

/-- `struct MemoryMap`. -/
structure MemoryMap where
  base : Nat
  size : Nat
  banks : Nat
  reserved : List (Nat × Nat)
  dropped : Nat
  deriving DecidableEq, Repr

namespace MemoryMap

/-- `MemoryMap::empty`. -/
def empty : MemoryMap where
  base := 0
  size := 0
  banks := 0
  reserved := []
  dropped := 0

/-- `reserve`. -/
def reserve (map : MemoryMap) (base size : Nat) : MemoryMap :=
  if size = 0 then map
  else if map.reserved.length = maxReservations then { map with dropped := map.dropped + 1 }
  else { map with reserved := map.reserved ++ [(base, size)] }

end MemoryMap

namespace Blob

/-- The loop over the header's reservation block, at most `n` turns. -/
def reserveBlock (m : View) (b : Blob) : Nat → Nat → MemoryMap → Except Crash MemoryMap
  | 0, _, _ => .error .hang
  | n + 1, offset, map => do
      let base ← (b.u64At m offset).run
      let size ← (b.u64At m (← add32 offset 8)).run
      match base, size with
      | some base, some size =>
          if base = 0 ∧ size = 0 then return map
          else reserveBlock m b n (← add32 offset 16) (map.reserve base size)
      | _, _ => return map

/-- One turn of the loop over the children of `/reserved-memory`. -/
def childTurn (m : View) (b : Blob) (parent : Node) (map : MemoryMap) :
    Step → Except Crash (MemoryMap ⊕ MemoryMap)
  | .property _ _ => .ok (.inl map)
  | .node node _ =>
      if node.offset ≤ parent.offset then .ok (.inl map)
      else if node.depth ≤ parent.depth then .ok (.inr map)
      else if node.depth = parent.depth + 1 then do
        match ← (b.reg m node 0).run with
        | some (base, size) => return .inl (map.reserve base size)
        | none => return .inl map
      else .ok (.inl map)

/-- How many banks the `reg` of `/memory` lists. -/
def banks (m : View) (b : Blob) (memory : Node) : Except Crash Nat := do
  match ← b.property m memory (bytesOf "reg") with
  | some value =>
      let cells ← add32 memory.addressCells memory.sizeCells
      let entry ← mul32 cells 4
      return value.length / max entry 1
  | none => return 1

/-- The children of `/reserved-memory`, which is where a modern tree puts them. -/
def reserveChildren (m : View) (b : Blob) (map : MemoryMap) : Except Crash MemoryMap := do
  match ← b.findNode m (bytesOf "/reserved-memory") with
  | some parent =>
      match ← b.scan m (b.childTurn m parent) map with
      | .inl map => return map
      | .inr map => return map
  | none => return map

/-- The first bank of `/memory`. -/
def takeMemory (m : View) (b : Blob) (map : MemoryMap) : Except Crash MemoryMap := do
  match ← b.findNode m (bytesOf "/memory") with
  | some memory =>
      match ← (b.reg m memory 0).run with
      | some (base, size) =>
          if size ≠ 0 then return { map with base, size, banks := ← b.banks m memory }
          else return map
      | none => return map
  | none => return map

/-- `memory_map`. -/
def memoryMap (m : View) (b : Blob) : Except Crash MemoryMap := do
  let map := MemoryMap.empty.reserve b.pa b.header.totalsize
  let map ← b.reserveBlock m (b.header.totalsize + 1) b.header.offMemRsvmap map
  let map ← b.reserveChildren m map
  b.takeMemory m map

end Blob

/-! ## Every region has a size -/

section Reserved

variable {m : View} {b : Blob} {map map' : MemoryMap}

/-- What the body of a loop keeps, the loop keeps. -/
theorem Walker.scan_keeps {σ α : Type} {body : σ → Step → Except Crash (σ ⊕ α)} {P : σ → Prop}
    {Q : α → Prop} (hstay : ∀ s step s', P s → body s step = .ok (.inl s') → P s')
    (hleave : ∀ s step a, P s → body s step = .ok (.inr a) → Q a) (n : Nat) :
    ∀ (w : Walker) (s : σ) (r : σ ⊕ α), P s → w.scan m b body n s = .ok r →
      Sum.elim P Q r := by
  induction n with
  | zero => exact fun w s r _ h => nomatch h
  | succ n ih =>
    intro w s r hs h
    unfold Walker.scan at h
    cases hnext : w.next m b with
    | error c =>
      rw [hnext] at h
      exact nomatch h
    | ok found =>
      obtain ⟨step, w'⟩ := found
      rw [hnext] at h
      cases step with
      | none =>
        obtain rfl := Except.ok.inj h
        exact hs
      | some step =>
        change (body s step >>= _) = _ at h
        cases hbody : body s step with
        | error c =>
          rw [hbody] at h
          exact nomatch h
        | ok next =>
          rw [hbody] at h
          cases next with
          | inl s' => exact ih w' s' r (hstay s step s' hs hbody) h
          | inr a =>
            obtain rfl := Except.ok.inj h
            exact hleave s step a hs hbody

/-- Each reservation covers something. -/
def MemoryMap.Sized (map : MemoryMap) : Prop := ∀ r ∈ map.reserved, 0 < r.2

theorem MemoryMap.Sized.reserve {base size : Nat} (h : map.Sized) : (map.reserve base size).Sized := by
  unfold MemoryMap.reserve
  split
  · exact h
  · rename_i hsize
    split
    · exact h
    · intro r hr
      rcases List.mem_append.mp hr with hr | hr
      · exact h r hr
      · obtain rfl := List.mem_singleton.mp hr
        exact Nat.pos_of_ne_zero hsize

theorem reserveBlock_sized (n : Nat) : ∀ (offset : Nat) (map map' : MemoryMap), map.Sized →
    b.reserveBlock m n offset map = .ok map' → map'.Sized := by
  induction n with
  | zero => exact fun _ _ _ _ h => nomatch h
  | succ n ih =>
    intro offset map map' hmap h
    unfold Blob.reserveBlock at h
    obtain ⟨base, -, h⟩ := of_bind_ok h
    obtain ⟨next, -, h⟩ := of_bind_ok h
    obtain ⟨size, -, h⟩ := of_bind_ok h
    split at h
    · split at h
      · obtain rfl := Except.ok.inj h
        exact hmap
      · obtain ⟨offset', -, h⟩ := of_bind_ok h
        exact ih _ _ _ hmap.reserve h
    · obtain rfl := Except.ok.inj h
      exact hmap

theorem childTurn_sized {parent : Node} {step : Step} {r : MemoryMap ⊕ MemoryMap} (hmap : map.Sized)
    (h : b.childTurn m parent map step = .ok r) : Sum.elim MemoryMap.Sized MemoryMap.Sized r := by
  unfold Blob.childTurn at h
  cases step with
  | property _ _ =>
    obtain rfl := Except.ok.inj h
    exact hmap
  | node node name =>
    simp only at h
    split at h
    · obtain rfl := Except.ok.inj h
      exact hmap
    · split at h
      · obtain rfl := Except.ok.inj h
        exact hmap
      · split at h
        · obtain ⟨reg, -, h⟩ := of_bind_ok h
          cases reg with
          | some reg =>
            obtain rfl := Except.ok.inj h
            exact hmap.reserve
          | none =>
            obtain rfl := Except.ok.inj h
            exact hmap
        · obtain rfl := Except.ok.inj h
          exact hmap

theorem reserveChildren_sized (hmap : map.Sized) (h : b.reserveChildren m map = .ok map') :
    map'.Sized := by
  unfold Blob.reserveChildren at h
  obtain ⟨parent, -, h⟩ := of_bind_ok h
  cases parent with
  | some parent =>
    obtain ⟨r, hscan, h⟩ := of_bind_ok h
    have hkept : Sum.elim MemoryMap.Sized MemoryMap.Sized r :=
      Walker.scan_keeps (P := MemoryMap.Sized) (Q := MemoryMap.Sized)
        (fun s step s' hs hbody => childTurn_sized hs hbody)
        (fun s step a hs hbody => childTurn_sized hs hbody) _ _ _ _ hmap hscan
    cases r with
    | inl found =>
      obtain rfl := Except.ok.inj h
      exact hkept
    | inr found =>
      obtain rfl := Except.ok.inj h
      exact hkept
  | none =>
    obtain rfl := Except.ok.inj h
    exact hmap

/-- What is reserved is settled before `/memory` is looked at. -/
theorem takeMemory_kept (h : b.takeMemory m map = .ok map') :
    map'.reserved = map.reserved ∧ map'.dropped = map.dropped := by
  unfold Blob.takeMemory at h
  obtain ⟨memory, -, h⟩ := of_bind_ok h
  cases memory with
  | some memory =>
    obtain ⟨reg, -, h⟩ := of_bind_ok h
    cases reg with
    | some reg =>
      obtain ⟨base, size⟩ := reg
      change (if size ≠ 0 then _ else _) = _ at h
      split at h
      · obtain ⟨banks, -, h⟩ := of_bind_ok h
        obtain rfl := Except.ok.inj h
        exact ⟨rfl, rfl⟩
      · obtain rfl := Except.ok.inj h
        exact ⟨rfl, rfl⟩
    | none =>
      obtain rfl := Except.ok.inj h
      exact ⟨rfl, rfl⟩
  | none =>
    obtain rfl := Except.ok.inj h
    exact ⟨rfl, rfl⟩

theorem memoryMap_sized (h : b.memoryMap m = .ok map) : map.Sized := by
  unfold Blob.memoryMap at h
  obtain ⟨map₁, hblock, h⟩ := of_bind_ok h
  obtain ⟨map₂, hchildren, h⟩ := of_bind_ok h
  have hempty : MemoryMap.empty.Sized := fun r hr => absurd hr List.not_mem_nil
  have hsized := reserveChildren_sized (reserveBlock_sized _ _ _ _ hempty.reserve hblock) hchildren
  unfold MemoryMap.Sized at *
  rwa [(takeMemory_kept h).1]

end Reserved

end TheRack.Fdt
