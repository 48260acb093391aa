/-
  Fdt/Walk.lean --- the structure block, from fdt.rs.

  `turn` is one turn of the loop of `next`: it consumes one token, and has a step
  to return or goes round again.  A `?` in the source returns `None` with the
  cursor where that turn found it, which is what finding nothing means here.  A
  loop is given as many turns as it can need; to run out of them is a crash of
  the model's own.
-/
import Mathlib.Logic.Function.Basic
import TheRack.Fdt.Blob

set_option autoImplicit false

namespace TheRack.Fdt

open Lib

/-! ## Tokens -/

/-- `FDT_BEGIN_NODE`. -/
def fdtBeginNode : Nat := 0x1

/-- `FDT_END_NODE`. -/
def fdtEndNode : Nat := 0x2

/-- `FDT_PROP`. -/
def fdtProp : Nat := 0x3

/-- `FDT_NOP`. -/
def fdtNop : Nat := 0x4

/-- `FDT_END`. -/
def fdtEnd : Nat := 0x9

/-- `MAX_DEPTH`. -/
def maxDepth : Nat := 16

/-- `DEFAULT_ADDRESS_CELLS` and `DEFAULT_SIZE_CELLS`. -/
def defaultCells : Nat × Nat := (2, 1)

/-- The bytes of a string of the source. -/
def bytesOf (s : String) : List UInt8 := s.toUTF8.toList

/-- An index into an array of `MAX_DEPTH`. -/
def level (i : Nat) : Except Crash (Fin maxDepth) :=
  if h : i < maxDepth then .ok ⟨i, h⟩ else .error .indexOutOfRange

/-- `struct Node`. -/
structure Node where
  offset : Nat
  depth : Nat
  addressCells : Nat
  sizeCells : Nat
  deriving DecidableEq, Repr

/-- `Step`. -/
inductive Step
  | node (node : Node) (name : List UInt8)
  | property (name value : List UInt8)
  deriving DecidableEq, Repr

/-! ## Cells -/

/-- `value.get(..4)`, as a number: `read_cells`. -/
def readCells (value : List UInt8) : Option Nat :=
  if 4 ≤ value.length then some (ofBigEndian (value.take 4)) else none

/-- `take_cells`. -/
def takeCells : Nat → Nat → List UInt8 → Option (Nat × List UInt8)
  | 0, value, rest => some (value, rest)
  | count + 1, value, rest =>
      if 4 ≤ rest.length then
        takeCells count ((value <<< 32) % u64Size ||| ofBigEndian (rest.take 4)) (rest.drop 4)
      else none

/-! ## The walker -/

/-- `struct Walker`, without its copy of the blob. -/
structure Walker where
  offset : Nat
  stop : Nat
  depth : Nat
  cells : Fin maxDepth → Nat × Nat

namespace Walker

/-- `Walker::at`. -/
def at' (b : Blob) (offset : Nat) : Walker where
  offset := offset
  stop := saturatingAdd32 b.header.offDtStruct b.header.sizeDtStruct
  depth := 0
  cells := fun _ => defaultCells

/-- What `next` records of a property. -/
def note (w : Walker) (name value : List UInt8) : Except Crash Walker :=
  match readCells value with
  | some cells =>
      if 0 < w.depth then
        if name = bytesOf "#address-cells" then do
          let d ← level w.depth
          return { w with cells := Function.update w.cells d (cells, (w.cells d).2) }
        else if name = bytesOf "#size-cells" then do
          let d ← level w.depth
          return { w with cells := Function.update w.cells d ((w.cells d).1, cells) }
        else .ok w
      else .ok w
  | none => .ok w

/-- One turn of the loop of `next`. -/
def turn (m : View) (b : Blob) (w : Walker) : Try (Option Step × Walker) := do
  if w.stop ≤ w.offset then failure
  let token ← b.u32At m w.offset
  if token = fdtNop then
    let offset ← Seek.lift (add32 w.offset 4)
    return (none, { w with offset })
  else if token = fdtEnd then failure
  else if token = fdtBeginNode then
    let start ← Seek.lift (add32 w.offset 4)
    let name ← b.strAt m start w.stop
    if maxDepth ≤ w.depth + 1 then failure
    let d ← Seek.lift (level (w.depth + 1))
    let parent ← Seek.lift (level w.depth)
    let last ← Seek.lift (add32 start (asU32 name.length))
    let last ← Seek.lift (add32 last 1)
    return (some (.node
        { offset := w.offset
          depth := w.depth + 1
          addressCells := (w.cells parent).1
          sizeCells := (w.cells parent).2 } name),
      { w with
        offset := align4 last
        depth := w.depth + 1
        cells := Function.update w.cells d defaultCells })
  else if token = fdtEndNode then
    if w.depth = 0 then failure
    let offset ← Seek.lift (add32 w.offset 4)
    return (none, { w with offset, depth := w.depth - 1 })
  else if token = fdtProp then
    let len ← b.u32At m (← Seek.lift (add32 w.offset 4))
    let nameOffset ← b.u32At m (← Seek.lift (add32 w.offset 8))
    let start ← Seek.lift (add32 w.offset 12)
    let value ← b.bytesAt m start len
    let name ← b.string m nameOffset
    let last ← Seek.lift (add32 start len)
    let w ← Seek.lift ({ w with offset := align4 last }.note name value)
    return (some (.property name value), w)
  else failure

/-- The loop of `next`, at most `n` turns. -/
def nextUpTo (m : View) (b : Blob) : Nat → Walker → Except Crash (Option Step × Walker)
  | 0, _ => .error .hang
  | n + 1, w => do
      match ← (w.turn m b).run with
      | none => return (none, w)
      | some (some step, w') => return (some step, w')
      | some (none, w') => nextUpTo m b n w'

/-- `next`. -/
def next (m : View) (b : Blob) (w : Walker) : Except Crash (Option Step × Walker) :=
  nextUpTo m b (w.stop - w.offset + 1) w

/-- `while let Some(step) = walker.next()`, at most `n` turns, over a body that goes
on with what it has so far or leaves the loop. -/
def scan {σ α : Type} (m : View) (b : Blob) (body : σ → Step → Except Crash (σ ⊕ α)) :
    Nat → Walker → σ → Except Crash (σ ⊕ α)
  | 0, _, _ => .error .hang
  | n + 1, w, s => do
      match ← w.next m b with
      | (none, _) => return .inl s
      | (some step, w') =>
          match ← body s step with
          | .inl s' => scan m b body n w' s'
          | .inr a => return .inr a

end Walker

/-! ## Properties -/

namespace Properties

/-- One turn of the loop of `Properties::next`. -/
def turn (m : View) (b : Blob) (offset : Nat) :
    Try (Option (List UInt8 × List UInt8) × Nat) := do
  let token ← b.u32At m offset
  if token = fdtNop then
    let offset ← Seek.lift (add32 offset 4)
    return (none, offset)
  else if token ≠ fdtProp then failure
  else
    let len ← b.u32At m (← Seek.lift (add32 offset 4))
    let nameOffset ← b.u32At m (← Seek.lift (add32 offset 8))
    let start ← Seek.lift (add32 offset 12)
    let value ← b.bytesAt m start len
    let name ← b.string m nameOffset
    let last ← Seek.lift (add32 start len)
    return (some (name, value), align4 last)

/-- `Properties::next`, its loop at most `n` turns. -/
def nextUpTo (m : View) (b : Blob) :
    Nat → Nat → Except Crash (Option (List UInt8 × List UInt8) × Nat)
  | 0, _ => .error .hang
  | n + 1, offset => do
      match ← (turn m b offset).run with
      | none => return (none, offset)
      | some (some property, offset') => return (some property, offset')
      | some (none, offset') => nextUpTo m b n offset'

/-- `Properties::next`. -/
def next (m : View) (b : Blob) (offset : Nat) :
    Except Crash (Option (List UInt8 × List UInt8) × Nat) :=
  nextUpTo m b (b.header.totalsize - offset + 1) offset

/-- `find` by name, at most `n` properties. -/
def find (m : View) (b : Blob) (wanted : List UInt8) :
    Nat → Nat → Except Crash (Option (List UInt8))
  | 0, _ => .error .hang
  | n + 1, offset => do
      match ← next m b offset with
      | (none, _) => return none
      | (some (name, value), offset') =>
          if name = wanted then return some value else find m b wanted n offset'

end Properties

namespace Blob

/-- `walk`. -/
def walk (b : Blob) : Walker := Walker.at' b b.header.offDtStruct

/-- `while let Some(step) = walker.next()`, from the top of the structure block. -/
def scan {σ α : Type} (m : View) (b : Blob) (body : σ → Step → Except Crash (σ ⊕ α)) (s : σ) :
    Except Crash (σ ⊕ α) :=
  b.walk.scan m b body (b.header.totalsize + 1) s

/-- `properties`: where they start. -/
def properties (m : View) (b : Blob) (node : Node) : Except Crash Nat := do
  let offset ← add32 node.offset 4
  match ← (b.strAt m offset b.header.totalsize).run with
  | some name => return align4 (← add32 (← add32 offset (asU32 name.length)) 1)
  | none => return u32Size - 1

/-- `property`. -/
def property (m : View) (b : Blob) (node : Node) (name : List UInt8) :
    Except Crash (Option (List UInt8)) := do
  let offset ← b.properties m node
  Properties.find m b name (b.header.totalsize + 1) offset

/-- `reg`. -/
def reg (m : View) (b : Blob) (node : Node) (index : Nat) : Try (Nat × Nat) := do
  if 2 < node.addressCells ∨ 2 < node.sizeCells ∨ node.addressCells = 0 then failure
  let value ← OptionT.mk (b.property m node (bytesOf "reg"))
  let entry := (node.addressCells + node.sizeCells) * 4
  let start ← Seek.ofOption (if index * entry < u64Size then some (index * entry) else none)
  let stop ← Seek.ofOption (checkedAdd start entry)
  if value.length < stop then failure
  let bytes := (value.take stop).drop start
  let (address, rest) ← Seek.ofOption (takeCells node.addressCells 0 bytes)
  let (size, _) ← Seek.ofOption (takeCells node.sizeCells 0 rest)
  return (address, size)

end Blob

/-! ## Finding nodes -/

/-- The bytes before the first `byte`, if there is one: `split_once`. -/
def splitOnce (byte : UInt8) (name : List UInt8) : Option (List UInt8) :=
  if byte ∈ name then some (name.takeWhile (· ≠ byte)) else none

/-- `name_matches`. -/
def nameMatches (name component : List UInt8) : Bool :=
  if name = component then true
  else
    match splitOnce 64 name with
    | some base => base = component
    | none => false

/-- The nonempty parts of a path between its slashes. -/
def components (path : List UInt8) : List (List UInt8) :=
  (path.splitOn 47).filter (· ≠ [])

/-- `string_list_contains`. -/
def stringListContains (list wanted : List UInt8) : Bool :=
  (list.splitOn 0).any (· = wanted)

namespace Blob

/-- Whether `find_node` finds an open node to be on the path. -/
def matched (path : List UInt8) (onPath : Fin maxDepth → Bool) (node : Node) (name : List UInt8) :
    Except Crash Bool :=
  if node.depth = 1 then .ok (decide (name = []))
  else do
    let i ← sub64 node.depth 2
    match (components path)[i]? with
    | some component => do
        let d ← level (node.depth - 1)
        return onPath d && nameMatches name component
    | none => return false

/-- One turn of the loop of `find_node`. -/
def findTurn (path : List UInt8) (onPath : Fin maxDepth → Bool) :
    Step → Except Crash ((Fin maxDepth → Bool) ⊕ Node)
  | .property _ _ => .ok (.inl onPath)
  | .node node name => do
      let matched ← matched path onPath node name
      let d ← level node.depth
      if matched = true ∧ node.depth = (components path).length + 1 then .ok (.inr node)
      else .ok (.inl (Function.update onPath d matched))

/-- `find_node`. -/
def findNode (m : View) (b : Blob) (path : List UInt8) : Except Crash (Option Node) := do
  match ← b.scan m (findTurn path) (fun d => d.val = 0) with
  | .inl _ => return none
  | .inr node => return some node

/-- `find_compatible_after`. -/
def findCompatibleAfter (m : View) (b : Blob) (wanted : List UInt8) (offset : Nat) :
    Except Crash (Option Node) := do
  let body : Unit → Step → Except Crash (Unit ⊕ Node) := fun _ step =>
    match step with
    | .property _ _ => .ok (.inl ())
    | .node node _ =>
        if node.offset ≤ offset then .ok (.inl ())
        else do
          match ← b.property m node (bytesOf "compatible") with
          | some list => .ok (if stringListContains list wanted then .inr node else .inl ())
          | none => .ok (.inl ())
  match ← b.scan m body () with
  | .inl _ => return none
  | .inr node => return some node

end Blob

end TheRack.Fdt
