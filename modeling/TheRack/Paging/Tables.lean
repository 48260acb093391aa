/-
  Paging/Tables.lean --- building, walking and freeing translation tables.

  Tables live in physical memory; the kernel reads and writes them through its
  physical map, so an entry is eight bytes at the table's frame.  A walk goes
  through levels 0 to 3; the recursions count the levels still below, so `n`
  below stands for level `3 - n`.
-/
import TheRack.Paging.Descriptor

set_option autoImplicit false

namespace TheRack.Paging

open Lib Frames

/-- `!x` on a `u64`. -/
def not64 (x : Nat) : Nat := x ^^^ (2 ^ 64 - 1)

/-- `read_entry`. -/
def readEntry (m : Mem) (table index : Nat) : Nat := m.readLE (table + 8 * index) 8

/-- `write_entry`. -/
def writeEntry (m : Mem) (table index value : Nat) : Mem := m.writeLE (table + 8 * index) 8 value

/-! ## Building -/

/-- `frames::alloc().expect(..)`. -/
def allocFrame : Code Phys Nat := do
  Code.expect .outOfFrames (← alloc)

/-- `next_table`: follow the entry at `index`, allocating a table if there is
not one yet. -/
def nextTable (table index : Nat) : Code Phys Nat := do
  let p ← get
  let entry := readEntry p.mem table index
  if entry &&& valid ≠ 0 then
    Code.assert .blockInTheWay (entry &&& tableOrPage ≠ 0)
    return entry &&& addrMask
  else
    let new ← allocFrame
    modify fun p => { p with mem := writeEntry p.mem table index (new ||| valid ||| tableOrPage) }
    return new

/-- The loop of `map_page` and `map_block` over the `n` levels from `level`. -/
def descend (va : Nat) : Nat → Nat → Nat → Code Phys Nat
  | 0, _, table => pure table
  | n + 1, level, table => do
      let table ← nextTable table (tableIndex va level)
      descend va n (level + 1) table

/-- `map_page`. -/
def mapPage (root va pa : Nat) (attrs : Attributes) : Code Phys Unit := do
  let table ← descend va 3 0 root
  modify fun p => { p with
    mem := writeEntry p.mem table (tableIndex va 3)
      (pa ||| attrs.bits ||| valid ||| tableOrPage) }

/-- `map_block`. -/
def mapBlock (root va pa : Nat) (attrs : Attributes) : Code Phys Unit := do
  let table ← descend va 2 0 root
  modify fun p => { p with
    mem := writeEntry p.mem table (tableIndex va 2) (pa ||| attrs.bits ||| valid) }

/-- The loop of `map_range`, from `offset`. -/
def mapRangeFrom (root va pa size : Nat) (attrs : Attributes) (offset : Nat) : Code Phys Unit :=
  if offset < size then do
    let remaining := size - offset
    let va' ← Code.lift (add64 va offset)
    let pa' ← Code.lift (add64 pa offset)
    if block2MiB ≤ remaining ∧ va' % block2MiB = 0 ∧ pa' % block2MiB = 0 then
      mapBlock root va' pa' attrs
      Code.assert .overflow (offset + block2MiB < u64Size)
      mapRangeFrom root va pa size attrs (offset + block2MiB)
    else
      mapPage root va' pa' attrs
      Code.assert .overflow (offset + pageSize < u64Size)
      mapRangeFrom root va pa size attrs (offset + pageSize)
  else pure ()
termination_by size - offset
decreasing_by
  all_goals simp only [block2MiB, pageSize, frameSize]; omega

/-- `map_range`. -/
def mapRange (root va pa size : Nat) (attrs : Attributes) : Code Phys Unit :=
  mapRangeFrom root va pa size attrs 0

/-- `extend_physical_map`, for the root in `TTBR1_EL1`. -/
def extendPhysicalMap (kernelRoot start stop : Nat) : Code Phys Unit := do
  if stop ≤ start then return ()
  let va ← Code.lift (add64 start kernelBase)
  mapRange kernelRoot va start (stop - start) .kernelData

/-! ## Walking -/

/-- The walk of `lookup` with `n` levels of tables below `table`. -/
def lookupFrom (m : Mem) (va : Nat) : Nat → Nat → Option Nat
  | 0, table =>
      let entry := readEntry m table (tableIndex va 3)
      if entry &&& valid ≠ 0 then some entry else none
  | n + 1, table =>
      let entry := readEntry m table (tableIndex va (2 - n))
      if entry &&& valid = 0 then none
      else if entry &&& tableOrPage = 0 then some entry
      else lookupFrom m va n (entry &&& addrMask)

/-- `lookup`: the leaf descriptor of `va`. -/
def lookup (m : Mem) (root va : Nat) : Option Nat := lookupFrom m va 3 root

/-- Only levels 1 and 2 may hold blocks. -/
def blockSize : Nat → Option Nat
  | 1 => some (512 * block2MiB)
  | 2 => some block2MiB
  | _ => none

/-- The walk of `translate` with `n` levels of tables below `table`. -/
def translateFrom (m : Mem) (va : Nat) : Nat → Nat → Option Nat
  | 0, table =>
      let entry := readEntry m table (tableIndex va 3)
      if entry &&& valid ≠ 0 then some ((entry &&& addrMask) ||| (va &&& (pageSize - 1))) else none
  | n + 1, table =>
      let entry := readEntry m table (tableIndex va (2 - n))
      if entry &&& valid = 0 then none
      else if entry &&& tableOrPage = 0 then
        (blockSize (2 - n)).map fun size =>
          (entry &&& addrMask &&& not64 (size - 1)) ||| (va &&& (size - 1))
      else translateFrom m va n (entry &&& addrMask)

/-- `translate`: virtual to physical. -/
def translate (m : Mem) (root va : Nat) : Option Nat := translateFrom m va 3 root

/-! ## User buffers -/

/-- The access permissions field of a descriptor. -/
def accessPermissions (entry : Nat) : Nat := (entry >>> apShift) &&& 0b11

/-- The loop of `user_range` over `n` pages from `page`. -/
def userPages (m : Mem) (root : Nat) (allowed : Nat → Bool) : Nat → Nat → Bool
  | 0, _ => true
  | n + 1, page =>
      match lookup m root page with
      | none => false
      | some entry =>
          allowed (accessPermissions entry) && userPages m root allowed n (page + pageSize)

/-- `user_range`.  The loop runs once for every page that starts below the end
of the buffer. -/
def userRange (m : Mem) (root va len : Nat) (allowed : Nat → Bool) : Bool :=
  if len = 0 then true
  else
    match checkedAdd va len with
    | none => false
    | some stop =>
        if kernelBase < stop then false
        else
          let page := va &&& not64 (pageSize - 1)
          userPages m root allowed ((stop - page + (pageSize - 1)) / pageSize) page

/-- `user_readable`. -/
def userReadable (m : Mem) (root va len : Nat) : Bool :=
  userRange m root va len fun ap => ap == apRwAll || ap == apRoAll

/-- `user_writable`. -/
def userWritable (m : Mem) (root va len : Nat) : Bool :=
  userRange m root va len fun ap => ap == apRwAll

/-- The loop of `copy_across`, with `done` bytes copied.  Every turn copies at
least one byte, so `len` turns are enough. -/
def copyFrom (srcRoot srcVa dstRoot dstVa len : Nat) : Nat → Nat → Code Phys Bool
  | 0, _ => return true
  | n + 1, done =>
      if len ≤ done then return true
      else do
        let src ← Code.lift (add64 srcVa done)
        let dst ← Code.lift (add64 dstVa done)
        let p ← get
        match translate p.mem srcRoot src, translate p.mem dstRoot dst with
        | some srcPa, some dstPa =>
            let srcLeft := pageSize - (src &&& (pageSize - 1))
            let dstLeft := pageSize - (dst &&& (pageSize - 1))
            let chunk := min (min (len - done) srcLeft) dstLeft
            Code.assert .overlappingCopy (srcPa + chunk ≤ dstPa ∨ dstPa + chunk ≤ srcPa)
            set { p with mem := p.mem.copy srcPa dstPa chunk }
            copyFrom srcRoot srcVa dstRoot dstVa len n (done + chunk)
        | _, _ => return false

/-- `copy_across`. -/
def copyAcross (srcRoot srcVa dstRoot dstVa len : Nat) : Code Phys Bool :=
  copyFrom srcRoot srcVa dstRoot dstVa len len 0

/-! ## Address spaces -/

namespace AddressSpace

/-- `AddressSpace::new`. -/
def new : Code Phys Nat := allocFrame

/-- `AddressSpace::map`. -/
def map (root va pa size : Nat) (attrs : Attributes) : Code Phys Unit := do
  Code.assert .notLowHalf (va < kernelBase)
  mapRange root va pa size attrs

end AddressSpace

/-- How many frames a leaf with `n` levels below it covers. -/
def framesCovered : Nat → Option Nat
  | 0 => some 1
  | 1 => some entries
  | 2 => some (entries * entries)
  | _ => none

/-- `free_table`, with `n` levels of tables below `table`. -/
def freeTable : Nat → Nat → Code Phys Unit
  | 0, table => do
      (List.range entries).forM fun index => do
        let entry := readEntry (← get).mem table index
        if entry &&& valid = 0 then pure ()
        else freeContiguous (entry &&& addrMask) 1
      free table
  | n + 1, table => do
      (List.range entries).forM fun index => do
        let entry := readEntry (← get).mem table index
        if entry &&& valid = 0 then pure ()
        else if entry &&& tableOrPage ≠ 0 then freeTable n (entry &&& addrMask)
        else
          match framesCovered (n + 1) with
          | some count => freeContiguous (entry &&& addrMask) count
          | none => Code.crash .leafAtRoot
      free table

/-- `AddressSpace::destroy`. -/
def AddressSpace.destroy (root : Nat) : Code Phys Unit := freeTable 3 root

end TheRack.Paging
