/-
  Frames/Allocator.lean --- the physical frame allocator of frames.rs.

  The statics of the source (`ALLOCATOR`, `RAM_BASE_ADDR`, `RAM_LENGTH`,
  `IMAGE_END`) are one record, and physical memory stands next to it because an
  allocation zeroes the frames it hands out.  `struct Frame` is the frame's base
  address, a number.
-/
import TheRack.Frames.Bitmap
import TheRack.Lib.Memory

set_option autoImplicit false

namespace TheRack.Frames

/-- The statics of frames.rs. -/
structure Allocator where
  bitmap : Bitmap
  ramBase : Nat
  ramLength : Nat
  imageEnd : Nat

/-- Physical memory and its allocator. -/
structure Phys where
  mem : Lib.Mem
  frames : Allocator

/-- `DEFAULT_RAM_BASE`. -/
def defaultRamBase : Nat := 0x40000000

/-- `DEFAULT_RAM_SIZE`. -/
def defaultRamSize : Nat := 256 * 1024 * 1024

namespace Allocator

/-- `ram_base() + ram_size()`. -/
def ramEnd (a : Allocator) : Nat := a.ramBase + a.ramLength

/-- `frame_count()`. -/
def frameCount (a : Allocator) : Nat := a.ramLength / frameSize

/-- `Frame::from_index`. -/
def fromIndex (a : Allocator) (index : Nat) : Nat := a.ramBase + index * frameSize

/-- `Frame::index`. -/
def index (a : Allocator) (frame : Nat) : Nat := (frame - a.ramBase) / frameSize

end Allocator

/-- `ReserveError`. -/
inductive ReserveError
  | outsideRam (addr : Nat)
  | alreadyTaken (addr : Nat)
  deriving DecidableEq, Repr

/-- Round `size` down to whole frames the bitmap can track. -/
def usable (size : Nat) : Nat := min size maxRam / frameSize * frameSize

/-- `init`, for an image that ends at `kernelEnd`. -/
def init (kernelEnd base size : Nat) : Code Phys Unit := do
  let p ← get
  let size := usable size
  let frames := size / frameSize
  let firstFree := (kernelEnd + (frameSize - 1)) / frameSize * frameSize
  let reserved ← Code.lift (sub64 firstFree base)
  let reservedFrames := reserved / frameSize
  let b ← Code.lift (p.frames.bitmap.setRange 0 reservedFrames)
  let b ← Code.lift (b.setRange frames maxFrames)
  let free ← Code.lift (sub64 frames reservedFrames)
  set { p with
    frames :=
      { bitmap := { b with reserved := reservedFrames, free := free }
        ramBase := base
        ramLength := size
        imageEnd := firstFree } }

/-- The first index of `n` from `index` whose bit is set, as the checking loops
of `reserve_range` and `adopt` look for it. -/
def firstTaken (b : Bitmap) : Nat → Nat → Except Crash (Option Nat)
  | 0, _ => .ok none
  | n + 1, index => do
      if ← b.isSet index then return some index
      firstTaken b n (index + 1)

/-- `reserve_range`. -/
def reserveRange (base len : Nat) : Code Phys (Except ReserveError Nat) := do
  if len = 0 then
    return .ok 0
  let p ← get
  let a := p.frames
  -- Rounded outwards at both ends.
  let start := base / frameSize * frameSize
  match checkedAdd base len with
  | none => return .error (.outsideRam base)
  | some last =>
    let stop ← Code.lift (mul64 ((last + (frameSize - 1)) / frameSize) frameSize)
    if start < a.ramBase ∨ a.ramEnd < stop then
      return .error (.outsideRam base)
    let first := (start - a.ramBase) / frameSize
    let count := (stop - start) / frameSize
    -- The whole range is checked before a single bit is set.
    match ← Code.lift (firstTaken a.bitmap count first) with
    | some index => return .error (.alreadyTaken (a.fromIndex index))
    | none =>
      let b ← Code.lift (Bitmap.putEach true a.bitmap (List.range' first count))
      let free ← Code.lift (sub64 b.free count)
      set { p with
        frames := { a with bitmap := { b with reserved := b.reserved + count, free := free } } }
      return .ok count

/-- `is_taken`. -/
def isTaken (addr : Nat) : Code Phys Bool := do
  let a := (← get).frames
  if ¬ (a.ramBase ≤ addr ∧ addr < a.ramEnd) then
    return false
  Code.lift (a.bitmap.isSet (a.index addr))

/-- `adopt`. -/
def adopt (base size : Nat) : Code Phys (Except ReserveError Int) := do
  let p ← get
  let a := p.frames
  if base ≠ a.ramBase then
    return .error (.outsideRam base)
  let size := usable size
  let old := a.frameCount
  let new := size / frameSize
  if old < new then
    let b ← Code.lift (a.bitmap.clearRange old new)
    set { p with
      frames := { a with bitmap := { b with free := b.free + (new - old) }, ramLength := size } }
    return .ok ((new : Int) - old)
  else
    -- Shrinking can only take frames nobody has.
    match ← Code.lift (firstTaken a.bitmap (old - new) new) with
    | some index => return .error (.alreadyTaken (a.fromIndex index))
    | none =>
      let b ← Code.lift (a.bitmap.setRange new old)
      let free ← Code.lift (sub64 b.free (old - new))
      set { p with
        frames := { a with bitmap := { b with free := free }, ramLength := size } }
      return .ok ((new : Int) - old)

/-- `alloc`: the lowest free frame, zeroed. -/
def alloc : Code Phys (Option Nat) := do
  let p ← get
  let a := p.frames
  match a.bitmap.firstClear with
  | none => return none
  | some index =>
    let b ← Code.lift (a.bitmap.set index)
    let free ← Code.lift (sub64 b.free 1)
    let frame := a.fromIndex index
    set { p with
      mem := p.mem.fill frame frameSize 0
      frames := { a with bitmap := { b with free := free } } }
    return some frame

/-- The scan of `alloc_contiguous` over the `n` indices from `index`. -/
def findRun (b : Bitmap) (count : Nat) : Nat → Nat → Nat → Nat → Except Crash (Option Nat)
  | 0, _, _, _ => .ok none
  | n + 1, index, runStart, run => do
      if ← b.isSet index then
        findRun b count n (index + 1) runStart 0
      else
        let runStart := if run = 0 then index else runStart
        if run + 1 < count then findRun b count n (index + 1) runStart (run + 1)
        else return some runStart

/-- `alloc_contiguous`: `count` consecutive frames, zeroed. -/
def allocContiguous (count : Nat) : Code Phys (Option Nat) := do
  Code.assert .zeroCount (0 < count)
  let p ← get
  let a := p.frames
  match ← Code.lift (findRun a.bitmap count a.frameCount 0 0 0) with
  | none => return none
  | some runStart =>
    let b ← Code.lift (Bitmap.putEach true a.bitmap (List.range' runStart count))
    let free ← Code.lift (sub64 b.free count)
    let frame := a.fromIndex runStart
    set { p with
      mem := p.mem.fill frame (count * frameSize) 0
      frames := { a with bitmap := { b with free := free } } }
    return some frame

/-- `free`. -/
def free (frame : Nat) : Code Phys Unit := do
  let p ← get
  let a := p.frames
  Code.assert .freeOutsideRam (a.ramBase ≤ frame ∧ frame < a.ramEnd)
  Code.assert .freeMisaligned (frame % frameSize = 0)
  let index := a.index frame
  let taken ← Code.lift (a.bitmap.isSet index)
  Code.assert .doubleFree (taken = true)
  let b ← Code.lift (a.bitmap.clear index)
  set { p with frames := { a with bitmap := { b with free := b.free + 1 } } }

/-- The loop of `free_contiguous`, `n` frames from `frame`. -/
def freeContiguous (frame : Nat) : Nat → Code Phys Unit
  | 0 => pure ()
  | n + 1 => do
      free frame
      freeContiguous (frame + frameSize) n

end TheRack.Frames
