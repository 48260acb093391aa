/-
  Virtio/Queue.lean --- the split virtqueue, from virtqueue.rs.

  The rings lie in one frame of physical memory, and every access goes to the
  bytes the source computes, so a descriptor index that is out of range would
  reach into the available ring as it does there.  The fences order accesses
  that are in order here anyway.
-/
import TheRack.Frames.Allocator

set_option autoImplicit false

namespace TheRack.Virtio

open Lib Frames

/-! ## Numbers -/

/-- One past `u16::MAX`. -/
def u16Size : Nat := 2 ^ 16

/-- Plain `+` on `u16`. -/
def add16 (a b : Nat) : Except Crash Nat :=
  if a + b < u16Size then .ok (a + b) else .error .overflow

/-- Plain `-` on `u16`. -/
def sub16 (a b : Nat) : Except Crash Nat := if b ≤ a then .ok (a - b) else .error .overflow

/-- `wrapping_add` on `u16`. -/
def wrappingAdd16 (a b : Nat) : Nat := (a + b) % u16Size

/-- `as u32`. -/
def asU32 (n : Nat) : Nat := n % 2 ^ 32

/-! ## Layout -/

/-- `QUEUE_SIZE`. -/
def queueSize : Nat := 16

/-- `DESCRIPTOR_BYTES`. -/
def descriptorBytes : Nat := 16

/-- `DESC_OFFSET`. -/
def descOffset : Nat := 0

/-- `AVAIL_OFFSET`. -/
def availOffset : Nat := 256

/-- `USED_OFFSET`. -/
def usedOffset : Nat := 512

/-- `DESC_NEXT`. -/
def descNext : Nat := 1

/-- `DESC_WRITE`. -/
def descWrite : Nat := 2

/-- `struct Buffer`. -/
structure Buffer where
  pa : Nat
  len : Nat
  deviceWrites : Bool
  pa_lt : pa < 2 ^ 64
  len_lt : len < 2 ^ 32
  deriving DecidableEq

/-- `Error`. -/
inductive Error
  | tooSmall (max : Nat)
  | noMemory
  | full
  | empty
  deriving DecidableEq, Repr

/-- `struct Queue`. -/
structure Queue where
  frame : Nat
  size : Nat
  freeHead : Nat
  freeCount : Nat
  lastUsed : Nat
  deriving DecidableEq

namespace Queue

/-- `ring_ptr`. -/
def ringPtr (q : Queue) (offset : Nat) : Nat := q.frame + offset

/-- Where descriptor `index` is. -/
def descBase (index : Nat) : Nat := descOffset + index * descriptorBytes

/-- The flags `write_descriptor` writes. -/
def flagsOf (buffer : Buffer) (chained : Bool) : Nat :=
  (if chained then descNext else 0) ||| (if buffer.deviceWrites then descWrite else 0)

/-- `write_descriptor`. -/
def writeDescriptor (q : Queue) (m : Mem) (index : Nat) (buffer : Buffer) (next : Nat)
    (chained : Bool) : Mem :=
  let base := descBase index
  let m := m.writeLE (q.ringPtr base) 8 buffer.pa
  let m := m.writeLE (q.ringPtr (base + 8)) 4 buffer.len
  let m := m.writeLE (q.ringPtr (base + 12)) 2 (flagsOf buffer chained)
  m.writeLE (q.ringPtr (base + 14)) 2 next

/-- `write_descriptor_next`. -/
def writeDescriptorNext (q : Queue) (m : Mem) (index next : Nat) : Mem :=
  m.writeLE (q.ringPtr (descBase index + 14)) 2 next

/-- `descriptor_next`. -/
def descriptorNext (q : Queue) (m : Mem) (index : Nat) : Nat :=
  m.readLE (q.ringPtr (descBase index + 14)) 2

/-- `descriptor_flags`. -/
def descriptorFlags (q : Queue) (m : Mem) (index : Nat) : Nat :=
  m.readLE (q.ringPtr (descBase index + 12)) 2

/-- `available_index`. -/
def availableIndex (q : Queue) (m : Mem) : Nat := m.readLE (q.ringPtr (availOffset + 2)) 2

/-- `used_index`. -/
def usedIndex (q : Queue) (m : Mem) : Nat := m.readLE (q.ringPtr (usedOffset + 2)) 2

end Queue

/-! ## Building a queue -/

/-- Where the transport registers of a queue are. -/
def queueSel : Nat := 0x030
def queueNumMax : Nat := 0x034
def queueNum : Nat := 0x038
def queueReady : Nat := 0x044
def queueDescLow : Nat := 0x080
def queueDescHigh : Nat := 0x084
def queueDriverLow : Nat := 0x090
def queueDriverHigh : Nat := 0x094
def queueDeviceLow : Nat := 0x0a0
def queueDeviceHigh : Nat := 0x0a4

/-- Physical memory, and the registers of a transport. -/
structure Port where
  phys : Phys
  registers : Nat → Nat

/-- `Transport::write`. -/
def Port.write (t : Port) (offset value : Nat) : Port :=
  { t with registers := fun r => if r = offset then value else t.registers r }

namespace Queue

/-- The loop of `new` that threads the free list, `n` turns from `index`. -/
def thread (q : Queue) : Nat → Nat → Mem → Mem
  | 0, _, m => m
  | n + 1, index, m => thread q n (index + 1) (q.writeDescriptorNext m index (index + 1))

/-- `Queue::new`. -/
def new (index : Nat) : Code Port (Except Error Queue) := do
  modify fun t => t.write queueSel index
  let max := (← get).registers queueNumMax
  if max < queueSize then
    return .error (.tooSmall max)
  match ← (fun t => (alloc t.phys).map fun r => (r.1, { t with phys := r.2 })) with
  | none => return .error .noMemory
  | some frame =>
    let queue : Queue :=
      { frame, size := queueSize, freeHead := 0, freeCount := queueSize, lastUsed := 0 }
    modify fun t => { t with phys := { t.phys with mem := queue.thread queueSize 0 t.phys.mem } }
    modify fun t => t.write queueNum queueSize
    modify fun t => t.write queueDescLow (asU32 (frame + descOffset))
    modify fun t => t.write queueDescHigh (asU32 ((frame + descOffset) >>> 32))
    modify fun t => t.write queueDriverLow (asU32 (frame + availOffset))
    modify fun t => t.write queueDriverHigh (asU32 ((frame + availOffset) >>> 32))
    modify fun t => t.write queueDeviceLow (asU32 (frame + usedOffset))
    modify fun t => t.write queueDeviceHigh (asU32 ((frame + usedOffset) >>> 32))
    modify fun t => t.write queueReady 1
    return .ok queue

end Queue

/-! ## The driver -/

/-- Memory, and the driver's half of the bookkeeping. -/
structure Driver where
  mem : Mem
  queue : Queue

namespace Queue

/-- The loop of `add`: memory and the free head it leaves. -/
def addFrom (q : Queue) : List Buffer → Nat → Mem → Nat → Mem × Nat
  | [], _, m, freeHead => (m, freeHead)
  | buffer :: rest, index, m, freeHead =>
      let next := q.descriptorNext m index
      let chained := !rest.isEmpty
      let m := q.writeDescriptor m index buffer next chained
      if chained then addFrom q rest next m freeHead else addFrom q rest index m next

/-- Put `head` into the available ring, and then publish it. -/
def publish (q : Queue) (m : Mem) (head : Nat) : Mem :=
  let position := q.availableIndex m % q.size
  let m := m.writeLE (q.ringPtr (availOffset + 4 + position * 2)) 2 head
  m.writeLE (q.ringPtr (availOffset + 2)) 2 (wrappingAdd16 (q.availableIndex m) 1)

/-- The walk of `recycle` to the last descriptor of a chain, at most `n` turns: which
one it is, and how many there are. -/
def chainEnd (q : Queue) (m : Mem) : Nat → Nat → Nat → Except Crash (Nat × Nat)
  | 0, _, _ => .error .hang
  | n + 1, index, length =>
      if q.descriptorFlags m index &&& descNext ≠ 0 then do
        let length ← add16 length 1
        chainEnd q m n (q.descriptorNext m index) length
      else .ok (index, length)

end Queue

/-- `add`. -/
def add (buffers : List Buffer) : Code Driver (Except Error Nat) := do
  if buffers.isEmpty then
    return .error .empty
  let d ← get
  let q := d.queue
  if q.freeCount < buffers.length then
    return .error .full
  let (m, freeHead) := q.addFrom buffers q.freeHead d.mem q.freeHead
  let freeCount ← Code.lift (sub16 q.freeCount (buffers.length % u16Size))
  set { mem := q.publish m q.freeHead, queue := { q with freeHead, freeCount } : Driver }
  return .ok q.freeHead

/-- `recycle`.  Its count of the chain is a `u16`. -/
def recycle (head : Nat) : Code Driver Unit := do
  let d ← get
  let q := d.queue
  let (index, length) ← Code.lift (q.chainEnd d.mem u16Size head 1)
  let freeCount ← Code.lift (add16 q.freeCount length)
  set { mem := q.writeDescriptorNext d.mem index q.freeHead
        queue := { q with freeHead := head, freeCount } : Driver }

/-- `take_used`. -/
def takeUsed : Code Driver (Option (Nat × Nat)) := do
  let d ← get
  let q := d.queue
  if q.lastUsed = q.usedIndex d.mem then
    return none
  let position := q.lastUsed % q.size
  let entry := usedOffset + 4 + position * 8
  let head := d.mem.readLE (q.ringPtr entry) 4 % u16Size
  let written := d.mem.readLE (q.ringPtr (entry + 4)) 4
  set { d with queue := { q with lastUsed := wrappingAdd16 q.lastUsed 1 } }
  recycle head
  return some (head, written)

end TheRack.Virtio
