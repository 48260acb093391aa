import TheRack.Lib.Memory
import TheRack.Lib.Run
import TheRack.Lib.Hoare
import TheRack.Lib.Trace
import TheRack.Lib.Best
import TheRack.Lib.Bits
import TheRack.Lib.Seek
import TheRack.Crash
import TheRack.Frames.Bitmap
import TheRack.Frames.Allocator
import TheRack.Frames.Ledger
import TheRack.Frames.Specs
import TheRack.Frames.Ownership
import TheRack.Paging.Descriptor
import TheRack.Paging.Entry
import TheRack.Paging.Tables
import TheRack.Paging.Tree
import TheRack.Paging.Leaf
import TheRack.Paging.Grow
import TheRack.Paging.Patch
import TheRack.Paging.Range
import TheRack.Paging.Exact
import TheRack.Paging.Copy
import TheRack.Paging.Build
import TheRack.Paging.Image
import TheRack.Paging.Destroy
import TheRack.Paging.Space
import TheRack.Paging.Access
import TheRack.Paging.Checks
import TheRack.Paging.Physical
import TheRack.Virtio.Queue
import TheRack.Virtio.Rings
import TheRack.Virtio.Chains
import TheRack.Virtio.Runs
import TheRack.Virtio.Books
import TheRack.Virtio.Interleaving
import TheRack.Fdt.Blob
import TheRack.Fdt.Walk
import TheRack.Fdt.MemoryMap
import TheRack.Fdt.Harmless
import TheRack.Main.Adopt
import TheRack.Main.Reserve
import TheRack.Kernel.State
import TheRack.Kernel.Tasks
import TheRack.Kernel.Notify
import TheRack.Kernel.Ipc
import TheRack.Kernel.Supervision
import TheRack.Kernel.Syscall
import TheRack.Kernel.System
import TheRack.Kernel.Control
import TheRack.Kernel.Conversation
import TheRack.Kernel.Coherent
import TheRack.Kernel.Wakeup
import TheRack.Kernel.Capability
import TheRack.Kernel.Rendezvous
import TheRack.Kernel.Memory
import TheRack.Kernel.Ready
import TheRack.Kernel.View
import TheRack.Kernel.Schedule
import TheRack.Kernel.Kept
import TheRack.Kernel.Switching
import TheRack.Kernel.Exchange
import TheRack.Kernel.Endings
import TheRack.Kernel.Calls
import TheRack.Kernel.Threads
import TheRack.Kernel.Steps
import TheRack.Kernel.Reach
import TheRack.Kernel.Along
import TheRack.Kernel.Boot
import TheRack.Kernel.Returns
import TheRack.Kernel.Delivery
import TheRack.Kernel.Authority
import TheRack.Kernel.Sleep
import TheRack.Kernel.Custody
import TheRack.Kernel.Posting
import TheRack.Kernel.Signals
import TheRack.Kernel.Fairness
import TheRack.Kernel.Critical
import TheRack.Kernel.Orders
import TheRack.Kernel.Refusals
import TheRack.Kernel.Restart
import TheRack.Fdt.Enumerate
import TheRack.Fdt.Header
import TheRack.Fdt.Readers
import TheRack.Fdt.Words
import TheRack.Frames.Reservation
import TheRack.Kernel.Reaping
import TheRack.Paging.Device
import TheRack.Main.Probe
import TheRack.Fdt.Cells
import TheRack.Fdt.Paths
import TheRack.Fdt.Reserved
import TheRack.Fdt.Builder
import TheRack.Kernel.Idle
import TheRack.Kernel.Stack
import TheRack.Kernel.Images
import TheRack.Kernel.Recording
import TheRack.Kernel.Renewal
import TheRack.Lib.A64.Machine
import TheRack.Lib.A64.Rules
import TheRack.Lib.A64.Pairs
import TheRack.Lib.Refines
import TheRack.Asm.Switch
import TheRack.Asm.Coroutines
import TheRack.Asm.Trap
import TheRack.Exceptions.Handler
import TheRack.Exceptions.Programs
import TheRack.Lib.A64.Contracts
import TheRack.Asm.Heartbeat
import TheRack.Devices.Timer
import TheRack.Kernel.Payload
import TheRack.Kernel.Letters
import TheRack.Lib.A64.Cores
import TheRack.Asm.Boot
import TheRack.Devices.Uart
import TheRack.Devices.Gic
import TheRack.Virtio.Transport
import TheRack.Kernel.Guards
