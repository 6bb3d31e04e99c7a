import Kernel64.Headers
import Kernel64.RbTree.Runs
import Kernel64.Buddy.Model
import Kernel64.Buddy.Layout
import Kernel64.Buddy.Runs
import Kernel64.Slab.Layout
import Kernel64.Slab.Create
import Kernel64.Slab.Runs
import Kernel64.Hwfs.DiskIo
import Kernel64.Hwfs.DiskCache
import Kernel64.Hwfs.DiskRuns
import Kernel64.Hwfs.BTree
import Kernel64.Hwfs.BTreeRuns
import Kernel64.Paging.Model
import Kernel64.Paging.Tables
import Kernel64.Paging.Populate
import Kernel64.Paging.Levels
import Kernel64.Paging.Walk
import Kernel64.Mm.Model
import Kernel64.Lib.Refs
import Kernel64.Mm.Pages
import Kernel64.Mm.Mapping
import Kernel64.Mm.Ranges
import Kernel64.Mm.Areas
import Kernel64.Mm.Calls
import Kernel64.RbTree.Iterate
import Kernel64.Mm.AreaRuns
import Kernel64.Paging.Runs
import Kernel64.Balloc.Model
import Kernel64.Balloc.Pool
import Kernel64.Balloc.LowestFit
import Kernel64.Balloc.Runs
import Kernel64.Balloc.Setup
import Kernel64.Ramfs.Files
import Kernel64.Ramfs.Sparse
import Kernel64.Ramfs.Runs
import Kernel64.Threads.Model
import Kernel64.Threads.Sched
import Kernel64.Threads.Waits
import Kernel64.Threads.Life
import Kernel64.Threads.Steps
import Kernel64.Threads.Runs
import Kernel64.Threads.Mutex
import Kernel64.Vfs.Model
import Kernel64.Vfs.Entries
import Kernel64.Vfs.Lookup
import Kernel64.Vfs.Paths
import Kernel64.Vfs.Nodes
import Kernel64.Vfs.Calls
import Kernel64.Vfs.Runs
import Kernel64.Vfs.Balance
import Kernel64.Vfs.Transparency
import Kernel64.Mm.Atomic
import Kernel64.Mm.InStep
import Kernel64.Buddy.Canonical
import Kernel64.Threads.ReapRuns
import Kernel64.Vfs.Reach
import Kernel64.Kmap.Model
import Kernel64.Lib.Segments
import Kernel64.Kmap.Ranges
import Kernel64.Kmap.Windows
import Kernel64.Kmap.Setup
import Kernel64.Kmap.Runs
import Kernel64.Ide.Model
import Kernel64.Ide.Invariant
import Kernel64.Ide.Places
import Kernel64.Ide.Requests
import Kernel64.Ide.Steps
import Kernel64.Ide.Runs
import Kernel64.Mm.Faults
import Kernel64.Mm.Spaces
import Kernel64.Mm.Fork
import Kernel64.Mm.Fresh
import Kernel64.Mm.RefRuns
import Kernel64.Mm.Private
import Kernel64.Mm.Isolation
import Kernel64.Initramfs.Model
import Kernel64.Initramfs.Contents
import Kernel64.Initramfs.Cpio
import Kernel64.Initramfs.RoundTrip
import Kernel64.Kmap.RangeRuns
import Kernel64.Lib.Ring
import Kernel64.Zones.Model
import Kernel64.Zones.Nodes
import Kernel64.Zones.Order
import Kernel64.Zones.Runs
import Kernel64.Zones.Lookup
import Kernel64.Zones.Boot
import Kernel64.Paging.Trees
import Kernel64.Paging.Linear
import Kernel64.Exec.Model
import Kernel64.Exec.Layout
import Kernel64.Exec.Args
import Kernel64.Exec.Stack
import Kernel64.Ide.Transfer
import Kernel64.Ramfs.Offsets
import Kernel64.Ramfs.Pages
import Kernel64.Initramfs.Returns
import Kernel64.Initramfs.Bounds
import Kernel64.Vfs.Buffers
import Kernel64.Vfs.Stops
import Kernel64.Vfs.Enters
import Kernel64.Vfs.Unmount
import Kernel64.Vfs.Agree
import Kernel64.Slab.Teardown
import Kernel64.Ramfs.Directory
import Kernel64.Ramfs.Listing
import Kernel64.Hwfs.Failures
import Kernel64.RbTree.Traverse
import Kernel64.Hwfs.Search
import Kernel64.Format.Numerals
import Kernel64.Format.Untoa
import Kernel64.Format.Directives
import Kernel64.Format.Output
import Kernel64.Format.Pieces
import Kernel64.Format.Values
import Kernel64.Format.Bounded
import Kernel64.Hwfs.Overflow
import Kernel64.Threads.Broadcast
import Kernel64.Lib.Supply
import Kernel64.Paging.Demand
import Kernel64.Mm.Granted
import Kernel64.Exec.Load
import Kernel64.Exec.Segment
import Kernel64.Exec.Loading
import Kernel64.Exec.Binary
import Kernel64.Lists.Model
import Kernel64.Lists.Refine
import Kernel64.Buddy.FreeLists
import Kernel64.Strings.Model
import Kernel64.Strings.Moves
import Kernel64.Balloc.Layout
import Kernel64.Boot.MemoryMap
import Kernel64.Boot.Setup
import Kernel64.Lib.Packed
import Kernel64.Boot.Model
import Kernel64.Lib.Machine
import Kernel64.Entry.Model
import Kernel64.Entry.Frames
import Kernel64.Entry.Interrupts
import Kernel64.Entry.Syscalls
import Kernel64.Entry.Switch
import Kernel64.Entry.Start
import Kernel64.Lib.Pic
import Kernel64.Irq.Descriptors
import Kernel64.Irq.Model
import Kernel64.Irq.Runs
import Kernel64.Lib.Records
import Kernel64.Hwfs.Format
import Kernel64.Hwfs.Mkfs
import Kernel64.Hwfs.Release
import Kernel64.Threads.Fairness
import Kernel64.Lib.Sheet
import Kernel64.Console.Vga
import Kernel64.Console.Print
