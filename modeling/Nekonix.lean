import Nekonix.Library.FlatMemory
import Nekonix.Library.Span
import Nekonix.Library.RadixTable
import Nekonix.Library.Run
import Nekonix.Library.Loop
import Nekonix.Lib.String
import Nekonix.Lib.Path
import Nekonix.Mm.Pmm
import Nekonix.Mm.Pmm.Init
import Nekonix.Mm.Pmm.Conservation
import Nekonix.Mm.Vmm
import Nekonix.Mm.Vmm.Tables
import Nekonix.Mm.Vmm.Growth
import Nekonix.Mm.Vmm.Mapping
import Nekonix.Mm.Vmm.Backing
import Nekonix.Mm.Vmm.MapRun
import Nekonix.Mm.Vmm.NewPagemap
import Nekonix.Mm.Vmm.Unmapping
import Nekonix.Mm.Vmm.Cleared
import Nekonix.Mm.Vmm.Refinement
import Nekonix.Mm.Vmm.Rights
import Nekonix.Proc.Elf
import Nekonix.Proc.Elf.Loading
import Nekonix.Proc.Elf.Reading
import Nekonix.Proc.Elf.Rights
import Nekonix.Proc.Elf.Isolation
import Nekonix.Proc.Elf.Image
import Nekonix.Proc.Elf.Readback
import Nekonix.Proc.Scheduler
import Nekonix.Mm.Vmm.KernelTables
import Nekonix.Proc.Scheduler.Records
import Nekonix.Proc.Scheduler.Dispatch
import Nekonix.Proc.Scheduler.Exit
import Nekonix.Proc.Scheduler.Memory
import Nekonix.Proc.Scheduler.Creation
import Nekonix.Proc.Scheduler.History
import Nekonix.Proc.Scheduler.Births
import Nekonix.Proc.Scheduler.Preemption
import Nekonix.Proc.Scheduler.Transparency
import Nekonix.Proc.Scheduler.Reclaim
import Nekonix.Dev.Vfs
import Nekonix.Library.LinkedList
import Nekonix.Dev.Vfs.Tree
import Nekonix.Dev.Vfs.Children
import Nekonix.Dev.Vfs.Links
import Nekonix.Dev.Vfs.Shape
import Nekonix.Dev.Vfs.Lookup
import Nekonix.Dev.Vfs.Paths
import Nekonix.Dev.Hvfs
import Nekonix.Dev.Hvfs.Files
import Nekonix.Dev.Vfs.Effects
import Nekonix.Dev.Hvfs.Handles
import Nekonix.Library.HeapLedger
import Nekonix.Dev.Vfs.HeapCalls
import Nekonix.Dev.Hvfs.HeapCalls
import Nekonix.Fs.Ramfs
import Nekonix.Fs.Ramfs.Ownership
import Nekonix.Sys.Idt
import Nekonix.Sys.Idt.Results
import Nekonix.Library.RadixTable.Graded
import Nekonix.Mm.Vmm.Levels
import Nekonix.Mm.Vmm.SharedHalf
import Nekonix.Proc.Scheduler.Separation
import Nekonix.Mm.Vma
import Nekonix.Mm.Vmm.Absent
import Nekonix.Library.Mailbox
import Nekonix.Devices.Stdin
import Nekonix.Proc.Scheduler.Roster
import Nekonix.Proc.Scheduler.Integrity
import Nekonix.Library.RoundRobin
import Nekonix.Proc.Scheduler.Fairness
import Nekonix.Mm.Pmm.Placement
import Nekonix.Proc.Exhaustion
import Nekonix.Mm.Vmm.Exhaustion
import Nekonix.Proc.Elf.Failure
import Nekonix.Proc.Scheduler.Atomicity
import Nekonix.Mm.Vma.Regions
import Nekonix.Mm.Vma.Allocation
import Nekonix.Mm.Vma.Context
import Nekonix.Proc.HeapVisibility
import Nekonix.Dev.Vfs.Bounds
import Nekonix.Proc.Elf.Bounds
import Nekonix.Proc.Elf.Reads
import Nekonix.Fs.Ramfs.Entries
import Nekonix.Fs.Ramfs.Bounds
import Nekonix.Fs.Ramfs.Names
import Nekonix.Fs.Ramfs.Mount
import Nekonix.Sys.Idt.Arguments
import Nekonix.Mm.Vmm.Drawn
import Nekonix.Mm.Vma.Lists
import Nekonix.Mm.Vma.Placement
import Nekonix.Mm.Vma.Release
import Nekonix.Mm.Vma.History
import Nekonix.Mm.Vma.Search
import Nekonix.Mm.Vma.Failure
import Nekonix.Mm.Vma.Backing
import Nekonix.Mm.Vma.Holdings
import Nekonix.Mm.Vma.Returned
import Nekonix.Mm.Vma.Links
import Nekonix.Mm.Vma.Extents
import Nekonix.Mm.Vma.Ownership
import Nekonix.Mm.Vma.Integrity
import Nekonix.Mm.Vma.Destroy
import Nekonix.Library.Loop.Counter
import Nekonix.Library.Clock
import Nekonix.Library.WordStack
import Nekonix.Mm.Pmm.Dump
import Nekonix.Devices.Stdin.Keys
import Nekonix.Dev.Hvfs.Reports
import Nekonix.Dev.Vfs.Sequences
import Nekonix.Dev.Vfs.Descent
import Nekonix.Dev.Vfs.Parents
import Nekonix.Proc.Manager
import Nekonix.Sys.Syscall.Reach
import Nekonix.Dev.Rtc
import Nekonix.Sys.Idt.Stub
import Nekonix.Mm.Vmm.Supply
import Nekonix.Mm.Vmm.Init
import Nekonix.Mm.Vmm.KernelMap
import Nekonix.Lib.Memmove
import Nekonix.Library.StoreLog
import Nekonix.Lib.BoundedCopy
import Nekonix.Lib.Strtol
import Nekonix.Library.MaximalRun
import Nekonix.Lib.Strtok
import Nekonix.Mm.Pmm.Fragmented
import Nekonix.Library.Loop.Returning
import Nekonix.Lib.Seif
import Nekonix.Main.DrawImage
import Nekonix.Mm.Vma.KernelPagemap
import Nekonix.Library.FlatMemory.Blocks
import Nekonix.Library.FlatMemory.Record
import Nekonix.Library.DoublyLinked
import Nekonix.Library.Packing
import Nekonix.Library.BlockStore
import Nekonix.Library.BlockStore.Ledger
import Nekonix.Mm.Liballoc
import Nekonix.Mm.Liballoc.Headers
import Nekonix.Mm.Liballoc.Layout
import Nekonix.Mm.Liballoc.Pieces
import Nekonix.Mm.Liballoc.Arenas
import Nekonix.Mm.Liballoc.Search
import Nekonix.Mm.Liballoc.Malloc
import Nekonix.Mm.Liballoc.Free
import Nekonix.Mm.Liballoc.Live
import Nekonix.Mm.Liballoc.Accounts
import Nekonix.Mm.Liballoc.Copying
import Nekonix.Mm.Liballoc.Realloc
import Nekonix.Mm.Liballoc.Use
import Nekonix.Mm.Liballoc.Runs
import Nekonix.Mm.Liballoc.Outcomes
import Nekonix.Mm.Liballoc.Huge
import Nekonix.Library.InterruptController
import Nekonix.Sys.Pic
import Nekonix.Sys.Pic.Programs
import Nekonix.Sys.Pic.Interrupts
import Nekonix.Sys.Idt.Gates
import Nekonix.Main.TestPmm
