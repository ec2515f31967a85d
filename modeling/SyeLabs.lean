import SyeLabs.Lib.Loop
import SyeLabs.Lib.CellMap
import SyeLabs.Lib.ByteMem
import SyeLabs.Lib.PagedMem
import SyeLabs.Lib.Alloc
import SyeLabs.Lib.Reap
import SyeLabs.Lib.Run
import SyeLabs.Lib.Mealy
import SyeLabs.Lib.Cuts
import SyeLabs.Lib.Framing
import SyeLabs.Lib.Recency
import SyeLabs.Platform
import SyeLabs.MemSim.Basic
import SyeLabs.MemSim.Default
import SyeLabs.MemSim.Protection
import SyeLabs.MemSim.Step3
import SyeLabs.MemReplace.Basic
import SyeLabs.MemReplace.Lru
import SyeLabs.MemReplace.NeverUsed
import SyeLabs.MemReplace.Conserve
import SyeLabs.MemReplace.AgeTest
import SyeLabs.MemReplace.RefBits
import SyeLabs.MemReplace.Aging
import SyeLabs.MemReplace.WorkingSet
import SyeLabs.MemReplace.Recency
import SyeLabs.Process.Args
import SyeLabs.Process.Basic
import SyeLabs.Process.ArgsRoundTrip
import SyeLabs.Process.ArgBytes
import SyeLabs.Process.ArgBounds
import SyeLabs.Process.Run
import SyeLabs.Process.Pids
import SyeLabs.Process.Reaping
import SyeLabs.Process.Lineage
import SyeLabs.Process.Exec
import SyeLabs.Process.Irq
import SyeLabs.Process.Names
import SyeLabs.Process.Overrun
import SyeLabs.Process.Sbrk
import SyeLabs.Process.Renice
import SyeLabs.Process.Ptrace
import SyeLabs.Process.Zombies
import SyeLabs.Process.WaitStatus
import SyeLabs.Process.ImageLayout
import SyeLabs.Mmu.Basic
import SyeLabs.Mmu.CreateMapping
import SyeLabs.Mmu.ReleaseMapping
import SyeLabs.Mmu.Pieces
import SyeLabs.Mmu.Shape
import SyeLabs.Mmu.Translate
import SyeLabs.Mmu.Steps
import SyeLabs.Mmu.Effects
import SyeLabs.Mmu.PartialSection
import SyeLabs.Mmu.RoundTrip
import SyeLabs.Mmu.Tlb
import SyeLabs.Lib.Ownership
import SyeLabs.Lib.RefCount
import SyeLabs.Lib.Residence
import SyeLabs.Lib.Horizon
import SyeLabs.Lib.Cache
import SyeLabs.Kernel.Frames
import SyeLabs.Kernel.Machine
import SyeLabs.Kernel.Run
import SyeLabs.Kernel.Accounting
import SyeLabs.Kernel.KernelArea
import SyeLabs.Kernel.Fork
import SyeLabs.Kernel.Duplicate
import SyeLabs.Kernel.CopyWindow
import SyeLabs.Kernel.Tables
import SyeLabs.Kernel.Isolation
import SyeLabs.Kernel.LoadImage
import SyeLabs.Kernel.ExecLeak
import SyeLabs.Kernel.PrivateMemory
import SyeLabs.Kernel.Heap
import SyeLabs.Mmu.Boot
import SyeLabs.Kernel.KernelWindow
import SyeLabs.Kernel.Ownership
import SyeLabs.Syscall.Errno
import SyeLabs.CountParallel.Basic
import SyeLabs.CountParallel.Ends
import SyeLabs.CountParallel.Tree
import SyeLabs.Shell.Basic
import SyeLabs.Shell.Split
import SyeLabs.Shell.Pipeline
import SyeLabs.Shell.Bounds
import SyeLabs.Shell.CommandLine
import SyeLabs.Shell.Jobs
import SyeLabs.Shell.Leftover
import SyeLabs.Tictactoe.GameManager
import SyeLabs.Tictactoe.Board
import SyeLabs.Tictactoe.Outcome
import SyeLabs.Tictactoe.GameValue
import SyeLabs.Tictactoe.Player
import SyeLabs.Tictactoe.ParseLine
import SyeLabs.Tictactoe.Agreement
import SyeLabs.Tictactoe.Ending
import SyeLabs.Threads.Basic
import SyeLabs.Threads.Count
import SyeLabs.Sockets.Server
import SyeLabs.Sockets.Framing
import SyeLabs.Sockets.Client
import SyeLabs.Sockets.Signals
import SyeLabs.Sockets.Session
import SyeLabs.Kernel.Refinement
import SyeLabs.Kernel.Translation
