import Hoca.Long
import Hoca.Links
import Hoca.Forest
import Hoca.Runs
import Hoca.Fifo
import Hoca.Returns
import Hoca.Types
import Hoca.Procq
import Hoca.Asl
import Hoca.Nucleus.Schedule
import Hoca.Nucleus.Syscall
import Hoca.Nucleus.Int
import Hoca.Nucleus.Trap
import Hoca.Nucleus.Main
import Hoca.Nucleus.Vectors
import Hoca.Queues
import Hoca.Sched
import Hoca.Sched.Laws
import Hoca.Sched.Preserve
import Hoca.Sched.Effect
import Hoca.Sched.Move
import Hoca.Sched.Account
import Hoca.Sched.Vector
import Hoca.Sched.Discipline
import Hoca.Sched.Context
import Hoca.Refine.Procq
import Hoca.Refine.Asl
import Hoca.Rings
import Hoca.ActiveList
import Hoca.Withdrawal
import Hoca.Engines
import Hoca.Refine.Table
import Hoca.Refine.Ops
import Hoca.Refine.Tree
import Hoca.Refine.Kill
import Hoca.Refine.Syscall
import Hoca.Refine.Int
import Hoca.Refine.Step
import Hoca.Refine.Boot
import Hoca.Refine.Run
import Hoca.Limits
import Hoca.Conservation
import Hoca.FreeList
import Hoca.Vector
import Hoca.Context
import Hoca.Trap
import Hoca.Sched.Timing
import Hoca.Timing
import Hoca.Sched.Lineage
import Hoca.Lineage
import Hoca.Sched.Order
import Hoca.Order
import Hoca.Sched.Ledger
import Hoca.Sched.Clock
import Hoca.Simulation
import Hoca.PseudoClock
import Hoca.RoundRobin
import Hoca.Semaphores
import Hoca.Sched.Device
import Hoca.Sched.Track
import Hoca.Device
import Hoca.Release
import Hoca.Support.Semaphores
import Hoca.Units
import Hoca.Support.Cron
import Hoca.Support.Entries
import Hoca.Support.Wakeups
import Hoca.Support.Delays
import Hoca.Support.Shutdown
import Hoca.Support.Exclusion
import Hoca.Support.Progress
import Hoca.Support.Completion
import Hoca.Support.Page
import Hoca.Support.Isolation
import Hoca.Support.Frames
import Hoca.Support.Shared
import Hoca.Support.Terminal
import Hoca.Support.Access
import Hoca.Support.Faults
import Hoca.Support.Lines
import Hoca.Support.Layers
import Hoca.Support.Steps
import Hoca.Support.Level
import Hoca.Support.Standstill
