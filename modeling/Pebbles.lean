import Pebbles.Lib.Words
import Pebbles.Lib.Stack
import Pebbles.Lib.Runs
import Pebbles.Lib.Sums
import Pebbles.Page
import Pebbles.Idt
import Pebbles.Frames
import Pebbles.FramesSound
import Pebbles.FreeFrames
import Pebbles.Vm
import Pebbles.TablesSound
import Pebbles.PagesSound
import Pebbles.VmSound
import Pebbles.MemInv
import Pebbles.MapSound
import Pebbles.RefCount
import Pebbles.Lib.Spaces
import Pebbles.Lib.Ring
import Pebbles.Lib.Window
import Pebbles.Lib.Queues
import Pebbles.Lib.X86
import Pebbles.Lib.Bytes
import Pebbles.Lib.Ledger
import Pebbles.Lists
import Pebbles.ListsSound
import Pebbles.Cow
import Pebbles.CowRace
import Pebbles.Kernel
import Pebbles.KernelSound
import Pebbles.Fork
import Pebbles.ForkSound
import Pebbles.Access
import Pebbles.Loader
import Pebbles.WaitVanish
import Pebbles.WaitVanishSound
import Pebbles.WaitRace
import Pebbles.ProcessTree
import Pebbles.Life
import Pebbles.LifeSound
import Pebbles.Adoption
import Pebbles.Trap
import Pebbles.TrapSound
import Pebbles.Privilege
import Pebbles.Keyboard
import Pebbles.KeyboardSound
import Pebbles.Lib.Traced
import Pebbles.UserAccess
import Pebbles.UserAccessSound
import Pebbles.KernelWrites
import Pebbles.Scheduler
import Pebbles.SchedulerSound
import Pebbles.Mutex
import Pebbles.CondVar
import Pebbles.CondVarSound
import Pebbles.Readline
import Pebbles.Deschedule
import Pebbles.DescheduleSound
import Pebbles.Exec
import Pebbles.ExecSound
import Pebbles.ReadOnly
import Pebbles.Rwlock
import Pebbles.Downgrade
import Pebbles.TcbList
import Pebbles.UserCond
import Pebbles.Semaphore
import Pebbles.Threads
import Pebbles.ThreadsSound
import Pebbles.JoinFree
import Pebbles.JoinValue
import Pebbles.FirstThread
import Pebbles.UserBytes
import Pebbles.Stubs
import Pebbles.Swexn
import Pebbles.Args
import Pebbles.Handlers
import Pebbles.Faults
import Pebbles.Ranges
import Pebbles.Mapping
import Pebbles.NewPages
import Pebbles.Fetches
import Pebbles.Scans
import Pebbles.SleepSound
import Pebbles.RoundRobin
import Pebbles.KeyStream
import Pebbles.KeyboardIrq
import Pebbles.VanishFlag
import Pebbles.ThreadMap
import Pebbles.Console
import Pebbles.Screen
import Pebbles.Terminal
import Pebbles.ForkAccess
import Pebbles.LoaderSound
import Pebbles.ArgBlocks
import Pebbles.SegmentAccess
import Pebbles.RemovePages
import Pebbles.Regions
import Pebbles.NewPagesRace
