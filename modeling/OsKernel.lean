import OsKernel.Lib.LittleEndian
import OsKernel.Exec.ProgramTable
import OsKernel.Exec.UserImage
import OsKernel.Lib.ByteMemory
import OsKernel.Lib.PanicM
import OsKernel.Lib.Interruptible
import OsKernel.Machine.Layout
import OsKernel.Machine.String
import OsKernel.Vm.Code
import OsKernel.Vm.Tables
import OsKernel.Vm.Supply
import OsKernel.Vm.Walk
import OsKernel.Vm.Map
import OsKernel.Vm.Free
import OsKernel.Vm.UserMemory
import OsKernel.Vm.Copy
import OsKernel.Proc.PageTable
import OsKernel.Printf.Format
import OsKernel.Kernel.State
import OsKernel.Kernel.Spinlock
import OsKernel.Proc.Code
import OsKernel.Console.Code
import OsKernel.Exec.Kexec
import OsKernel.Trap.Trampoline
import OsKernel.Kernel.System
import OsKernel.Proc.Spaces
import OsKernel.Exec.Load
import OsKernel.Kernel.History
import OsKernel.Kernel.Invariant
import OsKernel.Kernel.Modes
import OsKernel.Kernel.Labels
import OsKernel.Proc.Sleep
import OsKernel.Proc.Scheduler
import OsKernel.Console.Ring
import OsKernel.Console.Interrupt
import OsKernel.Proc.UserCopy
import OsKernel.Console.Read
import OsKernel.Proc.Exit
import OsKernel.Proc.Freeproc
import OsKernel.Proc.Wait
import OsKernel.Proc.Alloc
import OsKernel.Proc.Fork
import OsKernel.Exec.Image
import OsKernel.Trap.Frame
import OsKernel.Trap.Syscall
import OsKernel.Trap.Usertrap
import OsKernel.Trap.UserMode
import OsKernel.Kernel.Safety
import OsKernel.Lib.PointerTree
import OsKernel.Vm.Meaning
import OsKernel.Vm.Access
import OsKernel.Exec.Path
import OsKernel.Console.Write
import OsKernel.Vm.Grow
import OsKernel.Trap.Dispatch
import OsKernel.Boot.KernelMap
import OsKernel.Boot.Main
import OsKernel.Boot.FirstProcess
import OsKernel.Console.Account
import OsKernel.Proc.Kill
import OsKernel.Run.Sections
import OsKernel.Run.Progress
import OsKernel.Run.Alone
import OsKernel.Run.Session
import OsKernel.Run.Memory
import OsKernel.Printf.Integer
import OsKernel.Lib.Guarantee
import OsKernel.Run.Coarse
import OsKernel.Run.Input
import OsKernel.Run.Zombies
import OsKernel.Kernel.Record
import OsKernel.Run.Processes
import OsKernel.Run.Console
import OsKernel.Run.Contract
import OsKernel.Run.Interrupts
import OsKernel.Run.Calls
import OsKernel.Run.Exec
import OsKernel.Run.Isolation
import OsKernel.Run.LifeCycle
import OsKernel.Run.Fairness
import OsKernel.Run.Switch
import OsKernel.Trap.Kernelvec
import OsKernel.Boot.Entry
import OsKernel.Trap.Devices
import OsKernel.Run.Transparency
