import OsKernel.Console.Code
import OsKernel.Exec.Kexec
import OsKernel.Trap.Trampoline

/-!
# `trap.c`, `syscall.c`, `sysproc.c` and `sysfile.c`

Traps from user mode and from the kernel, and the system calls. A system call that can block
goes on at a label; the others return the label `sysret` with their result.
-/

namespace OsKernel

/-- `scause` of an external interrupt. -/
def causeExternal : BitVec 64 := 0x8000000000000009

/-- `scause` of a timer interrupt. -/
def causeTimer : BitVec 64 := 0x8000000000000005

/-- `UART0_IRQ`. -/
def uart0Irq : BitVec 32 := 10

/-- The virtual address of `uservec`. -/
def uservecVa (L : Layout) : BitVec 64 :=
  BitVec.ofNat 64 (trampolineVa + (L.uservec - L.trampoline))

/-! ### Interrupts -/

/-- `clockintr`. -/
def clockintr : KernelM Unit := do
  let tp ← getHart fun h => h.regs .tp
  if tp.setWidth 32 = (0 : BitVec 32) then
    acquire .ticks
    modCore fun c => { c with ticks := c.ticks + 1 }
    wakeup (some .ticks)
    release .ticks
  else
    return ()

/-- `devintr`: 2 for the timer, 1 for another device, 0 for none. -/
def devintr (L : Layout) : KernelM ℕ := do
  let scause ← getHart Hart.scause
  if scause = causeExternal then
    -- `plic_claim`; `plic_complete` leaves no trace outside the PLIC
    let irq ← getCore Core.claim
    if irq = uart0Irq then
      uartintr L
      return 1
    else if irq ≠ 0 then
      printf "unexpected interrupt irq=%d\n" [.word (irq.signExtend 64)]
      return 1
    else
      return 1
  else if scause = causeTimer then
    clockintr
    return 2
  else
    return 0

/-- `kerneltrap`. -/
def kerneltrap (L : Layout) : KernelM Unit := do
  let h ← getHart id
  if h.spp = false then
    kpanic .kerneltrapMode
  else if h.sie then
    kpanic .kerneltrapInterrupts
  else
    let dev ← devintr L
    if dev = 0 then
      printf "scause=0x%lx sepc=0x%lx stval=0x%lx\n" [.word h.scause, .word h.sepc, .word h.stval]
      kpanic .kerneltrap
    else
      -- `sepc` and `sstatus` as they were, whatever the handlers have done to them
      modHart fun h' => { h' with sepc := h.sepc, sie := h.sie, spp := h.spp, spie := h.spie }

/-- A trap taken in supervisor mode jumps to `stvec`; `kernelvec` saves the registers, calls
`kerneltrap` and restores them. -/
def kernelvec (L : Layout) : KernelM Unit := do
  let stvec ← getHart Hart.stvec
  if stvec = BitVec.ofNat 64 L.kernelvec then kerneltrap L else kpanic .fault

/-! ### System calls -/

/-- `argraw` for the registers it knows. -/
def argraw (r : Reg) : KernelM (BitVec 64) := do
  let p ← myproc
  let p ← deref p
  getCore fun c => c.tfLoad p r.offset

/-- `fetchstr`. -/
def fetchstr (L : Layout) (addr max : ℕ) : KernelM (Option (List UInt8)) := do
  let p ← myproc
  let p ← deref p
  let pr ← getCore fun c => c.procs p
  coreAtomic (liftVm (Vm.copyinstr L pr.pagetable addr max))

/-- `MAXPATH`. -/
def maxpath : ℕ := 128

/-- `sys_exec`. -/
def sysExec (L : Layout) : KernelM (BitVec 32) := do
  -- `argv` is fetched and not used
  let _ ← argraw .a1
  let addr ← argraw .a0
  let path ← fetchstr L addr.toNat maxpath
  match path with
  | none => return -1
  | some path => kexec L path

/-- `sys_exit`. -/
def sysExit : KernelM Label := do
  let n ← argraw .a0
  kexit (n.setWidth 32)

/-- `sys_wait`. -/
def sysWait : KernelM Label := do
  let addr ← argraw .a0
  kwaitEnter addr.toNat

/-- `sys_getpid`. -/
def sysGetpid : KernelM (BitVec 32) := do
  let p ← myproc
  let p ← deref p
  getCore fun c => (c.procs p).pid

/-- `sys_read`. -/
def sysRead (p : Slot) : KernelM Label := do
  let fd ← argraw .a0
  let dst ← argraw .a1
  let n ← argraw .a2
  if fd.setWidth 32 ≠ (0 : BitVec 32) then
    return .sysret p ((-1 : BitVec 32).signExtend 64)
  else
    consolereadEnter p dst.toNat (n.setWidth 32)

/-- `sys_write`. -/
def sysWrite (p : Slot) : KernelM Label := do
  let fd ← argraw .a0
  let src ← argraw .a1
  let n ← argraw .a2
  if fd.setWidth 32 ≠ (1 : BitVec 32) ∧ fd.setWidth 32 ≠ (2 : BitVec 32) then
    return .sysret p ((-1 : BitVec 32).signExtend 64)
  else
    return .consolewrite p src.toNat (n.setWidth 32) 0

/-- `syscall` up to the return of the handler. -/
def syscall (L : Layout) : KernelM Label := do
  let p ← myproc
  let p ← deref p
  let a7 ← getCore fun c => c.tfLoad p Reg.a7.offset
  -- `int num`: the upper half of the register is lost
  let num : BitVec 32 := a7.setWidth 32
  if num = 1 then do
    let v ← kfork L
    return .sysret p (v.signExtend 64)
  else if num = 2 then
    sysExit
  else if num = 3 then
    sysWait
  else if num = 5 then
    sysRead p
  else if num = 7 then do
    let v ← sysExec L
    return .sysret p (v.signExtend 64)
  else if num = 11 then do
    let v ← sysGetpid
    return .sysret p (v.signExtend 64)
  else if num = 16 then
    sysWrite p
  else
    return .sysret p (-1)

/-- `syscall` after the return of the handler. -/
def syscallReturn (p : Slot) (v : BitVec 64) : KernelM Label := do
  modCore fun c => (c.tfStore p Reg.a0.offset v).emit (.sysret p v)
  return .usertrapTail p

/-! ### Traps from user mode -/

/-- The hart enters the trampoline. The compiled kernel runs on the stack and the CPU structure
that `sp` and `tp` select and reaches its data through `satp`. -/
def vector (L : Layout) : KernelM Label := do
  let stvec ← getHart Hart.stvec
  if stvec ≠ uservecVa L then
    kpanic .fault
  else
    Prog.atomic (trampolineCode L uservec)
    let h ← getHart id
    let p ← getCore Core.cproc
    let p ← deref p
    let kstack ← getCore fun c => (c.procs p).kstack
    let kpt ← getCore Core.kernelPagetable
    if h.regs .t0 = BitVec.ofNat 64 L.usertrap ∧ h.regs .sp = BitVec.ofNat 64 (kstack + pgsize) ∧
        h.regs .tp = 0 ∧ h.satp = satpOf kpt then
      return .usertrap
    else
      kpanic .fault

/-- `usertrap` for a trap that is not a system call. -/
def usertrapOther (L : Layout) (p : Slot) : KernelM Label := do
  let dev ← devintr L
  if dev ≠ 0 then
    return .usertrapTail p
  else
    let h ← getHart id
    let pid ← getCore fun c => (c.procs p).pid
    printf "usertrap(): unexpected scause 0x%lx pid=%d\n"
      [.word h.scause, .word (pid.signExtend 64)]
    printf "            sepc=0x%lx stval=0x%lx\n" [.word h.sepc, .word h.stval]
    setkilled p
    return .usertrapTail p

/-- `usertrap` up to the check for `killed`. -/
def usertrap (L : Layout) : KernelM Label := do
  let spp ← getHart Hart.spp
  if spp then
    kpanic .usertrapMode
  else
    modHart fun h => { h with stvec := BitVec.ofNat 64 L.kernelvec }
    let p ← myproc
    let p ← deref p
    let sepc ← getHart Hart.sepc
    modCore (Core.tfStore p tfEpc sepc)
    let scause ← getHart Hart.scause
    if scause = 8 then
      -- on return the process goes on after its `ecall`
      modCore fun c => c.tfStore p tfEpc (c.tfLoad p tfEpc + 4)
      modHart Hart.intrOn
      syscall L
    else
      usertrapOther L p

/-- `usertrapret`. -/
def usertrapret (L : Layout) : KernelM Unit := do
  let p ← myproc
  let p ← deref p
  -- once `stvec` is `uservec`, no interrupt may be taken in the kernel
  modHart Hart.intrOff
  modHart fun h => { h with stvec := uservecVa L }
  let satp ← getHart Hart.satp
  modCore (Core.tfStore p tfKernelSatp satp)
  modCore fun c => c.tfStore p tfKernelSp (BitVec.ofNat 64 ((c.procs p).kstack + pgsize))
  modCore (Core.tfStore p tfKernelTrap (BitVec.ofNat 64 L.usertrap))
  let tp ← getHart fun h => h.regs .tp
  modCore (Core.tfStore p tfKernelHartid tp)
  modHart fun h => { h with spp := false, spie := true }
  let epc ← getCore fun c => c.tfLoad p tfEpc
  modHart fun h => { h with sepc := epc }

/-- `usertrap` from the check for `killed` on. -/
def usertrapTail (L : Layout) (p : Slot) : KernelM Label := do
  let k ← killed p
  if k then
    kexit (-1)
  else
    usertrapret L
    let pt ← getCore fun c => (c.procs p).pagetable
    return .userret (satpOf pt)

/-- `forkret`. The trapframe holds unsigned words, so the test for a failed `kexec` compares an
unsigned word with 0. -/
def forkret (L : Layout) : KernelM Label := do
  let p ← myproc
  let p ← deref p
  release (.proc p)
  let first ← getCore Core.first
  if first then
    modCore fun c => { c with first := false }
    let v ← kexec L (cstr "sh")
    modCore (Core.tfStore p Reg.a0.offset (v.signExtend 64))
    let a0 ← getCore fun c => c.tfLoad p Reg.a0.offset
    -- never true
    if a0.toNat < 0 then
      kpanic .execSh
    else
      usertrapret L
      let pt ← getCore fun c => (c.procs p).pagetable
      return .userret (satpOf pt)
  else
    usertrapret L
    let pt ← getCore fun c => (c.procs p).pagetable
    return .userret (satpOf pt)

/-- `userret` with the user `satp` in `a0`. -/
def userretCode (L : Layout) (satp : BitVec 64) : KernelM Label := do
  modHart fun h => h.setReg .a0 satp
  Prog.atomic (trampolineCode L userret)
  let spp ← getHart Hart.spp
  let p ← getCore Core.cproc
  let p ← deref p
  if spp then
    kpanic .fault
  else
    Prog.update fun s =>
      { core := s.core.emit (.resume p s.hart.regs s.hart.sepc), hart := s.hart.sret }
    return .user

end OsKernel
