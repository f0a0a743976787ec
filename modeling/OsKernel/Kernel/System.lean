import OsKernel.Trap.Code

/-!
# The running kernel

The program at each label, the user programs, and the interrupts. A user program may compute
anything and may write what its page table lets it write; it leaves user mode by a trap with
any cause. Interrupts are those of the timer and of the devices behind the PLIC; when the UART
interrupts, it has characters that `uartgetc` is going to return.
-/

namespace OsKernel

/-- `sleep` and `yield` after `sched`. -/
def sleepBack (p : Slot) (intena : Bool) (k : Resume) : KernelM Label := do
  modHart fun h => { h with intena := intena }
  release (.proc p)
  observeBack p
  return .awake p k

/-- The callers of `sleep` take their lock again. -/
def awake (p : Slot) : Resume → KernelM Label
  | .kwait addr => do
    acquire .wait
    return .kwait p addr
  | .consoleread dst n target => do
    acquire .cons
    return .consolereadWait p dst n target
  | .usertrap => return .usertrapTail p

/-- The program at a label. -/
def kernelCode (L : Layout) : Label → Option (KernelM Label)
  | .scheduler => some do
    modHart Hart.intrOn
    return .schedulerScan 0 false
  | .schedulerScan i found => some (schedulerScan i found)
  | .schedulerBack p => some (schedulerBack p)
  | .forkret => some (forkret L)
  | .sleepBack p intena k => some (sleepBack p intena k)
  | .exitBack => some (kpanic .zombieExit)
  | .awake p k => some (awake p k)
  | .kwait p addr => some (kwaitRound L p addr)
  | .consoleread p dst n target => some (consolereadRound p dst n target)
  | .consolereadWait p dst n target => some (consolereadWaitRound L p dst n target)
  | .consolewrite p src n i => some (consolewriteRound L p src n i)
  | .sysret p v => some (syscallReturn p v)
  | .usertrapTail p => some (usertrapTail L p)
  | .userret satp => some (userretCode L satp)
  | .user => none
  | .vector => some (vector L)
  | .usertrap => some (usertrap L)

/-- An interrupt, with what the PLIC and the UART hold. -/
inductive Irq where
  | timer
  | external (claim : BitVec 32) (rx : List UInt8)

/-- The cause of an interrupt. -/
def Irq.cause : Irq → BitVec 64
  | .timer => causeTimer
  | .external _ _ => causeExternal

/-- What the devices hold after a trap: the PLIC has a claim, and if it is that of the UART,
characters have come in. -/
def Irq.devices (scause : BitVec 64) : Irq → Core → Core
  | .timer, c => c
  | .external claim rx, c =>
    if scause = causeExternal ∧ claim = uart0Irq then
      { c with claim := claim, rx := c.rx ++ rx, input := c.input ++ rx }
    else { c with claim := claim }

/-- The hart takes a trap. -/
def Hart.trap (h : Hart) (scause stval : BitVec 64) : Hart :=
  { h with
    sepc := h.pc
    scause := scause
    stval := stval
    spp := h.supervisor
    spie := h.sie
    sie := false
    supervisor := true }

/-- What user code can do to memory: it reaches the addresses `satp` maps for it to write. -/
def UserStores (satp : BitVec 64) (m m' : Mem) : Prop :=
  ∀ a, (∀ va, m.Writable (satpRoot satp) va → a ≠ m.phys (satpRoot satp) va) → m' a = m a

/-- The steps of user mode. -/
inductive UserStep : Label × K → Label × K → Prop
  | compute {s : K} {m' : Mem} (regs : Reg → BitVec 64) (pc : BitVec 64)
      (hm : UserStores s.hart.satp s.core.vm.mem m') :
      UserStep (.user, s)
        (.user, { core := s.core.setMem m', hart := { s.hart with regs := regs, pc := pc } })
  | trap {s : K} {i : Slot} (hi : s.core.cproc = some i) (scause stval : BitVec 64) (irq : Irq) :
      UserStep (.user, s)
        (.vector, { core := irq.devices scause
                      (s.core.emit (.trap i s.hart.regs s.hart.pc scause)),
                    hart := s.hart.trap scause stval })

/-- The kernel on one hart. -/
def kernel (L : Layout) : System K Panic Label Irq where
  body := kernelCode L
  env := UserStep
  enabled s := s.hart.Enabled
  enter irq s := { core := irq.devices irq.cause s.core, hart := s.hart.trap irq.cause 0 }
  handler _ := kernelvec L
  leave s := { s with hart := s.hart.sret }

end OsKernel
