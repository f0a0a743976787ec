import OsKernel.Kernel.Spinlock
import OsKernel.Proc.PageTable

/-!
# `proc.c`: processes, fork, exit, wait and the scheduler

The functions of `proc.c` as kernel programs. A loop over the process table is a recursion
over the list of its slots. What a function does to data that no interrupt handler looks at,
between two operations on locks, is one step.

`sched` ends a program: it saves the label its caller goes on at as the context of the process
and returns the label in the context of the CPU. So `sleep` and `kexit` return labels, and
what their callers do afterwards stands at those labels.
-/

namespace OsKernel

/-- The process table in the order of its loops. -/
def slots : List Slot := List.finRange nproc

/-! ### Trapframes -/

/-- The offset of a register in `struct trapframe`. -/
def Reg.offset : Reg → ℕ
  | .ra => 40 | .sp => 48 | .gp => 56 | .tp => 64 | .t0 => 72 | .t1 => 80 | .t2 => 88
  | .s0 => 96 | .s1 => 104 | .a0 => 112 | .a1 => 120 | .a2 => 128 | .a3 => 136 | .a4 => 144
  | .a5 => 152 | .a6 => 160 | .a7 => 168 | .s2 => 176 | .s3 => 184 | .s4 => 192 | .s5 => 200
  | .s6 => 208 | .s7 => 216 | .s8 => 224 | .s9 => 232 | .s10 => 240 | .s11 => 248 | .t3 => 256
  | .t4 => 264 | .t5 => 272 | .t6 => 280

/-- The offsets of the other fields of `struct trapframe`. -/
def tfKernelSatp : ℕ := 0
def tfKernelSp : ℕ := 8
def tfKernelTrap : ℕ := 16
def tfEpc : ℕ := 24
def tfKernelHartid : ℕ := 32

/-- `sizeof(struct trapframe)`. -/
def tfSize : ℕ := 288

namespace Core

/-- A field of `proc[i].trapframe`. -/
def tfLoad (c : Core) (i : Slot) (off : ℕ) : BitVec 64 :=
  BitVec.ofNat 64 (c.vm.mem.load64 ((c.procs i).trapframe + off))

/-- Assignment to a field of `proc[i].trapframe`. -/
def tfStore (i : Slot) (off : ℕ) (v : BitVec 64) (c : Core) : Core :=
  c.setMem (c.vm.mem.store64 ((c.procs i).trapframe + off) v.toNat)

/-- `proc[child].parent = parent`. -/
def setParent (child : Slot) (parent : Option Slot) (c : Core) : Core :=
  (c.setProc child fun p => { p with parent := parent }).emit (.parentSet c.cproc child parent)

theorem setParent_self (c : Core) (i : Slot) (par : Option Slot) :
    (c.setParent i par).procs i = { c.procs i with parent := par } :=
  c.setProc_self i fun pr => { pr with parent := par }

theorem setParent_ne (c : Core) {i j : Slot} (par : Option Slot) (h : j ≠ i) :
    (c.setParent i par).procs j = c.procs j :=
  c.setProc_ne (fun pr => { pr with parent := par }) h

end Core

/-! ### Allocation -/

/-- `allocpid`. -/
def allocpid : KernelM (BitVec 32) := do
  acquire .pid
  let pid ← getCore Core.nextpid
  modCore fun c => { c with nextpid := pid + 1 }
  release .pid
  return pid

/-- What `freeproc` leaves in `struct proc`. The parent, the context and the kernel stack stay. -/
def Proc.clear (p : Proc) : Proc :=
  { p with
    trapframe := 0
    pagetable := 0
    sz := 0
    pid := 0
    name := p.name.set 0 0
    chan := none
    killed := false
    xstate := 0
    state := .unused }

/-- `freeproc`. -/
def freeproc (L : Layout) (p : Slot) : CoreM Unit := do
  let pr ← PanicM.read fun c => c.procs p
  liftVm (if pr.trapframe ≠ 0 then Vm.kfree pr.trapframe else pure ())
  liftVm (if pr.pagetable ≠ 0 then Vm.procFreepagetable L pr.pagetable pr.sz else pure ())
  PanicM.update fun c => (c.setProc p Proc.clear).emit (.freed c.cproc p)

/-- The part of `allocproc` after `found`. -/
def allocprocFound (L : Layout) (p : Slot) : KernelM (Option Slot) := do
  let pid ← allocpid
  modCore fun c => c.setProc p fun pr => { pr with pid := pid, state := .used }
  let tf ← coreAtomic (liftVm (Vm.kalloc L))
  modCore fun c => c.setProc p fun pr => { pr with trapframe := tf }
  if tf = 0 then
    coreAtomic (freeproc L p)
    release (.proc p)
    return none
  else
    let pt ← coreAtomic (liftVm (Vm.procPagetable L tf))
    modCore fun c => c.setProc p fun pr => { pr with pagetable := pt }
    if pt = 0 then
      coreAtomic (freeproc L p)
      release (.proc p)
      return none
    else
      modCore fun c => c.setProc p fun pr => { pr with context := some .forkret }
      return some p

/-- The loop of `allocproc`. -/
def allocprocScan (L : Layout) : List Slot → KernelM (Option Slot)
  | [] => return none
  | p :: ps => do
    acquire (.proc p)
    let state ← getCore fun c => (c.procs p).state
    if state = .unused then
      allocprocFound L p
    else
      release (.proc p)
      allocprocScan L ps

/-- `allocproc`: a process with its lock held, or the null pointer. -/
def allocproc (L : Layout) : KernelM (Option Slot) := allocprocScan L slots

/-! ### Sleeping -/

/-- `wakeup` for one process. -/
def Proc.wake (chan : Option Chan) (p : Proc) : Proc :=
  -- the channel is cleared also when the process has prepared to sleep and does not sleep yet
  if p.chan = chan then
    { p with chan := none, state := if p.state = .sleeping then .runnable else p.state }
  else p

/-- The loop of `wakeup`. -/
def wakeupLoop (chan : Option Chan) : List Slot → KernelM Unit
  | [] => return ()
  | p :: ps => do
    acquire (.proc p)
    modCore fun c => c.setProc p (Proc.wake chan)
    release (.proc p)
    wakeupLoop chan ps

/-- `wakeup`. -/
def wakeup (chan : Option Chan) : KernelM Unit := wakeupLoop chan slots

/-- `swtch` to a saved context. -/
def swtch : Option Label → KernelM Label
  | some l => return l
  | none => kpanic .fault

/-- `sched`, with the label at which its caller goes on; the label holds the local `intena`. -/
def sched (back : Bool → Label) : KernelM Label := do
  let p ← myproc
  let p ← deref p
  let held ← holding (.proc p)
  if held = false then
    kpanic .schedLock
  else
    let noff ← getHart Hart.noff
    if noff ≠ 1 then
      kpanic .schedLocks
    else
      let state ← getCore fun c => (c.procs p).state
      if state = .running then
        kpanic .schedRunning
      else
        let sie ← getHart Hart.sie
        if sie then
          kpanic .schedInterruptible
        else
          let intena ← getHart Hart.intena
          modCore fun c => c.setProc p fun pr => { pr with context := some (back intena) }
          let l ← getCore Core.ccontext
          swtch l

/-- **`sched`** saves the context of the running process and goes on where that of the CPU leads. -/
theorem sched_post (back : Bool → Label) (s : K) : (sched back).Post s fun b t =>
    s.core.ccontext = some b ∧ ∃ p intena, s.core.cproc = some p ∧
      t.core = s.core.setProc p fun pr => { pr with context := some (back intena) } := by
  refine .bind ((myproc_post s).mono ?_)
  rintro q t ⟨hq, ht⟩
  cases q with
  | none => exact .bind Prog.post_panic
  | some p =>
    refine .bind (Prog.post_pure ?_)
    -- the checks for the lock, the depth of `push_off`, the state and the interrupts
    refine .guard fun _ => ?_
    refine .guard fun _ => ?_
    refine .guard fun _ => ?_
    refine .guard fun _ => ?_
    refine .bind (Prog.post_read ?_)
    refine .bind (Prog.post_update (.bind (Prog.post_read ?_)))
    show (swtch t.core.ccontext).Post _ _
    rw [ht]
    cases hl : s.core.ccontext with
    | none => exact Prog.post_panic
    | some l => exact Prog.post_pure ⟨rfl, p, t.hart.intena, hq.symm, rfl⟩

/-- `sleep_prepare`. -/
def sleepPrepare (chan : Chan) : KernelM Unit := do
  let p ← myproc
  let p ← deref p
  acquire (.proc p)
  modCore fun c => (c.setProc p fun pr => { pr with chan := some chan }).emit (.prepare p)
  release (.proc p)

/-- An observer sees the call of `sleep` or `yield`. -/
def observePause (p : Slot) : KernelM Unit :=
  Prog.update fun s => { s with core := s.core.emit (.pause p s.hart.sie) }

/-- An observer sees the return from `sleep` or `yield`. -/
def observeBack (p : Slot) : KernelM Unit :=
  Prog.update fun s => { s with core := s.core.emit (.back p s.hart.sie s.hart.noff) }

/-- `sleep`. -/
def sleep (k : Resume) : KernelM Label := do
  let p ← myproc
  let p ← deref p
  observePause p
  acquire (.proc p)
  let chan ← getCore fun c => (c.procs p).chan
  -- a `wakeup` since `sleep_prepare` has cleared the channel, and then there is nothing to wait for
  if chan ≠ none then
    modCore fun c => c.setProc p fun pr => { pr with state := .sleeping }
    sched fun intena => .sleepBack p intena k
  else
    release (.proc p)
    observeBack p
    return .awake p k

/-- `yield`. -/
def yield (k : Resume) : KernelM Label := do
  let p ← myproc
  let p ← deref p
  observePause p
  acquire (.proc p)
  modCore fun c => c.setProc p fun pr => { pr with state := .runnable }
  sched fun intena => .sleepBack p intena k

/-- `setkilled`. -/
def setkilled (p : Slot) : KernelM Unit := do
  acquire (.proc p)
  modCore fun c => c.setProc p fun pr => { pr with killed := true }
  release (.proc p)

/-- `killed`. -/
def killed (p : Slot) : KernelM Bool := do
  acquire (.proc p)
  let k ← getCore fun c => (c.procs p).killed
  release (.proc p)
  return k

/-- What `kkill` does to the process it has found. -/
def Proc.kill (p : Proc) : Proc :=
  { p with killed := true, state := if p.state = .sleeping then .runnable else p.state }

/-- The loop of `kkill`. -/
def kkillLoop (pid : BitVec 32) : List Slot → KernelM (BitVec 32)
  | [] => return -1
  | p :: ps => do
    acquire (.proc p)
    let pr ← getCore fun c => c.procs p
    -- the state is not looked at
    if pr.pid = pid then
      modCore fun c => c.setProc p Proc.kill
      release (.proc p)
      return 0
    else
      release (.proc p)
      kkillLoop pid ps

/-- `kkill`. Nothing in the kernel calls it. -/
def kkill (pid : BitVec 32) : KernelM (BitVec 32) := kkillLoop pid slots

/-! ### Fork, exit and wait -/

/-- What `kfork` does between `uvmcopy` and `release`: the child has the size, the trapframe
and the name of its parent, and returns 0. -/
def Core.forkCopy (p np : Slot) (c : Core) : Core :=
  let c := c.setProc np fun pr => { pr with sz := (c.procs p).sz }
  let c := c.setMem (c.vm.mem.memmove (c.procs np).trapframe (c.procs p).trapframe tfSize)
  let c := c.tfStore np Reg.a0.offset 0
  let c := c.setProc np fun pr => { pr with name := safestrcpy pr.name (c.procs p).name 16 }
  c.emit (.forked p np)

/-- `kfork`. -/
def kfork (L : Layout) : KernelM (BitVec 32) := do
  let p ← myproc
  let p ← deref p
  let np ← allocproc L
  match np with
  | none => return -1
  | some np =>
    let pr ← getCore fun c => c.procs p
    let pt ← getCore fun c => (c.procs np).pagetable
    let ok ← coreAtomic (liftVm (Vm.uvmcopy L pr.pagetable pt pr.sz))
    if ok = false then
      coreAtomic (freeproc L np)
      release (.proc np)
      return -1
    else
      modCore (Core.forkCopy p np)
      let pid ← getCore fun c => (c.procs np).pid
      -- `wait_lock` comes before the lock of a process, so that one is given up here
      release (.proc np)
      acquire .wait
      modCore (Core.setParent np (some p))
      release .wait
      acquire (.proc np)
      modCore fun c => c.setProc np fun pr => { pr with state := .runnable }
      release (.proc np)
      return pid

/-- The loop of `reparent`. -/
def reparentLoop (p : Slot) : List Slot → KernelM Unit
  | [] => return ()
  | pp :: ps => do
    let parent ← getCore fun c => (c.procs pp).parent
    if parent = some p then
      let initproc ← getCore Core.initproc
      modCore (Core.setParent pp initproc)
      wakeup (initproc.map Chan.proc)
      reparentLoop p ps
    else
      reparentLoop p ps

/-- `reparent`. -/
def reparent (p : Slot) : KernelM Unit := reparentLoop p slots

/-- `kexit`. -/
def kexit (status : BitVec 32) : KernelM Label := do
  let p ← myproc
  let p ← deref p
  let initproc ← getCore Core.initproc
  if some p = initproc then
    kpanic .initExiting
  else
    acquire .wait
    reparent p
    -- the parent is woken before the state says so; it has to wait for `wait_lock`
    let parent ← getCore fun c => (c.procs p).parent
    wakeup (parent.map Chan.proc)
    acquire (.proc p)
    modCore fun c =>
      (c.setProc p fun pr => { pr with xstate := status, state := .zombie }).emit
        (.exited p (c.procs p).pid status)
    release .wait
    sched fun _ => .exitBack

/-- The value at a user address of process `p`. -/
def Core.userWord (c : Core) (p : Slot) (addr : ℕ) : BitVec 32 :=
  BitVec.ofNat 32 (leValue (c.vm.mem.userBytes (c.procs p).pagetable addr 4))

/-- The loop of `kwait` over the process table: the value `kwait` returns, or whether `p` has
a child. -/
def kwaitScan (L : Layout) (p : Slot) (addr : ℕ) :
    List Slot → Bool → KernelM (Except (BitVec 32) Bool)
  | [], havekids => return .ok havekids
  | pp :: ps, havekids => do
    let parent ← getCore fun c => (c.procs pp).parent
    if parent = some p then
      acquire (.proc pp)
      let state ← getCore fun c => (c.procs pp).state
      if state = .zombie then
        let pid ← getCore fun c => (c.procs pp).pid
        let pt ← getCore fun c => (c.procs p).pagetable
        let xstate ← getCore fun c => (c.procs pp).xstate
        let ok ← coreAtomic (liftVm (if addr ≠ 0 then
          Vm.copyout L pt addr (.buffer (leBytes 4 xstate.toNat)) 4 else pure true))
        if ok = false then
          -- the child stays a zombie
          modCore fun c => c.emit (.waitRet p (-1))
          release (.proc pp)
          release .wait
          return .error (-1)
        else
          modCore fun c => c.emit (.reaped p pp pid addr (c.userWord p addr))
          modCore (Core.setParent pp none)
          coreAtomic (freeproc L pp)
          modCore fun c => c.emit (.waitRet p pid)
          release (.proc pp)
          release .wait
          return .error pid
      else
        release (.proc pp)
        kwaitScan L p addr ps true
    else
      kwaitScan L p addr ps havekids

/-- `kwait` up to its loop. -/
def kwaitEnter (addr : ℕ) : KernelM Label := do
  let p ← myproc
  let p ← deref p
  acquire .wait
  modCore fun c => c.emit (.waitCall p addr)
  return .kwait p addr

/-- One round of `for (;;)` in `kwait`. -/
def kwaitRound (L : Layout) (p : Slot) (addr : ℕ) : KernelM Label := do
  let r ← kwaitScan L p addr slots false
  match r with
  | .error v => return .sysret p (v.signExtend 64)
  | .ok havekids =>
    let stop ← if havekids then killed p else pure true
    if stop then
      modCore fun c => c.emit (.waitRet p (-1))
      release .wait
      return .sysret p ((-1 : BitVec 32).signExtend 64)
    else
      sleepPrepare (.proc p)
      release .wait
      sleep (.kwait addr)

/-! ### The scheduler -/

/-- The round of `scheduler` for `proc[i]`. -/
def schedulerScan (i : ℕ) (found : Bool) : KernelM Label :=
  if h : i < nproc then do
    acquire (.proc ⟨i, h⟩)
    let pr ← getCore fun c => c.procs ⟨i, h⟩
    if pr.state = .runnable then
      modCore fun c =>
        { c.setProc ⟨i, h⟩ fun pr => { pr with state := .running } with
          cproc := some ⟨i, h⟩
          ccontext := some (.schedulerBack ⟨i, h⟩) }
      swtch pr.context
    else
      release (.proc ⟨i, h⟩)
      return .schedulerScan (i + 1) found
  else
    -- `wfi` when nothing was found: the hart waits, the state stays
    return .scheduler

/-- `scheduler` after a process has switched back to it. -/
def schedulerBack (p : Slot) : KernelM Label := do
  modCore fun c => { c with cproc := none }
  release (.proc p)
  return .schedulerScan (p + 1) true

/-- `either_copyout`. -/
def eitherCopyout (L : Layout) (userDst : Bool) (dst : ℕ) (bytes : List UInt8) :
    KernelM Bool := do
  let p ← myproc
  let p ← deref p
  let pr ← getCore fun c => c.procs p
  if userDst then
    coreAtomic (liftVm (Vm.copyout L pr.pagetable dst (.buffer bytes) bytes.length))
  else
    modCore fun c => c.setMem (c.vm.mem.writeBytes dst bytes)
    return true

/-- `either_copyin`. -/
def eitherCopyin (L : Layout) (userSrc : Bool) (src len : ℕ) : KernelM (Option (List UInt8)) := do
  let p ← myproc
  let p ← deref p
  let pr ← getCore fun c => c.procs p
  if userSrc then
    coreAtomic (liftVm (Vm.copyin L pr.pagetable src len))
  else
    getCore fun c => some (c.vm.mem.readBytes src len)

/-! ### A sample state -/

/-- A hart that runs the kernel with interrupts on and no lock held. -/
def Hart.plain (L : Layout) : Hart where
  sie := true
  supervisor := true
  spp := false
  spie := true
  sepc := 0
  scause := 0
  stval := 0
  stvec := BitVec.ofNat 64 L.kernelvec
  satp := 0
  sscratch := 0
  regs := fun _ => 0
  pc := 0
  held := ∅
  noff := 0
  intena := false
  opens := 0

/-- `struct proc` of a slot that was never used. -/
def Proc.zero (i : Slot) : Proc where
  state := .unused
  pid := 0
  parent := none
  killed := false
  xstate := 0
  name := List.replicate 16 0
  sz := 0
  pagetable := 0
  trapframe := 0
  kstack := kstackVa i
  context := none
  chan := none

/-- The process in slot 0 runs, with one page of memory. -/
def onePageCore : Core where
  vm := onePageVm
  kernelPagetable := 0x80050000
  procs := Function.update Proc.zero 0
    { Proc.zero 0 with
      state := .running
      pid := 1
      sz := 4096
      pagetable := 0x80041000
      trapframe := 0x80051000 }
  initproc := some 0
  nextpid := 2
  first := false
  cons := ⟨fun _ => 0, 0, 0, 0⟩
  ticks := 0
  tx := []
  claim := 0
  rx := []
  input := []
  cproc := some 0
  ccontext := some (.schedulerBack 0)
  log := []

/-- The machine in this state. -/
def onePageK (L : Layout) : K := ⟨onePageCore, Hart.plain L⟩

end OsKernel
