import Mathlib.Data.Finset.Card
import OsKernel.Lib.Interruptible
import OsKernel.Vm.Code

/-!
# The state of the kernel

One hart runs the kernel. Its state has two halves. `Core` is what the kernel's data
structures hold: the memory with its page tables, the process table, the console ring, the
`proc` and `context` fields of `cpus[0]`, and what the devices hold. `Hart` is what the locks and
the interrupts work on: the control registers, the registers, `noff` and `intena`, the set of held
locks.

Code that a context can be switched to, and the heads of loops without a bound, are *labels*;
a saved `struct context` is the label its `ra` leads to together with the local variables that
are live there, which the kernel keeps on the stack of the process.

Three components have no counterpart in the C code. `Hart.opens` counts the calls of
`push_off` that no `pop_off` has answered and that do not belong to a held lock.
`Core.log` is the record of an observer: what happened at the borders of the kernel, latest
first. `Core.input` is what the observer has seen coming in at the UART. No code reads them.
-/

namespace OsKernel

/-- The 31 general registers. -/
inductive Reg where
  | ra | sp | gp | tp | t0 | t1 | t2 | s0 | s1 | a0 | a1 | a2 | a3 | a4 | a5 | a6 | a7
  | s2 | s3 | s4 | s5 | s6 | s7 | s8 | s9 | s10 | s11 | t3 | t4 | t5 | t6
  deriving DecidableEq, Repr

/-- `enum procstate`. -/
inductive ProcState where
  | unused | used | sleeping | runnable | running | zombie
  deriving DecidableEq, Repr

/-- The addresses the kernel sleeps on: `&cons.r`, `&ticks` and `&proc[i]`. -/
inductive Chan where
  | consR | ticks | proc (i : Slot)
  deriving DecidableEq, Repr

/-- The spinlocks: `pid_lock`, `wait_lock`, `tickslock`, `cons.lock` and `proc[i].lock`. -/
inductive Lock where
  | pid | wait | ticks | cons | proc (i : Slot)
  deriving DecidableEq, Repr

/-- The callers of `sleep` and `yield`, with the local variables they use afterwards. Nothing in
the kernel calls `yield`; its caller is taken to be `usertrap`, after the trap is dealt with. -/
inductive Resume where
  | kwait (addr : ℕ)
  | consoleread (dst : ℕ) (n target : BitVec 32)
  | usertrap
  deriving DecidableEq, Repr

/-- Where the hart can be between two programs. A label inside a system call carries the
`p` of the frames of `usertrap` and `syscall` below it. -/
inductive Label where
  /-- The head of `for (;;)` in `scheduler`. -/
  | scheduler
  /-- The head of the loop over the process table, at `proc[p]`. -/
  | schedulerScan (p : ℕ) (found : Bool)
  /-- `scheduler` after `swtch`. -/
  | schedulerBack (p : Slot)
  | forkret
  /-- `sleep` or `yield` after `sched`, which has saved `intena`. -/
  | sleepBack (p : Slot) (intena : Bool) (k : Resume)
  /-- `kexit` after `sched`. -/
  | exitBack
  /-- The caller of `sleep` or `yield` after it. -/
  | awake (p : Slot) (k : Resume)
  /-- The head of `for (;;)` in `kwait`. -/
  | kwait (p : Slot) (addr : ℕ)
  /-- The head of the outer loop of `consoleread`. -/
  | consoleread (p : Slot) (dst : ℕ) (n target : BitVec 32)
  /-- The head of its inner loop. -/
  | consolereadWait (p : Slot) (dst : ℕ) (n target : BitVec 32)
  /-- The head of the loop of `consolewrite`. -/
  | consolewrite (p : Slot) (src : ℕ) (n i : BitVec 32)
  /-- `syscall` with the value its handler returned. -/
  | sysret (p : Slot) (v : BitVec 64)
  /-- `usertrap` after the trap is dealt with. -/
  | usertrapTail (p : Slot)
  /-- `userret` in the trampoline, with the user `satp` in `a0`. -/
  | userret (satp : BitVec 64)
  /-- User mode. -/
  | user
  /-- The hart has taken a trap from user mode and jumps to `stvec`. -/
  | vector
  | usertrap

/-- `struct proc`, without its lock. A null pointer to a process or a channel is `none`. -/
structure Proc where
  state : ProcState
  pid : BitVec 32
  parent : Option Slot
  killed : Bool
  xstate : BitVec 32
  name : List UInt8
  sz : ℕ
  pagetable : ℕ
  trapframe : ℕ
  kstack : ℕ
  context : Option Label
  chan : Option Chan

/-- `LAB2_BUF_SIZE`. -/
def inputBufSize : ℕ := 128

/-- The struct `cons`, without its lock. -/
structure Cons where
  buf : ℕ → UInt8
  r : BitVec 32
  w : BitVec 32
  e : BitVec 32

/-- What an observer of the kernel records. -/
inductive Event where
  /-- Process `i` leaves user mode with these registers and this `pc`. -/
  | trap (i : Slot) (regs : Reg → BitVec 64) (pc scause : BitVec 64)
  /-- Process `i` enters user mode. -/
  | resume (i : Slot) (regs : Reg → BitVec 64) (pc : BitVec 64)
  /-- A system call of `i` returns `v`. -/
  | sysret (i : Slot) (v : BitVec 64)
  /-- `child` has become a copy of `parent`. -/
  | forked (parent child : Slot)
  /-- `i` has a new image. -/
  | execed (i : Slot)
  /-- `proc[child].parent` is set while `actor` runs. -/
  | parentSet (actor : Option Slot) (child : Slot) (parent : Option Slot)
  /-- `freeproc(&proc[i])` while `actor` runs. -/
  | freed (actor : Option Slot) (i : Slot)
  | exited (i : Slot) (pid status : BitVec 32)
  | waitCall (i : Slot) (addr : ℕ)
  /-- `kwait(addr)` of `i` is going to return `pid` for the zombie `child`; `stored` is what
  `i` reads at `addr` from now on. -/
  | reaped (i child : Slot) (pid : BitVec 32) (addr : ℕ) (stored : BitVec 32)
  | waitRet (i : Slot) (v : BitVec 32)
  /-- `consoleintr(c)`. -/
  | arrived (c : UInt8)
  /-- `consputc(c)` by `consoleintr`. -/
  | echoed (c : UInt8)
  /-- `consoleread(1, dst, n)`; `writable` tells whether `i` can write all of the buffer. -/
  | readCall (i : Slot) (dst : ℕ) (n : BitVec 32) (writable : Bool)
  /-- `consoleread` of `i` has taken a byte from the ring and `i` reads `b` at its place in
  the buffer. -/
  | handed (i : Slot) (b : UInt8)
  /-- `consoleread` of `i` has taken a byte from the ring and could not copy it. -/
  | lost (i : Slot) (b : UInt8)
  | readRet (i : Slot) (v : BitVec 32)
  /-- `sleep_prepare` by `i`. -/
  | prepare (i : Slot)
  /-- `i` calls `sleep` or `yield`, with interrupts on or off. -/
  | pause (i : Slot) (sie : Bool)
  /-- The call returns. -/
  | back (i : Slot) (sie : Bool) (noff : ℕ)

/-- The data structures of the kernel. -/
structure Core where
  vm : Vm
  kernelPagetable : ℕ
  procs : Slot → Proc
  initproc : Option Slot
  nextpid : BitVec 32
  /-- `first` of `forkret`. -/
  first : Bool
  cons : Cons
  ticks : BitVec 32
  /-- The bytes sent to the UART. -/
  tx : List UInt8
  /-- What `plic_claim` returns. -/
  claim : BitVec 32
  /-- The characters the UART has for `uartgetc`. -/
  rx : List UInt8
  /-- All characters the UART has interrupted for. -/
  input : List UInt8
  /-- `cpus[0].proc`. -/
  cproc : Option Slot
  /-- `cpus[0].context`. -/
  ccontext : Option Label
  log : List Event

/-- The state of the hart and of the locks. -/
structure Hart where
  /-- `sstatus.SIE`. -/
  sie : Bool
  /-- The hart is in supervisor mode. -/
  supervisor : Bool
  /-- `sstatus.SPP` is supervisor. -/
  spp : Bool
  /-- `sstatus.SPIE`. -/
  spie : Bool
  sepc : BitVec 64
  scause : BitVec 64
  stval : BitVec 64
  stvec : BitVec 64
  satp : BitVec 64
  sscratch : BitVec 64
  regs : Reg → BitVec 64
  pc : BitVec 64
  /-- The locks whose `locked` is 1. -/
  held : Finset Lock
  /-- An `int` in the source. It counts the sections the hart is in, one for each held lock and
  each open `push_off`. The code nests only a few of them, far from `2 ^ 31`. -/
  noff : ℕ
  intena : Bool
  opens : ℕ

/-- The state of the machine. -/
structure K where
  core : Core
  hart : Hart

/-- A kernel program. -/
abbrev KernelM := Prog K Panic

/-- A computation on the data structures of the kernel. -/
abbrev CoreM := PanicM Core Panic

namespace Core

/-- Changes one process. -/
def setProc (c : Core) (i : Slot) (f : Proc → Proc) : Core :=
  { c with procs := Function.update c.procs i (f (c.procs i)) }

/-- Records an event. -/
def emit (c : Core) (e : Event) : Core := { c with log := e :: c.log }

/-- Changes what `vm.c` works on. -/
def setVm (c : Core) (v : Vm) : Core := { c with vm := v }

/-- Changes the physical memory. -/
def setMem (c : Core) (m : Mem) : Core := c.setVm { c.vm with mem := m }

@[simp] theorem setVm_setVm (c : Core) (v v' : Vm) : (c.setVm v).setVm v' = c.setVm v' := rfl

@[simp] theorem setProc_self (c : Core) (i : Slot) (f : Proc → Proc) :
    (c.setProc i f).procs i = f (c.procs i) := Function.update_self ..

theorem setProc_ne (c : Core) {i j : Slot} (f : Proc → Proc) (h : j ≠ i) :
    (c.setProc i f).procs j = c.procs j := Function.update_of_ne h ..

/-- What holds of the changed process and of the others holds of all. -/
theorem forall_setProc {c : Core} {i : Slot} {f : Proc → Proc} {P : Slot → Proc → Prop}
    (hi : P i (f (c.procs i))) (hne : ∀ j, j ≠ i → P j (c.procs j)) (j : Slot) :
    P j ((c.setProc i f).procs j) := by
  by_cases hj : j = i
  · subst hj
    rwa [setProc_self]
  · rw [setProc_ne _ _ hj]
    exact hne j hj

theorem setProc_setProc (c : Core) (i : Slot) (f g : Proc → Proc) :
    (c.setProc i f).setProc i g = c.setProc i fun p => g (f p) := by
  simp [setProc]

end Core

/-- A computation of `vm.c` on the memory of the kernel. -/
def liftVm {α : Type} (x : VmM α) : CoreM α := PanicM.zoom Core.vm Core.setVm x

theorem liftVm_of_ok {α : Type} {x : VmM α} {c : Core} {a : α} {v : Vm} (h : x c.vm = .ok (a, v)) :
    liftVm x c = .ok (a, c.setVm v) := PanicM.zoom_eq_ok_iff.mpr ⟨v, h, rfl⟩

theorem liftVm_of_error {α : Type} {x : VmM α} {c : Core} {e : Panic} (h : x c.vm = .error e) :
    liftVm x c = .error e := PanicM.zoom_eq_error_iff.mpr h

theorem returns_liftVm {α : Type} {x : VmM α} {c : Core} {Q : α → Core → Prop} :
    (liftVm x).Returns c Q ↔ x.Returns c.vm fun a v => Q a (c.setVm v) := PanicM.returns_zoom

/-- A computation on the data structures as one step of a program. -/
def coreAtomic {α : Type} (x : CoreM α) : KernelM α :=
  Prog.atomic (PanicM.zoom K.core (fun s c => { s with core := c }) x)

theorem vmAtomic_bind_congr {α β γ : Type} {x : VmM α} {y : VmM β} {f : α → KernelM γ}
    {g : β → KernelM γ} (h : ∀ v, (∃ e, x v = .error e ∧ y v = .error e) ∨
      ∃ a b v', x v = .ok (a, v') ∧ y v = .ok (b, v') ∧ f a = g b) :
    (coreAtomic (liftVm x) >>= f) = (coreAtomic (liftVm y) >>= g) := by
  refine Prog.atomic_bind_congr fun s => ?_
  rcases h s.core.vm with ⟨e, hx, hy⟩ | ⟨a, b, v', hx, hy, hfg⟩
  · exact .inl ⟨e, PanicM.zoom_eq_error_iff.mpr (liftVm_of_error hx),
      PanicM.zoom_eq_error_iff.mpr (liftVm_of_error hy)⟩
  · exact .inr ⟨a, b, _, PanicM.zoom_eq_ok_iff.mpr ⟨_, liftVm_of_ok hx, rfl⟩,
      PanicM.zoom_eq_ok_iff.mpr ⟨_, liftVm_of_ok hy, rfl⟩, hfg⟩

theorem run_coreAtomic {α : Type} {x : CoreM α} {s : K} {a : α} {c : Core}
    (h : x s.core = .ok (a, c)) : (coreAtomic x).run s = .ok (a, { s with core := c }) := by
  rw [coreAtomic, Prog.run_atomic]
  exact PanicM.zoom_eq_ok_iff.mpr ⟨_, h, rfl⟩

theorem run_vmAtomic {α : Type} {x : VmM α} {s : K} {a : α} {v : Vm}
    (h : x s.core.vm = .ok (a, v)) :
    (coreAtomic (liftVm x)).run s = .ok (a, { s with core := s.core.setVm v }) :=
  run_coreAtomic (liftVm_of_ok h)

theorem coreAtomic_post {α : Type} {x : CoreM α} {s : K} {Q : α → K → Prop}
    (h : ∀ a c, x s.core = .ok (a, c) → Q a { s with core := c }) : (coreAtomic x).Post s Q := by
  intro a t hrun
  rw [coreAtomic, Prog.run_atomic, PanicM.zoom_eq_ok_iff] at hrun
  obtain ⟨c, hx, rfl⟩ := hrun
  exact h a c hx

theorem vmAtomic_post {α : Type} {x : VmM α} {s : K} {Q : α → K → Prop}
    (h : ∀ a v, x s.core.vm = .ok (a, v) → Q a { s with core := s.core.setVm v }) :
    (coreAtomic (liftVm x)).Post s Q := by
  refine coreAtomic_post fun a c hc => ?_
  obtain ⟨v, hx, rfl⟩ := PanicM.zoom_eq_ok_iff.mp hc
  exact h a v hx

/-- A value read from the data structures. -/
def getCore {α : Type} (f : Core → α) : KernelM α := Prog.read fun s => f s.core

/-- A change of the data structures. -/
def modCore (f : Core → Core) : KernelM Unit := Prog.update fun s => { s with core := f s.core }

/-- A value read from the hart. -/
def getHart {α : Type} (f : Hart → α) : KernelM α := Prog.read fun s => f s.hart

/-- A change of the hart. -/
def modHart (f : Hart → Hart) : KernelM Unit := Prog.update fun s => { s with hart := f s.hart }

/-- `panic`. -/
def kpanic {α : Type} (e : Panic) : KernelM α := Prog.panic e

/-- The process a pointer leads to; there is none behind the null pointer. -/
def deref : Option Slot → KernelM Slot
  | some i => pure i
  | none => kpanic .fault

end OsKernel
