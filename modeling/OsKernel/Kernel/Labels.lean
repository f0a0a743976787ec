import OsKernel.Kernel.Invariant
import OsKernel.Kernel.Modes
import OsKernel.Kernel.System

/-!
# What holds at the labels

A program ends at a label, and another one begins there, after a context switch perhaps in another
process. `LabelOk` is what the one leaves and the other finds: which locks are held, who runs, and
what its history says. At the labels around user mode, `TrapOk`, the registers of the hart matter
as well. `Pre` puts the two together.
-/

namespace OsKernel

/-- The hart runs the kernel. -/
structure Kern (L : Layout) (S : Site) (h : Hart) : Prop where
  supervisor : h.supervisor = true
  stvec : h.stvec = BitVec.ofNat 64 L.kernelvec
  satp : h.satp = satpOf S.kpt
  tp : h.regs .tp = 0

/-- `cpus[0].proc = 0`. -/
def Core.idle (c : Core) : Core := { c with cproc := none }

/-- What holds at a label between traps. -/
def LabelOk (L : Layout) (S : Site) : Label → Mode → Core → Prop
  | .scheduler, μ, c | .schedulerScan _ _, μ, c =>
      (∃ b, μ = .unlocked b) ∧ c.cproc = none ∧ c.Complete
  | .schedulerBack p, μ, c => (∃ b, μ = .locked {.proc p} b) ∧ Good L S c.idle ∧ c.Complete
  | .forkret, μ, c => ∃ p, (∃ b, μ = .locked {.proc p} b) ∧ Good L S c ∧ Working p c ∧
      (c.hist p).trap = none
  | .sleepBack p ia k, μ, c => (∃ b, μ = .locked {.proc p} b) ∧ Good L S c ∧ Working p c ∧
      (c.hist p).paused = some ia ∧ k.Ok (c.procs p) (c.hist p)
  | .awake p k, μ, c => (∃ b, μ = .unlocked b) ∧ Working p c ∧ k.Ok (c.procs p) (c.hist p)
  | .kwait p _, μ, c => (∃ b, μ = .locked {.wait} b) ∧ Good L S c ∧ Working p c ∧
      (∃ t, (c.hist p).InCall t) ∧ (c.hist p).quiet = true
  | .consoleread p dst n target, μ, c => (∃ b, μ = .locked {.cons} b) ∧ Good L S c ∧
      Working p c ∧ (∃ t, (c.hist p).InCall t) ∧ Reads (c.procs p) (c.hist p) dst n target
  | .consolereadWait p dst n target, μ, c => (∃ b, μ = .locked {.cons} b) ∧ Good L S c ∧
      Working p c ∧ (∃ t, (c.hist p).InCall t) ∧ 0 < n.toInt ∧
      Reads (c.procs p) (c.hist p) dst n target
  | .consolewrite p _ _ _, μ, c => (∃ b, μ = .unlocked b) ∧ Working p c ∧
      ∃ t, (c.hist p).InCall t
  | .sysret p _, μ, c => (∃ b, μ = .unlocked b) ∧ Working p c ∧ (c.hist p).Called
  | .usertrapTail p, μ, c => (∃ b, μ = .unlocked b) ∧ Working p c ∧
      (∃ t, (c.hist p).trap = some t) ∧ (c.hist p).Settled
  | .exitBack, _, _ | .userret _, _, _ | .user, _, _ | .vector, _, _ | .usertrap, _, _ => False

/-- A program of the kernel in an environment. -/
abbrev Runs (L : Layout) (S : Site) (N : Env) (h₀ : Hart) {α : Type} (x : KernelM α) (μ : Mode)
    (c : Core) (Q : α → Mode → Core → Prop) : Prop := Does L (N.discipline L S) h₀ x μ c Q

/-- A program that began on `c` ends at the label `a`, and has left alone the processes outside
`X`. -/
def Ends (L : Layout) (S : Site) (X : Slot → Prop) (c : Core) (a : Label) (μ : Mode) (c' : Core) :
    Prop := LabelOk L S a μ c' ∧ Spares X c c'

/-! ### Around user mode -/

/-- The fields of the trapframe with which `uservec` enters the kernel. -/
structure Header (L : Layout) (S : Site) (c : Core) (p : Slot) : Prop where
  satp : c.tfLoad p tfKernelSatp = satpOf S.kpt
  sp : c.tfLoad p tfKernelSp = BitVec.ofNat 64 (kstackVa p + pgsize)
  trap : c.tfLoad p tfKernelTrap = BitVec.ofNat 64 L.usertrap
  hartid : c.tfLoad p tfKernelHartid = 0

/-- The process `p` runs and can trap. -/
structure Ready (L : Layout) (S : Site) (p : Slot) (c : Core) : Prop where
  cproc : c.cproc = some p
  chan : (c.procs p).chan = none
  complete : c.Complete
  killed : (c.procs p).killed = false
  booted : c.first = false
  header : Header L S c p

/-- The hart is about to enter user mode, is there, or has just left it. -/
structure Border (L : Layout) (h : Hart) : Prop where
  noff : h.noff = 0
  stvec : h.stvec = uservecVa L

/-- The hart has taken the trap `t`, and its registers still tell. -/
structure Trapped (h : Hart) (t : Trap) : Prop where
  supervisor : h.supervisor = true
  sie : h.sie = false
  spp : h.spp = false
  sepc : h.sepc = t.pc
  scause : h.scause = t.scause

/-- What holds at the labels around user mode. -/
def TrapOk (L : Layout) (S : Site) : Label → K → Prop
  | .userret satp, s => Border L s.hart ∧ s.hart.supervisor = true ∧ s.hart.sie = false ∧
      s.hart.satp = satpOf S.kpt ∧ s.hart.spp = false ∧ ∃ p, Ready L S p s.core ∧
      Working p s.core ∧ (s.core.hist p).Settled ∧ s.hart.sepc = s.core.tfLoad p tfEpc ∧
      satp = satpOf (s.core.procs p).pagetable
  | .user, s => Border L s.hart ∧ s.hart.supervisor = false ∧ ∃ p, Ready L S p s.core ∧
      s.hart.satp = satpOf (s.core.procs p).pagetable
  | .vector, s => Border L s.hart ∧ ∃ p t, Ready L S p s.core ∧ Trapped s.hart t ∧
      s.hart.satp = satpOf (s.core.procs p).pagetable ∧ s.hart.regs = t.regs ∧
      (s.core.hist p).trap = some t ∧ (s.core.hist p).ctx = some t.resume
  | .usertrap, s => Border L s.hart ∧ ∃ p t, Ready L S p s.core ∧ Trapped s.hart t ∧
      s.hart.satp = satpOf S.kpt ∧ s.hart.regs .tp = 0 ∧
      (∀ r : Reg, s.core.tfLoad p r.offset = t.regs r) ∧
      (s.core.hist p).trap = some t ∧ (s.core.hist p).ctx = some t.resume
  | _, _ => False

/-- **What holds at a label.** -/
def Pre (L : Layout) (S : Site) (D : Discipline) (a : Label) (s : K) : Prop :=
  (∃ h₀ μ, Kern L S h₀ ∧ Mode.At L D h₀ μ s ∧ LabelOk L S a μ s.core) ∨ TrapOk L S a s

end OsKernel
