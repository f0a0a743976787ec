import OsKernel.Kernel.Safety
import OsKernel.Lib.Guarantee

/-!
# What most programs leave alone

Much of the kernel takes locks, reads, prints, wakes sleepers and keeps accounts. Such code looks
the same to every relation between data structures that is too coarse to see it. `Coarse` says
which assignments and which events a relation has to tolerate for that, `Keeps` that all steps of a
program are steps of the relation, and the lemmas go through the code once for all coarse relations.

Two kinds of code ask for more. Interrupt handlers take what the devices hold, `Tolerant`. System
calls that load programs and copy to and from user memory, and the trampoline, change memory and
the address space of a process, `Loose`.
-/

namespace OsKernel

variable {α β : Type}

/-- A process that goes on where it would have, in the same state or woken. -/
structure Proc.Undisturbed (pr pr' : Proc) : Prop where
  context : pr'.context = pr.context
  state : pr'.state = pr.state ∨ pr.state = .sleeping ∧ pr'.state = .runnable

namespace Proc.Undisturbed

variable {pr pr' pr'' : Proc} {x : ProcState}

theorem refl (pr : Proc) : pr.Undisturbed pr := ⟨rfl, .inl rfl⟩

theorem trans (h : pr.Undisturbed pr') (h' : pr'.Undisturbed pr'') : pr.Undisturbed pr'' := by
  refine ⟨h'.context.trans h.context, ?_⟩
  rcases h.state with hi | ⟨hs, hr⟩ <;> rcases h'.state with hi' | ⟨hs', hr'⟩
  · exact .inl (hi'.trans hi)
  · exact .inr ⟨hi ▸ hs', hr'⟩
  · exact .inr ⟨hs, hi'.trans hr⟩
  · rw [hr] at hs'
    cases hs'

/-- A process that does not sleep stays as it is. -/
theorem keeps (h : pr.Undisturbed pr') (hi : pr.state = x) (hx : x ≠ .sleeping) :
    pr'.state = x := by
  rcases h.state with hsame | ⟨hs, -⟩
  · exact hsame.trans hi
  · exact absurd (hi.symm.trans hs) hx

/-- Only a sleeper can have become `RUNNABLE`. -/
theorem reflects (h : pr.Undisturbed pr') (hi : pr'.state = x) (hx : x ≠ .runnable) :
    pr.state = x := by
  rcases h.state with hsame | ⟨-, hr⟩
  · exact hsame.symm.trans hi
  · exact absurd (hi.symm.trans hr) hx

end Proc.Undisturbed

/-- The event sets no parent, ends no wait and is not about the terminal. -/
def Event.Plain : Event → Prop
  | .parentSet _ _ _ | .waitRet _ _ | .arrived _ | .echoed _ => False
  | _ => True

/-- Memory, the process table, the current process, the log and the input are as they were, and
something may have been sent to the terminal. -/
structure Core.SameData (c c' : Core) : Prop where
  cproc : c'.cproc = c.cproc := by rfl
  ccontext : c'.ccontext = c.ccontext := by rfl
  procs : c'.procs = c.procs := by rfl
  vm : c'.vm = c.vm := by rfl
  log : c'.log = c.log := by rfl
  rx : c'.rx = c.rx := by rfl
  input : c'.input = c.input := by rfl
  tx : c.tx <+: c'.tx := by exact List.prefix_rfl

/-- A relation that tolerates assignments to other data, events in `E`, among them all plain ones,
and assignments to a process that disturb it neither in what it does nor in the memory it has. -/
structure Coarse (E : Event → Prop) (G : Core → Core → Prop) : Prop where
  trans : ∀ {c c' c''}, G c c' → G c' c'' → G c c''
  data : ∀ {c c' : Core}, c.SameData c' → G c c'
  plain : ∀ {e : Event}, e.Plain → E e
  emit : ∀ (c : Core) {e : Event}, E e → G c (c.emit e)
  echo : ∀ (c : Core) (x : UInt8), G c { c with tx := c.tx ++ [x], log := .echoed x :: c.log }
  proc : ∀ (c : Core) (i : Slot) (g : Proc → Proc), (c.procs i).Undisturbed (g (c.procs i)) →
    (g (c.procs i)).space = (c.procs i).space → (g (c.procs i)).parent = (c.procs i).parent →
    G c (c.setProc i g)
  parent : ∀ (c : Core) (i : Slot) (par : Option Slot), (∀ a, E (.parentSet a i par)) →
    G c (c.setParent i par)

/-- All steps of the program are steps of the relation. -/
structure Keeps (G : Core → Core → Prop) (x : KernelM α) : Prop where
  within : x.Within fun s t => G s.core t.core

variable {E : Event → Prop} {G : Core → Core → Prop} {L : Layout} {x y : KernelM α}
  {f : α → KernelM β}

/-! ### Composition -/

theorem Keeps.bind (hx : Keeps G x) (hf : ∀ a, Keeps G (f a)) : Keeps G (x >>= f) :=
  ⟨hx.within.bind fun a => (hf a).within⟩

theorem keeps_pure {a : α} : Keeps G (pure a : KernelM α) := ⟨Prog.within_pure⟩

theorem keeps_kpanic {e : Panic} : Keeps G (kpanic e : KernelM α) := ⟨Prog.within_panic⟩

theorem keeps_ite {q : Prop} {_ : Decidable q} (hx : Keeps G x) (hy : Keeps G y) :
    Keeps G (if q then x else y) := ⟨Prog.within_ite hx.within hy.within⟩

theorem keeps_update {g : K → K} (h : ∀ s, G s.core (g s).core) :
    Keeps G (Prog.update g : KernelM Unit) := ⟨Prog.within_update h⟩

theorem keeps_modCore {g : Core → Core} (h : ∀ c, G c (g c)) : Keeps G (modCore g) :=
  keeps_update fun s => h s.core

theorem keeps_deref : ∀ q : Option Slot, Keeps G (deref q)
  | some _ => keeps_pure
  | none => keeps_kpanic

theorem keeps_swtch : ∀ l : Option Label, Keeps G (swtch l)
  | some _ => keeps_pure
  | none => keeps_kpanic

namespace Coarse

variable (hG : Coarse E G)

include hG

theorem refl (c : Core) : G c c := hG.data {}

theorem getCore {g : Core → α} : Keeps G (getCore g) := ⟨Prog.within_read fun s => hG.refl s.core⟩

theorem getHart {g : Hart → α} : Keeps G (getHart g) := ⟨Prog.within_read fun s => hG.refl s.core⟩

theorem modHart {g : Hart → Hart} : Keeps G (modHart g) := keeps_update fun s => hG.refl s.core

/-- Changes of other data. -/
theorem modData {g : Core → Core} (h : ∀ c : Core, c.SameData (g c)) : Keeps G (modCore g) :=
  keeps_modCore fun c => hG.data (h c)

theorem modEmit {e : Core → Event} (h : ∀ c, E (e c)) : Keeps G (modCore fun c => c.emit (e c)) :=
  keeps_modCore fun c => hG.emit c (h c)

theorem modPlain {e : Core → Event} (h : ∀ c, (e c).Plain) :
    Keeps G (modCore fun c => c.emit (e c)) := hG.modEmit fun c => hG.plain (h c)

/-- Assignments to fields other than `state`, `context`, `parent` and those about memory. -/
theorem setProc (i : Slot) {g : Proc → Proc} (hctx : ∀ pr, (g pr).context = pr.context)
    (hst : ∀ pr, (g pr).state = pr.state) (hspace : ∀ pr, (g pr).space = pr.space)
    (hpar : ∀ pr, (g pr).parent = pr.parent) : Keeps G (modCore fun c => c.setProc i g) :=
  keeps_modCore fun c => hG.proc c i g ⟨hctx _, .inl (hst _)⟩ (hspace _) (hpar _)

theorem setParent (h : ∀ a i par, E (.parentSet a i par)) (i : Slot) (par : Option Slot) :
    Keeps G (modCore (Core.setParent i par)) :=
  keeps_modCore fun c => hG.parent c i par fun a => h a i par

theorem coreAtomic {y : CoreM α} (h : ∀ c a c', y c = .ok (a, c') → G c c') :
    Keeps G (coreAtomic y) := by
  refine ⟨Prog.within_atomic (fun s => hG.refl s.core) fun s a t hx => ?_⟩
  obtain ⟨c', hy, rfl⟩ := PanicM.zoom_eq_ok_iff.mp hx
  exact h s.core a c' hy

/-! ### Locks -/

theorem pushOff : Keeps G pushOff :=
  .bind hG.getHart fun _ => .bind hG.modHart fun _ => .bind hG.modHart fun _ => hG.modHart

theorem popOff : Keeps G popOff :=
  .bind hG.getHart fun _ => keeps_ite keeps_kpanic (.bind hG.getHart fun _ =>
    keeps_ite keeps_kpanic (.bind hG.modHart fun _ => hG.modHart))

theorem acquire (lk : Lock) : Keeps G (acquire lk) := by
  have htas : Keeps G (testAndSet lk) := ⟨fun s => hG.refl s.core, fun _ => trivial⟩
  exact .bind hG.pushOff fun _ => .bind hG.getHart fun _ => keeps_ite keeps_kpanic
    (.bind htas fun _ => keeps_ite keeps_kpanic keeps_pure)

theorem release (lk : Lock) : Keeps G (release lk) :=
  .bind hG.getHart fun _ => keeps_ite (.bind hG.modHart fun _ => hG.popOff) keeps_kpanic

theorem myproc : Keeps G myproc :=
  .bind hG.pushOff fun _ => .bind hG.getCore fun _ => .bind hG.popOff fun _ => keeps_pure

theorem myproc_bind {k : Slot → KernelM α} (h : ∀ p, Keeps G (k p)) : Keeps G (do
    let p ← OsKernel.myproc
    let p ← deref p
    k p) := .bind hG.myproc fun _ => .bind (keeps_deref _) h

/-! ### The console -/

theorem putBytes : ∀ bytes, Keeps G (putBytes bytes)
  | [] => keeps_pure
  | x :: bytes => by
    have hsend : ∀ c : Core, c.SameData { c with tx := c.tx ++ [x], log := [] ++ c.log } :=
      fun c => { tx := List.prefix_append _ _ }
    exact .bind (.bind hG.pushOff fun _ => .bind (hG.modData hsend) fun _ => hG.popOff) fun _ =>
      putBytes bytes

theorem printf (fmt : String) (args : List Arg) : Keeps G (printf fmt args) := hG.putBytes _

theorem consputc (x : UInt8) : Keeps G (consputc x) :=
  .bind hG.pushOff fun _ => .bind (keeps_modCore fun c => hG.echo c x) fun _ => hG.popOff

theorem consolereadDone (p : Slot) (v : BitVec 32) : Keeps G (consolereadDone p v) :=
  .bind (hG.modPlain fun _ => trivial) fun _ => .bind (hG.release _) fun _ => keeps_pure

/-! ### Processes -/

/-- `wakeup` makes sleepers `RUNNABLE`. -/
theorem wakeup (chan : Option Chan) : Keeps G (wakeup chan) := by
  have hwake : ∀ pr : Proc, pr.Undisturbed (pr.wake chan) ∧ (pr.wake chan).space = pr.space ∧
      (pr.wake chan).parent = pr.parent := by
    intro pr
    rw [Proc.wake]
    split_ifs with hch hs
    · exact ⟨⟨rfl, .inr ⟨hs, rfl⟩⟩, rfl, rfl⟩
    · exact ⟨⟨rfl, .inl rfl⟩, rfl, rfl⟩
    · exact ⟨.refl pr, rfl, rfl⟩
  have hloop : ∀ ps, Keeps G (wakeupLoop chan ps) := by
    intro ps
    induction ps with
    | nil => exact keeps_pure
    | cons q ps ih =>
      exact .bind (hG.acquire _) fun _ => .bind (keeps_modCore fun c =>
        hG.proc c q _ (hwake _).1 (hwake _).2.1 (hwake _).2.2) fun _ =>
        .bind (hG.release _) fun _ => ih
  exact hloop slots

theorem clockintr : Keeps G clockintr :=
  .bind hG.getHart fun _ => keeps_ite (.bind (hG.acquire _) fun _ =>
    .bind (hG.modData fun _ => {}) fun _ => .bind (hG.wakeup _) fun _ => hG.release _) keeps_pure

theorem killed (p : Slot) : Keeps G (killed p) :=
  .bind (hG.acquire _) fun _ => .bind hG.getCore fun _ => .bind (hG.release _) fun _ => keeps_pure

theorem setkilled (p : Slot) : Keeps G (setkilled p) :=
  .bind (hG.acquire _) fun _ => .bind (hG.setProc p (fun _ => rfl) (fun _ => rfl) (fun _ => rfl)
    fun _ => rfl) fun _ => hG.release _

theorem sleepPrepare (chan : Chan) : Keeps G (sleepPrepare chan) :=
  hG.myproc_bind fun p => .bind (hG.acquire _) fun _ => .bind (keeps_modCore fun c =>
    hG.trans (hG.proc c p (fun pr => { pr with chan := some chan }) ⟨rfl, .inl rfl⟩ rfl rfl)
      (hG.emit _ (hG.plain trivial))) fun _ => hG.release _

theorem observePause (p : Slot) : Keeps G (observePause p) :=
  keeps_update fun s => hG.emit s.core (hG.plain trivial)

theorem observeBack (p : Slot) : Keeps G (observeBack p) :=
  keeps_update fun s => hG.emit s.core (hG.plain trivial)

/-- `sched`, where contexts may be saved. -/
theorem sched (hsave : ∀ (c : Core) (p : Slot) (l : Label),
    G c (c.setProc p fun pr => { pr with context := some l })) (back : Bool → Label) :
    Keeps G (sched back) := by
  refine hG.myproc_bind fun p => ?_
  refine .bind hG.getHart fun held => keeps_ite keeps_kpanic ?_
  refine .bind hG.getHart fun noff => keeps_ite keeps_kpanic ?_
  refine .bind hG.getCore fun state => keeps_ite keeps_kpanic ?_
  refine .bind hG.getHart fun sie => keeps_ite keeps_kpanic ?_
  refine .bind hG.getHart fun intena => .bind (keeps_modCore fun c => ?_) fun _ => ?_
  · exact hsave c p (back intena)
  · exact .bind hG.getCore keeps_swtch

theorem sleepBack (p : Slot) (intena : Bool) (k : Resume) : Keeps G (sleepBack p intena k) :=
  .bind hG.modHart fun _ => .bind (hG.release _) fun _ => .bind (hG.observeBack p) fun _ =>
    keeps_pure

theorem awake (p : Slot) : ∀ k : Resume, Keeps G (awake p k)
  | .kwait _ => .bind (hG.acquire _) fun _ => keeps_pure
  | .consoleread _ _ _ => .bind (hG.acquire _) fun _ => keeps_pure
  | .usertrap => keeps_pure

theorem allocpid : Keeps G allocpid :=
  .bind (hG.acquire _) fun _ => .bind hG.getCore fun _ => .bind (hG.modData fun _ => {}) fun _ =>
    .bind (hG.release _) fun _ => keeps_pure

theorem argraw (r : Reg) : Keeps G (argraw r) := hG.myproc_bind fun _ => hG.getCore

theorem reparent (h : ∀ a i par, E (.parentSet a i par)) (p : Slot) : Keeps G (reparent p) := by
  have hloop : ∀ ps, Keeps G (reparentLoop p ps) := by
    intro ps
    induction ps with
    | nil => exact keeps_pure
    | cons q ps ih =>
      exact .bind hG.getCore fun _ => keeps_ite (.bind hG.getCore fun _ =>
        .bind (hG.setParent h _ _) fun _ => .bind (hG.wakeup _) fun _ => ih) ih
  exact hloop slots

/-! ### System calls that return at once -/

theorem sysWait : Keeps G sysWait :=
  .bind (hG.argraw _) fun _ => hG.myproc_bind fun _ => .bind (hG.acquire _) fun _ =>
    .bind (hG.modPlain fun _ => trivial) fun _ => keeps_pure

theorem sysGetpid : Keeps G sysGetpid := hG.myproc_bind fun _ => hG.getCore

theorem sysRead (p : Slot) : Keeps G (sysRead p) :=
  .bind (hG.argraw _) fun _ => .bind (hG.argraw _) fun _ => .bind (hG.argraw _) fun _ =>
    keeps_ite keeps_pure (.bind (hG.acquire _) fun _ => .bind (hG.modPlain fun _ => trivial)
    fun _ => keeps_pure)

theorem sysWrite (p : Slot) : Keeps G (sysWrite p) :=
  .bind (hG.argraw _) fun _ => .bind (hG.argraw _) fun _ => .bind (hG.argraw _) fun _ =>
    keeps_ite keeps_pure keeps_pure

end Coarse

/-! ### Interrupts -/

/-- A coarse relation that does not look at the input. -/
structure Tolerant (E : Event → Prop) (G : Core → Core → Prop) : Prop extends Coarse E G where
  arrived : ∀ x, E (.arrived x)
  devices : ∀ (c : Core) (claim : BitVec 32) (rx input : List UInt8),
    G c { c with claim := claim, rx := rx, input := input }

namespace Tolerant

variable (hG : Tolerant E G)

include hG

theorem consoleintr (L : Layout) (x : UInt8) : Keeps G (consoleintr L x) := by
  have hbody : Keeps G (consoleintrBody L x) := by
    refine .bind (hG.modEmit fun _ => hG.arrived x) fun _ => .bind hG.getCore fun _ => ?_
    refine keeps_ite (.bind (hG.consputc _) fun _ => ?_) keeps_pure
    refine .bind (hG.modData fun _ => {}) fun _ => .bind hG.getCore fun _ => ?_
    exact keeps_ite (.bind (hG.modData fun _ => {}) fun _ => hG.wakeup _) keeps_pure
  exact .bind (hG.acquire _) fun _ => .bind hbody fun _ => hG.release _

theorem uartintr (L : Layout) : Keeps G (uartintr L) := by
  have hloop : ∀ xs, Keeps G (uartintrLoop L xs) := by
    intro xs
    induction xs with
    | nil => exact keeps_pure
    | cons x xs ih =>
      exact .bind (keeps_modCore fun c => hG.devices c c.claim xs c.input) fun _ =>
        .bind (hG.consoleintr L x) fun _ => ih
  exact .bind hG.getCore hloop

theorem devintr (L : Layout) : Keeps G (devintr L) := by
  refine .bind hG.getHart fun scause => ?_
  refine keeps_ite (.bind hG.getCore fun irq => ?_) ?_
  · refine keeps_ite (.bind (hG.uartintr L) fun _ => keeps_pure) ?_
    exact keeps_ite (.bind (hG.printf _ _) fun _ => keeps_pure) keeps_pure
  · exact keeps_ite (.bind hG.clockintr fun _ => keeps_pure) keeps_pure

/-- **Interrupts** are steps of every tolerant relation. -/
theorem kernelvec (L : Layout) : Keeps G (kernelvec L) := by
  refine .bind hG.getHart fun _ => ?_
  refine keeps_ite ?_ keeps_kpanic
  refine .bind hG.getHart fun h => ?_
  refine keeps_ite keeps_kpanic (keeps_ite keeps_kpanic ?_)
  refine .bind (hG.devintr L) fun _ => ?_
  exact keeps_ite (.bind (hG.printf _ _) fun _ => keeps_kpanic) hG.modHart

/-- The hardware's part of it. -/
theorem irqDevices (irq : Irq) (scause : BitVec 64) (c : Core) : G c (irq.devices scause c) := by
  obtain ⟨claim, rx, input, hdevices⟩ := irq.devices_eq scause c
  rw [hdevices]
  exact hG.devices c claim rx input

end Tolerant

/-! ### Memory -/

/-- A coarse relation that looks neither at memory nor at the address space of a process. -/
structure Loose (E : Event → Prop) (G : Core → Core → Prop) : Prop extends Coarse E G where
  vm : ∀ (c : Core) (v : Vm), G c { c with vm := v }
  space : ∀ (c : Core) (i : Slot) (g : Proc → Proc), (c.procs i).Undisturbed (g (c.procs i)) →
    (g (c.procs i)).parent = (c.procs i).parent → G c (c.setProc i g)

namespace Loose

variable (hG : Loose E G)

include hG

/-- Assignments to fields other than `state`, `context` and `parent`. -/
theorem setSpace (i : Slot) {g : Proc → Proc} (hctx : ∀ pr, (g pr).context = pr.context)
    (hst : ∀ pr, (g pr).state = pr.state) (hpar : ∀ pr, (g pr).parent = pr.parent) :
    Keeps G (modCore fun c => c.setProc i g) :=
  keeps_modCore fun c => hG.space c i g ⟨hctx _, .inl (hst _)⟩ (hpar _)

theorem liftVm {y : VmM α} {a : α} {c c' : Core} (h : liftVm y c = .ok (a, c')) : G c c' := by
  obtain ⟨v, -, rfl⟩ := PanicM.zoom_eq_ok_iff.mp h
  exact hG.vm c v

theorem vmAtomic (y : VmM α) : Keeps G (OsKernel.coreAtomic (OsKernel.liftVm y)) :=
  hG.coreAtomic fun _ _ _ h => hG.liftVm h

theorem tfStore (p : Slot) (off : ℕ) (v : Core → BitVec 64) :
    Keeps G (modCore fun c => c.tfStore p off (v c)) := keeps_modCore fun c => hG.vm c _

theorem eitherCopyout (dst : ℕ) (bytes : List UInt8) : Keeps G (eitherCopyout L true dst bytes) :=
  hG.myproc_bind fun _ => .bind hG.getCore fun _ => keeps_ite (hG.vmAtomic _)
    (.bind (keeps_modCore fun c => hG.vm c _) fun _ => keeps_pure)

theorem eitherCopyin (src len : ℕ) : Keeps G (eitherCopyin L true src len) :=
  hG.myproc_bind fun _ => .bind hG.getCore fun _ => keeps_ite (hG.vmAtomic _) hG.getCore

theorem consolewriteRound (p : Slot) (src : ℕ) (n i : BitVec 32) :
    Keeps G (consolewriteRound L p src n i) := by
  refine keeps_ite (.bind (hG.eitherCopyin _ _) fun bytes => ?_) keeps_pure
  cases bytes with
  | none => exact keeps_pure
  | some bytes => exact .bind (hG.putBytes bytes) fun _ => keeps_pure

/-- What `consoleread` does with a byte of the ring. -/
theorem consolereadTake (p : Slot) (dst : ℕ) (n target : BitVec 32) (b : UInt8) : Keeps G (do
    modCore fun c => { c with cons := c.cons.pop }
    let ok ← OsKernel.eitherCopyout L true dst [b]
    if ok = false then
      modCore fun c => c.emit (.lost p b)
      consolereadDone p (target - n)
    else
      modCore fun c =>
        c.emit (.handed p (c.vm.mem (c.vm.mem.phys (c.procs p).pagetable dst)))
      if b = 10 then
        consolereadDone p (target - (n - 1))
      else
        return .consoleread p ((dst + 1) % wordSize) (n - 1) target) := by
  refine .bind (hG.modData fun _ => {}) fun _ => .bind (hG.eitherCopyout _ _) fun _ => ?_
  refine keeps_ite (.bind (hG.modPlain fun _ => trivial) fun _ => hG.consolereadDone ..) ?_
  exact .bind (hG.modPlain fun _ => trivial) fun _ => keeps_ite (hG.consolereadDone ..) keeps_pure

theorem syscallReturn (p : Slot) (v : BitVec 64) : Keeps G (syscallReturn p v) :=
  .bind (keeps_modCore fun c => hG.trans (hG.vm c _) (hG.emit _ (hG.plain trivial))) fun _ =>
    keeps_pure

theorem forkCopy (c : Core) (p np : Slot) : G c (c.forkCopy p np) := by
  have hsz : G c (c.setProc np fun pr => { pr with sz := (c.procs p).sz }) :=
    hG.space c np _ ⟨rfl, .inl rfl⟩ rfl
  have hname : ∀ c₀ : Core, ∀ name, G c c₀ →
      G c (c₀.setProc np fun pr => { pr with name := safestrcpy pr.name name 16 }) :=
    fun c₀ _ h => hG.trans h (hG.space c₀ np _ ⟨rfl, .inl rfl⟩ rfl)
  have hemit : ∀ c₀ : Core, G c c₀ → G c (c₀.emit (.forked p np)) := fun c₀ h =>
    hG.trans h (hG.emit c₀ (hG.plain trivial))
  exact hemit _ (hname _ _ (hG.trans hsz (hG.trans (hG.vm _ _) (hG.vm _ _))))

/-! ### Loading programs -/

theorem execCommit (c : Core) (p : Slot) (pt total : ℕ) (name : List UInt8) :
    G c (c.execCommit p pt total name) := by
  have himage : G c (c.setProc p fun pr =>
      { pr with pagetable := pt, sz := total, name := safestrcpy pr.name name 16 }) :=
    hG.space c p _ ⟨rfl, .inl rfl⟩ rfl
  have hemit : ∀ c₀ : Core, G c c₀ → G c (c₀.emit (.execed p)) := fun c₀ h =>
    hG.trans h (hG.emit c₀ (hG.plain trivial))
  exact hemit _ (hG.trans himage (hG.trans (hG.vm _ _) (hG.vm _ _)))

theorem execLoad {p : Slot} {up : ℕ} {name : List UInt8} {c c' : Core} {v : BitVec 32}
    (h : execLoad L p up name c = .ok (v, c')) : G c c' := by
  have hbad : ∀ {pt total : ℕ} {c c' : Core} {v : BitVec 32},
      execBad L pt total c = .ok (v, c') → G c c' := by
    intro pt total c c' v h
    obtain ⟨_, _, h₁, h₂⟩ := PanicM.bind_eq_ok_iff.mp h
    cases h₂
    exact hG.liftVm h₁
  obtain ⟨start, c₁, h₁, h⟩ := PanicM.bind_eq_ok_iff.mp h
  obtain ⟨stop, c₂, h₂, h⟩ := PanicM.bind_eq_ok_iff.mp h
  rw [PanicM.read_bind_apply] at h
  obtain ⟨pt, c₃, h₃, h⟩ := PanicM.bind_eq_ok_iff.mp h
  refine hG.trans (hG.trans (hG.liftVm h₁) (hG.liftVm h₂)) (hG.trans (hG.liftVm h₃) ?_)
  split_ifs at h with hpt
  · cases h
    exact hG.refl _
  rw [execInto] at h
  generalize execTotal (execSize start stop) = total at h
  obtain ⟨w, c₄, h₄, h⟩ := PanicM.bind_eq_ok_iff.mp h
  refine hG.trans (hG.liftVm h₄) ?_
  split_ifs at h with hw
  · exact hbad h
  obtain ⟨ok, c₅, h₅, h⟩ := PanicM.bind_eq_ok_iff.mp h
  refine hG.trans (hG.liftVm h₅) ?_
  split_ifs at h with hok
  · exact hbad h
  rw [PanicM.update_bind_apply] at h
  obtain ⟨_, c₆, h₆, h⟩ := PanicM.bind_eq_ok_iff.mp h
  cases h
  exact hG.trans (hG.execCommit ..) (hG.liftVm h₆)

theorem kexec (path : List UInt8) : Keeps G (kexec L path) := by
  refine keeps_ite keeps_pure (.bind hG.getCore fun up => ?_)
  cases up with
  | fault => exact keeps_kpanic
  | null => exact keeps_pure
  | found up => exact hG.myproc_bind fun p => hG.coreAtomic fun _ _ _ h => hG.execLoad h

theorem sysExec : Keeps G (sysExec L) := by
  refine .bind (hG.argraw _) fun _ => .bind (hG.argraw _) fun addr => .bind (hG.myproc_bind
    fun _ => .bind hG.getCore fun _ => hG.vmAtomic _) fun path => ?_
  cases path with
  | none => exact keeps_pure
  | some path => exact hG.kexec path

/-! ### The trampoline and the way to it -/

theorem usertrapret : Keeps G (usertrapret L) := by
  refine hG.myproc_bind fun _ => .bind hG.modHart fun _ => .bind hG.modHart fun _ => ?_
  refine .bind hG.getHart fun _ => .bind (hG.tfStore _ _ _) fun _ => ?_
  refine .bind (hG.tfStore _ _ _) fun _ => .bind (hG.tfStore _ _ _) fun _ => ?_
  refine .bind hG.getHart fun _ => .bind (hG.tfStore _ _ _) fun _ => ?_
  exact .bind hG.modHart fun _ => .bind hG.getCore fun _ => hG.modHart

/-- The way back to user mode. -/
theorem leave (p : Slot) : Keeps G (do
    OsKernel.usertrapret L
    let pt ← OsKernel.getCore fun c => (c.procs p).pagetable
    return .userret (satpOf pt) : KernelM Label) :=
  .bind hG.usertrapret fun _ => .bind hG.getCore fun _ => keeps_pure

theorem forkret : Keeps G (forkret L) := by
  refine hG.myproc_bind fun p => .bind (hG.release _) fun _ => .bind hG.getCore fun _ => ?_
  refine keeps_ite (.bind (hG.modData fun _ => {}) fun _ => ?_) (hG.leave p)
  refine .bind (hG.kexec _) fun _ => .bind (hG.tfStore _ _ _) fun _ => .bind hG.getCore fun _ => ?_
  exact keeps_ite keeps_kpanic (hG.leave p)

theorem exec {x : Instr} {s t : K} (h : x.exec L s = .ok t) : G s.core t.core := by
  cases x with
  | sd rs off base =>
    rw [Instr.exec] at h
    split at h
    · cases h
      exact hG.vm _ _
    · cases h
  | ld rd off base =>
    rw [Instr.exec] at h
    split at h
    · cases h
      exact hG.refl _
    · cases h
  | csrwSatp rs =>
    rw [Instr.exec] at h
    split_ifs at h
    cases h
    exact hG.refl _
  | _ =>
    cases h
    exact hG.refl _

theorem trampolineCode (xs : List Instr) : Keeps G (Prog.atomic (trampolineCode L xs)) := by
  have hall : ∀ xs : List Instr, ∀ s t, execAll L xs s = .ok t → G s.core t.core := by
    intro xs
    induction xs with
    | nil =>
      rintro s _ ⟨⟩
      exact hG.refl _
    | cons x xs ih =>
      intro s t h
      cases hx : x.exec L s with
      | ok u =>
        rw [execAll, hx] at h
        exact hG.trans (hG.exec hx) (ih u t h)
      | error e =>
        rw [execAll, hx] at h
        cases h
  refine ⟨Prog.within_atomic (fun s => hG.refl s.core) fun s _ t h => ?_⟩
  cases hx : execAll L xs s with
  | ok u =>
    rw [OsKernel.trampolineCode, hx] at h
    cases h
    exact hall xs s _ hx
  | error e =>
    rw [OsKernel.trampolineCode, hx] at h
    cases h

theorem vector : Keeps G (vector L) := by
  refine .bind hG.getHart fun _ => keeps_ite keeps_kpanic (.bind (hG.trampolineCode _) fun _ => ?_)
  refine .bind hG.getHart fun _ => .bind hG.getCore fun _ => .bind (keeps_deref _) fun _ => ?_
  exact .bind hG.getCore fun _ => .bind hG.getCore fun _ => keeps_ite keeps_pure keeps_kpanic

theorem userretCode (satp : BitVec 64) : Keeps G (userretCode L satp) := by
  refine .bind hG.modHart fun _ => .bind (hG.trampolineCode _) fun _ => .bind hG.getHart fun _ => ?_
  refine .bind hG.getCore fun _ => .bind (keeps_deref _) fun _ => keeps_ite keeps_kpanic ?_
  exact .bind (keeps_update fun s => hG.emit s.core (hG.plain trivial)) fun _ => keeps_pure

end Loose

end OsKernel
