import OsKernel.Boot.Main
import OsKernel.Lib.Legs
import OsKernel.Run.Coarse

/-!
# From the UART to the console and back

The UART interrupts when characters have come in, while a process is in user mode or while the
kernel runs. Either way `uartintr` has to hand them to `consoleintr`, all of them and in order;
`Core.AllHeard` says that it has. Nothing else in the kernel touches what the UART holds, and that
takes one pass over all the code: `Aloof` is about relations that look at little else.

A handler is not interrupted itself, so for `uartintr` it is enough to look at runs without
interruption. A trap from user mode gets to `uartintr` by way of the trampoline and `usertrap`, with
interrupts off; on this way, and only there, characters may be waiting.

Echoes are simpler: every single step of the kernel that echoes a character sends it.
-/

namespace OsKernel

variable {L : Layout} {S : Site} {c c' c'' : Core} {s t : K} {p : Slot} {a b : Label} {α β : Type}
  {image : Mem} {fails : ℕ → Bool} {E : Event → Prop} {G : Core → Core → Prop}

/-! ### Programs and relations that look neither at memory nor at processes -/

/-- A loose relation that does not look at the process table, the parents and the waits. -/
structure Aloof (E : Event → Prop) (G : Core → Core → Prop) : Prop extends Loose E G where
  table : ∀ (c : Core) (procs : Slot → Proc) (cproc : Option Slot) (ccontext : Option Label),
    G c { c with procs := procs, cproc := cproc, ccontext := ccontext }
  parentSet : ∀ a i par, E (.parentSet a i par)
  waitRet : ∀ i v, E (.waitRet i v)

namespace Aloof

variable (hG : Aloof E G)

include hG

/-- Assignments to any fields of a process. -/
theorem modProc (i : Slot) (g : Core → Proc → Proc) :
    Keeps G (modCore fun c => c.setProc i (g c)) :=
  keeps_modCore fun c => hG.table c _ c.cproc c.ccontext

theorem sched (back : Bool → Label) : Keeps G (sched back) :=
  hG.toCoarse.sched (fun c _ _ => hG.table c _ c.cproc c.ccontext) back

theorem sleep (k : Resume) : Keeps G (sleep k) := by
  refine hG.myproc_bind fun p => .bind (hG.observePause p) fun _ => .bind (hG.acquire _) fun _ => ?_
  refine .bind hG.getCore fun _ => keeps_ite (.bind (hG.modProc p _) fun _ => hG.sched _) ?_
  exact .bind (hG.release _) fun _ => .bind (hG.observeBack p) fun _ => keeps_pure

theorem schedulerScan (i : ℕ) (found : Bool) : Keeps G (schedulerScan i found) := by
  rw [OsKernel.schedulerScan]
  split_ifs with hi
  · refine .bind (hG.acquire _) fun _ => .bind hG.getCore fun pr => keeps_ite ?_ ?_
    · refine .bind (keeps_modCore fun c => hG.table c _ _ _) fun _ => ?_
      cases pr.context with
      | none => exact keeps_kpanic
      | some l => exact keeps_pure
    · exact .bind (hG.release _) fun _ => keeps_pure
  · exact keeps_pure

theorem schedulerBack (p : Slot) : Keeps G (schedulerBack p) :=
  .bind (keeps_modCore fun c => hG.table c c.procs none c.ccontext) fun _ =>
    .bind (hG.release _) fun _ => keeps_pure

theorem kexit (status : BitVec 32) : Keeps G (kexit status) := by
  refine hG.myproc_bind fun p => .bind hG.getCore fun _ => keeps_ite keeps_kpanic ?_
  refine .bind (hG.acquire _) fun _ => .bind (hG.reparent hG.parentSet p) fun _ => ?_
  refine .bind hG.getCore fun _ => .bind (hG.wakeup _) fun _ => .bind (hG.acquire _) fun _ => ?_
  refine .bind (keeps_modCore fun c => ?_) fun _ => .bind (hG.release _) fun _ => hG.sched _
  exact hG.trans (hG.table c _ c.cproc c.ccontext) (hG.emit _ (hG.plain trivial))

theorem freeproc (i : Slot) : Keeps G (coreAtomic (freeproc L i)) := by
  refine hG.coreAtomic fun c _ c' hx => ?_
  obtain ⟨v, rfl⟩ := freeproc_eq_ok hx
  exact hG.trans (hG.trans (hG.vm c v) (hG.table _ _ c.cproc c.ccontext))
    (hG.emit _ (hG.plain trivial))

theorem allocprocFound (i : Slot) : Keeps G (allocprocFound L i) := by
  have hnone : Keeps G (do
      OsKernel.coreAtomic (OsKernel.freeproc L i)
      OsKernel.release (.proc i)
      return none : KernelM (Option Slot)) :=
    .bind (hG.freeproc i) fun _ => .bind (hG.release _) fun _ => keeps_pure
  refine .bind hG.allocpid fun _ => .bind (hG.modProc i _) fun _ => ?_
  refine .bind (hG.vmAtomic _) fun _ => .bind (hG.modProc i _) fun _ => keeps_ite hnone ?_
  refine .bind (hG.vmAtomic _) fun _ => .bind (hG.modProc i _) fun _ => keeps_ite hnone ?_
  exact .bind (hG.modProc i _) fun _ => keeps_pure

theorem kfork : Keeps G (kfork L) := by
  have halloc : ∀ ps, Keeps G (allocprocScan L ps) := by
    intro ps
    induction ps with
    | nil => exact keeps_pure
    | cons q ps ih =>
      exact .bind (hG.acquire _) fun _ => .bind hG.getCore fun _ =>
        keeps_ite (hG.allocprocFound q) (.bind (hG.release _) fun _ => ih)
  refine hG.myproc_bind fun p => .bind (halloc slots) fun np => ?_
  cases np with
  | none => exact keeps_pure
  | some np =>
    refine .bind hG.getCore fun _ => .bind hG.getCore fun _ => .bind (hG.vmAtomic _) fun _ => ?_
    refine keeps_ite (.bind (hG.freeproc np) fun _ => .bind (hG.release _) fun _ => keeps_pure) ?_
    refine .bind (keeps_modCore fun c => hG.forkCopy c p np) fun _ => .bind hG.getCore fun _ => ?_
    refine .bind (hG.release _) fun _ => .bind (hG.acquire _) fun _ => ?_
    refine .bind (hG.setParent hG.parentSet np _) fun _ => .bind (hG.release _) fun _ => ?_
    exact .bind (hG.acquire _) fun _ => .bind (hG.modProc np _) fun _ =>
      .bind (hG.release _) fun _ => keeps_pure

theorem kwaitScan (p : Slot) (addr : ℕ) :
    ∀ ps havekids, Keeps G (kwaitScan L p addr ps havekids) := by
  intro ps
  induction ps with
  | nil => exact fun _ => keeps_pure
  | cons q ps ih =>
    intro havekids
    have hlast : ∀ w : BitVec 32, Keeps G (do
        modCore fun c => c.emit (.waitRet p w)
        OsKernel.release (.proc q)
        OsKernel.release .wait
        return .error w : KernelM (Except (BitVec 32) Bool)) := fun w =>
      .bind (hG.modEmit fun _ => hG.waitRet p w) fun _ => .bind (hG.release _) fun _ =>
        .bind (hG.release _) fun _ => keeps_pure
    refine .bind hG.getCore fun _ => keeps_ite (.bind (hG.acquire _) fun _ => ?_) (ih _)
    refine .bind hG.getCore fun _ => keeps_ite ?_ (.bind (hG.release _) fun _ => ih _)
    refine .bind hG.getCore fun pid => .bind hG.getCore fun _ => .bind hG.getCore fun _ => ?_
    refine .bind (hG.vmAtomic _) fun _ => keeps_ite (hlast _) ?_
    refine .bind (hG.modPlain fun _ => trivial) fun _ => ?_
    exact .bind (hG.setParent hG.parentSet q none) fun _ => .bind (hG.freeproc q) fun _ => hlast pid

theorem kwaitRound (p : Slot) (addr : ℕ) : Keeps G (kwaitRound L p addr) := by
  refine .bind (hG.kwaitScan p addr slots false) fun r => ?_
  cases r with
  | error v => exact keeps_pure
  | ok havekids =>
    have hgo : ∀ stop : Bool, Keeps G (if stop then do
        modCore fun c => c.emit (.waitRet p (-1))
        OsKernel.release .wait
        return .sysret p ((-1 : BitVec 32).signExtend 64)
      else do
        OsKernel.sleepPrepare (.proc p)
        OsKernel.release .wait
        OsKernel.sleep (.kwait addr) : KernelM Label) := by
      intro stop
      refine keeps_ite (.bind (hG.modEmit fun _ => hG.waitRet p _) fun _ => ?_) ?_
      · exact .bind (hG.release _) fun _ => keeps_pure
      · exact .bind (hG.sleepPrepare _) fun _ => .bind (hG.release _) fun _ => hG.sleep _
    cases havekids with
    | false => exact hgo true
    | true => exact .bind (hG.killed p) hgo

theorem consolereadWaitRound (p : Slot) (dst : ℕ) (n target : BitVec 32) :
    Keeps G (consolereadWaitRound L p dst n target) := by
  refine .bind hG.getCore fun _ => keeps_ite ?_ (hG.consolereadTake ..)
  refine hG.myproc_bind fun q => .bind (hG.killed q) fun _ => keeps_ite (hG.consolereadDone ..) ?_
  exact .bind (hG.sleepPrepare _) fun _ => .bind (hG.release _) fun _ => hG.sleep _

theorem syscall : Keeps G (syscall L) := by
  refine hG.myproc_bind fun p => .bind hG.getCore fun _ => ?_
  refine keeps_ite (.bind hG.kfork fun _ => keeps_pure) (keeps_ite ?_ ?_)
  · exact .bind (hG.argraw _) fun _ => hG.kexit _
  refine keeps_ite hG.sysWait (keeps_ite (hG.sysRead p) ?_)
  refine keeps_ite (.bind hG.sysExec fun _ => keeps_pure) ?_
  exact keeps_ite (.bind hG.sysGetpid fun _ => keeps_pure) (keeps_ite (hG.sysWrite p) keeps_pure)

/-- A trap that is not a system call, once `devintr` has seen to it. -/
theorem usertrapOther (p : Slot) (hdev : Keeps G (devintr L)) : Keeps G (usertrapOther L p) := by
  refine .bind hdev fun _ => keeps_ite keeps_pure ?_
  refine .bind hG.getHart fun _ => .bind hG.getCore fun _ => .bind (hG.printf _ _) fun _ => ?_
  exact .bind (hG.printf _ _) fun _ => .bind (hG.setkilled p) fun _ => keeps_pure

theorem usertrap (hdev : Keeps G (devintr L)) : Keeps G (usertrap L) := by
  refine .bind hG.getHart fun _ => keeps_ite keeps_kpanic (.bind hG.modHart fun _ => ?_)
  refine hG.myproc_bind fun p => .bind hG.getHart fun _ => .bind (hG.tfStore _ _ _) fun _ => ?_
  refine .bind hG.getHart fun _ => keeps_ite ?_ (hG.usertrapOther p hdev)
  exact .bind (hG.tfStore _ _ _) fun _ => .bind hG.modHart fun _ => hG.syscall

/-- **The programs of the kernel**, of which one calls `devintr`. -/
theorem kernelCode {x : KernelM Label} (hx : kernelCode L a = some x)
    (hdev : a = .usertrap → Keeps G (devintr L)) : Keeps G x := by
  cases a with
  | scheduler =>
    cases hx
    exact .bind hG.modHart fun _ => keeps_pure
  | schedulerScan i found =>
    cases hx
    exact hG.schedulerScan i found
  | schedulerBack p =>
    cases hx
    exact hG.schedulerBack p
  | forkret =>
    cases hx
    exact hG.forkret
  | sleepBack p ia k =>
    cases hx
    exact hG.sleepBack p ia k
  | exitBack =>
    cases hx
    exact keeps_kpanic
  | awake p k =>
    cases hx
    exact hG.awake p k
  | kwait p addr =>
    cases hx
    exact hG.kwaitRound p addr
  | consoleread p dst n target =>
    cases hx
    exact keeps_ite keeps_pure (hG.consolereadDone ..)
  | consolereadWait p dst n target =>
    cases hx
    exact hG.consolereadWaitRound p dst n target
  | consolewrite p src n i =>
    cases hx
    exact hG.consolewriteRound p src n i
  | sysret p v =>
    cases hx
    exact hG.syscallReturn p v
  | usertrapTail p =>
    cases hx
    exact .bind (hG.killed p) fun _ => keeps_ite (hG.kexit _) (hG.leave p)
  | userret satp =>
    cases hx
    exact hG.userretCode satp
  | user => cases hx
  | vector =>
    cases hx
    exact hG.vector
  | usertrap =>
    cases hx
    exact hG.usertrap (hdev rfl)

end Aloof

/-! ### Echoes -/

/-- All that was echoed has been sent, in the order of the echoes. -/
def Core.EchoesSent (c : Core) : Prop := (echoedBytes c.log).Sublist c.tx

/-- Echoes go on being sent. -/
def SendsEchoes (c c' : Core) : Prop := c.EchoesSent → c'.EchoesSent

/-- The event is not an echo. -/
def Event.NoEcho : Event → Prop
  | .echoed _ => False
  | _ => True

theorem Event.NoEcho.echoedBytes {e : Event} (h : e.NoEcho) (l : List Event) :
    echoedBytes (e :: l) = echoedBytes l := by
  cases e with
  | echoed x => exact absurd h id
  | _ => rfl

theorem SendsEchoes.of_eq (hlog : c'.log = c.log) (htx : c.tx <+: c'.tx) : SendsEchoes c c' := by
  intro h
  rw [Core.EchoesSent, hlog]
  exact List.Sublist.trans h htx.sublist

theorem SendsEchoes.emit (c : Core) {e : Event} (he : e.NoEcho) : SendsEchoes c (c.emit e) := by
  intro h
  show (echoedBytes (e :: c.log)).Sublist c.tx
  rw [he.echoedBytes]
  exact h

theorem SendsEchoes.aloof : Aloof Event.NoEcho SendsEchoes where
  trans h h' hc := h' (h hc)
  data h := .of_eq h.log h.tx
  plain {e} h := by
    cases e with
    | echoed x => exact absurd h id
    | _ => trivial
  emit c _ he := .emit c he
  echo _ _ h := List.Sublist.append h (List.Sublist.refl _)
  proc _ _ _ _ _ _ := .of_eq rfl List.prefix_rfl
  parent _ _ _ h := .emit _ (h _)
  vm _ _ := .of_eq rfl List.prefix_rfl
  space _ _ _ _ _ := .of_eq rfl List.prefix_rfl
  table _ _ _ _ := .of_eq rfl List.prefix_rfl
  parentSet _ _ _ := trivial
  waitRet _ _ := trivial

theorem SendsEchoes.tolerant : Tolerant Event.NoEcho SendsEchoes where
  toCoarse := SendsEchoes.aloof.toCoarse
  arrived _ := trivial
  devices _ _ _ _ := .of_eq rfl List.prefix_rfl

/-- The event is not the arrival of a character. -/
def Event.NoArrival : Event → Prop
  | .arrived _ => False
  | _ => True

theorem Event.NoArrival.arrivedBytes {e : Event} (h : e.NoArrival) (l : List Event) :
    arrivedBytes (e :: l) = arrivedBytes l := by
  cases e with
  | arrived x => exact absurd h id
  | _ => rfl

/-- The input is as it was: what has come in, what waits in the UART and what has arrived. -/
structure SameInput (c c' : Core) : Prop where
  arrived : arrivedBytes c'.log = arrivedBytes c.log
  rx : c'.rx = c.rx
  input : c'.input = c.input

theorem SameInput.of_eq (hlog : c'.log = c.log) (hrx : c'.rx = c.rx) (hinput : c'.input = c.input) :
    SameInput c c' := ⟨congrArg arrivedBytes hlog, hrx, hinput⟩

theorem SameInput.trans (h : SameInput c c') (h' : SameInput c' c'') : SameInput c c'' :=
  ⟨h'.arrived.trans h.arrived, h'.rx.trans h.rx, h'.input.trans h.input⟩

theorem SameInput.emit (c : Core) {e : Event} (he : e.NoArrival) : SameInput c (c.emit e) :=
  ⟨he.arrivedBytes c.log, rfl, rfl⟩

theorem SameInput.aloof : Aloof Event.NoArrival SameInput where
  trans := SameInput.trans
  data h := .of_eq h.log h.rx h.input
  plain {e} h := by
    cases e with
    | arrived x => exact absurd h id
    | _ => trivial
  emit c _ he := .emit c he
  echo _ _ := ⟨rfl, rfl, rfl⟩
  proc _ _ _ _ _ _ := .of_eq rfl rfl rfl
  parent c i par h := ⟨(h c.cproc).arrivedBytes c.log, rfl, rfl⟩
  vm _ _ := .of_eq rfl rfl rfl
  space _ _ _ _ _ := .of_eq rfl rfl rfl
  table _ _ _ _ := .of_eq rfl rfl rfl
  parentSet _ _ _ := trivial
  waitRet _ _ := trivial

/-- A program that leaves the input alone, run without interruption. -/
theorem Keeps.post_sameInput {x : KernelM α} (hx : Keeps SameInput x) :
    x.Post s fun _ t => SameInput s.core t.core :=
  Prog.Within.post (G := fun s t : K => SameInput s.core t.core)
    (fun s => SameInput.aloof.refl s.core) SameInput.trans hx.within

/-- Nothing waits in the UART, and all that has come in has arrived. -/
structure Core.AllHeard (c : Core) : Prop where
  rx : c.rx = []
  arrived : arrivedBytes c.log = c.input

theorem Core.AllHeard.same (h : c.AllHeard) (hc : SameInput c c') : c'.AllHeard :=
  ⟨hc.rx.trans h.rx, hc.arrived.trans (h.arrived.trans hc.input.symm)⟩

/-- What has come in has arrived or waits in the UART, and if something waits, `devintr` is going to
find an interrupt of the UART. -/
structure K.Due (s : K) : Prop where
  input : arrivedBytes s.core.log ++ s.core.rx = s.core.input
  external : s.core.rx ≠ [] → s.hart.scause = causeExternal
  uart : s.core.rx ≠ [] → s.core.claim = uart0Irq

theorem K.Due.allHeard (h : s.Due) (hrx : s.core.rx = []) : s.core.AllHeard := by
  refine ⟨hrx, ?_⟩
  rw [← h.input, hrx, List.append_nil]

theorem Core.AllHeard.due (h : s.core.AllHeard) : s.Due := by
  refine ⟨?_, fun hne => absurd h.rx hne, fun hne => absurd h.rx hne⟩
  rw [h.rx, List.append_nil, h.arrived]

/-! ### `uartintr` empties the UART -/

theorem consoleintr_post (x : UInt8) : (consoleintr L x).Post s fun _ t =>
    arrivedBytes t.core.log = arrivedBytes s.core.log ++ [x] ∧ t.core.rx = s.core.rx ∧
      t.core.input = s.core.input := by
  have hG := SameInput.aloof
  refine .bind ((hG.acquire _).post_sameInput.mono fun _ u hu => .bind (.bind ?_))
  refine Prog.post_update ((Keeps.post_sameInput ?_).mono fun _ v hv => ?_)
  · refine .bind hG.getCore fun _ => keeps_ite (.bind (hG.consputc _) fun _ => ?_) keeps_pure
    refine .bind (hG.modData fun _ => {}) fun _ => .bind hG.getCore fun _ => ?_
    exact keeps_ite (.bind (hG.modData fun _ => {}) fun _ => hG.wakeup _) keeps_pure
  · refine (hG.release _).post_sameInput.mono fun _ w hw => ?_
    have hrest := hv.trans hw
    refine ⟨?_, hrest.rx.trans hu.rx, hrest.input.trans hu.input⟩
    rw [hrest.arrived]
    show arrivedBytes (.arrived x :: u.core.log) = _
    rw [arrivedBytes, hu.arrived]

/-- **The loop of `uartintr`** hands over all characters. -/
theorem uartintrLoop_post : ∀ (xs : List UInt8) {s : K}, s.core.rx = xs →
    arrivedBytes s.core.log ++ xs = s.core.input →
    (uartintrLoop L xs).Post s fun _ t => t.core.AllHeard := by
  intro xs
  induction xs with
  | nil =>
    intro s hrx hinput
    exact Prog.post_pure ⟨hrx, by rw [← hinput, List.append_nil]⟩
  | cons x xs ih =>
    intro s _ hinput
    refine .bind (Prog.post_update (.bind ((consoleintr_post x).mono ?_)))
    rintro _ t ⟨harrived, hrx, hin⟩
    refine ih hrx ?_
    rw [harrived, hin, List.append_assoc]
    exact hinput

theorem devintr_post (h : s.Due) : (devintr L).Post s fun _ t => t.core.AllHeard := by
  have hG := SameInput.aloof
  have hkeep : ∀ {x : KernelM ℕ}, Keeps SameInput x → s.core.rx = [] →
      x.Post s fun _ t => t.core.AllHeard := fun hx hrx =>
    hx.post_sameInput.mono fun _ _ ht => (h.allHeard hrx).same ht
  refine .bind (Prog.post_read (Prog.post_ite (fun _ => .bind (Prog.post_read ?_)) fun hno => ?_))
  · refine Prog.post_ite (fun _ => ?_) fun hno => ?_
    · refine .bind (.bind (Prog.post_read ((uartintrLoop_post _ rfl h.input).mono ?_)))
      intro _ t ht
      exact Prog.post_pure ht
    · refine hkeep (keeps_ite (.bind (hG.printf _ _) fun _ => keeps_pure) keeps_pure) ?_
      exact not_not.mp fun hne => hno (h.uart hne)
  · refine hkeep (keeps_ite (.bind hG.clockintr fun _ => keeps_pure) keeps_pure) ?_
    exact not_not.mp fun hne => hno (h.external hne)

/-- What `enter` adds to the input is due. -/
theorem Core.AllHeard.devices (h : c.AllHeard) (irq : Irq) (hart : Hart) :
    K.Due ⟨irq.devices hart.scause c, hart⟩ := by
  cases irq with
  | timer => exact Core.AllHeard.due (s := ⟨c, hart⟩) h
  | external claim rx =>
    rw [Irq.devices]
    split_ifs with huart
    · refine ⟨?_, fun _ => huart.1, fun _ => huart.2⟩
      show arrivedBytes c.log ++ (c.rx ++ rx) = c.input ++ rx
      rw [h.rx, h.arrived, List.nil_append]
    · exact Core.AllHeard.due (s := ⟨{ c with claim := claim }, hart⟩) ⟨h.rx, h.arrived⟩

theorem kernelvec_post (irq : Irq) (h : s.core.AllHeard) :
    (kernelvec L).Post ((kernel L).enter irq s) fun _ t => t.core.AllHeard := by
  have hG := SameInput.aloof
  have hdue : ((kernel L).enter irq s).Due := h.devices irq (s.hart.trap irq.cause 0)
  refine .bind (Prog.post_read (Prog.post_ite (fun _ => ?_) fun _ => Prog.post_panic))
  refine .bind (Prog.post_read (Prog.post_ite (fun _ => Prog.post_panic) fun _ => Prog.post_ite
    (fun _ => Prog.post_panic) fun _ => .bind ((devintr_post hdue).mono fun _ t ht => ?_)))
  refine Prog.post_ite (fun _ => ?_) fun _ => ?_
  · exact .bind ((hG.printf _ _).post_sameInput.mono fun _ _ _ => Prog.post_panic)
  · exact hG.modHart.post_sameInput.mono fun _ _ hu => ht.same hu

/-! ### Programs that may be interrupted -/

/-- What interrupts do between two steps: as `Interferes`, and what they bring is handed over. -/
def Hearing (L : Layout) (S : Site) (s t : K) : Prop :=
  (Env.interrupts.discipline L S).Interferes s t ∧ (s.core.AllHeard → t.core.AllHeard)

/-- A program of the kernel on the machine. -/
theorem segment_hears {x : KernelM Label} {Q : Label → K → Prop}
    (hx : x.wp ((Env.interrupts.discipline L S).Inv L) (Hearing L S) (Stops L S) Q s)
    (hstable : ∀ a u v, Q a u → Hearing L S u v → Q a v)
    (hrun : Relation.ReflTransGen (kernel L).segment.Micro ⟨s, x, []⟩ ⟨t, .ret b, []⟩) : Q b t := by
  refine System.segment_post (fun s => ⟨Discipline.interferes_refl s, id⟩)
    (fun h h' => ⟨Discipline.interferes_trans h.1 h'.1, fun hs => h'.2 (h.2 hs)⟩)
    (fun a u v hu _ huv => hstable a u v hu huv) (fun irq u hI hen => ?_) hx hrun
  by_cases hall : u.core.AllHeard
  · refine Prog.wp_mono ?_ (Prog.wp_post (irq_wp irq hI hen) (kernelvec_post irq hall))
    rintro _ v - ⟨⟨hv, hint⟩, hheard⟩
    exact ⟨hv, hint, fun _ => hheard⟩
  · refine Prog.wp_mono ?_ (irq_wp irq hI hen)
    rintro _ v - ⟨hv, hint⟩
    exact ⟨hv, hint, fun h => absurd h hall⟩

/-- A program that hands over what comes in on the way. -/
structure Hears (x : KernelM α) : Prop where
  guarantees : ∀ s : K, s.core.AllHeard → x.Guarantees
    (fun s t => s.core.AllHeard → t.core.AllHeard) (fun _ _ => True) (fun _ t => t.core.AllHeard) s

section Hears

variable {x y : KernelM α} {f : α → KernelM β}

theorem Keeps.hears (hx : Keeps SameInput x) : Hears x := by
  refine ⟨fun s hs => ?_⟩
  refine (Prog.Within.guarantees_of (H := fun s t : K => s.core.AllHeard → t.core.AllHeard) ?_
    (fun _ => id) (fun h h' hs => h' (h hs)) (fun _ _ => id) (fun _ _ _ => trivial)
    fun _ _ ht => ht hs)
  exact hx.within.mono fun _ _ h hs => hs.same h

theorem Hears.bind (hx : Hears x) (hf : ∀ a, Hears (f a)) : Hears (x >>= f) :=
  ⟨fun s hs => .bind ((hx.guarantees s hs).mono fun a t ht => (hf a).guarantees t ht)⟩

theorem hears_ite {q : Prop} {_ : Decidable q} (hx : Hears x) (hy : Hears y) :
    Hears (if q then x else y) :=
  ⟨fun s hs => Prog.guarantees_ite (fun _ => hx.guarantees s hs) fun _ => hy.guarantees s hs⟩

end Hears

/-- With an empty UART `uartintr` has nothing to do. -/
theorem hears_uartintr : Hears (uartintr L) := by
  refine ⟨fun s hs => .bind (Prog.guarantees_read (fun _ => trivial) fun t ht => ?_)⟩
  rw [(ht hs).rx]
  exact Prog.guarantees_pure (ht hs)

theorem hears_usertrap : Hears (usertrap L) := by
  have hG := SameInput.aloof
  have hdev : Hears (devintr L) := by
    refine .bind hG.getHart.hears fun _ => hears_ite (.bind hG.getCore.hears fun _ => ?_) ?_
    · refine hears_ite (.bind hears_uartintr fun _ => keeps_pure.hears) (Keeps.hears ?_)
      exact keeps_ite (.bind (hG.printf _ _) fun _ => keeps_pure) keeps_pure
    · exact Keeps.hears (keeps_ite (.bind hG.clockintr fun _ => keeps_pure) keeps_pure)
  have hother : ∀ p, Hears (usertrapOther L p) := by
    intro p
    refine .bind hdev fun _ => Keeps.hears (keeps_ite keeps_pure ?_)
    refine .bind hG.getHart fun _ => .bind hG.getCore fun _ => .bind (hG.printf _ _) fun _ => ?_
    exact .bind (hG.printf _ _) fun _ => .bind (hG.setkilled p) fun _ => keeps_pure
  refine .bind hG.getHart.hears fun _ => hears_ite keeps_kpanic.hears ?_
  refine .bind hG.modHart.hears fun _ => .bind hG.myproc.hears fun _ => ?_
  refine .bind (keeps_deref _).hears fun p => .bind hG.getHart.hears fun _ => ?_
  refine .bind (hG.tfStore _ _ _).hears fun _ => .bind hG.getHart.hears fun _ => ?_
  refine hears_ite (Keeps.hears ?_) (hother p)
  exact .bind (hG.tfStore _ _ _) fun _ => .bind hG.modHart fun _ => hG.syscall

/-- **The programs of the kernel**, started with an empty UART. -/
theorem kernelCode_hears {x : KernelM Label} (hx : kernelCode L a = some x) : Hears x := by
  by_cases ha : a = .usertrap
  · subst ha
    cases hx
    exact hears_usertrap
  · exact (SameInput.aloof.kernelCode hx fun h => absurd h ha).hears

/-! ### Traps from user mode -/

/-- What holds at a label: everything has been handed over, or the label is on the way from a trap
to `devintr`, which interrupts nobody. -/
structure Label.Listens (a : Label) (s : K) : Prop where
  due : s.Due
  entering : s.core.rx ≠ [] → (a = .vector ∨ a = .usertrap) ∧ s.hart.sie = false

theorem Core.AllHeard.listens (h : s.core.AllHeard) : a.Listens s :=
  ⟨h.due, fun hne => absurd h.rx hne⟩

theorem Label.Listens.allHeard (h : a.Listens s) (hv : a ≠ .vector) (ht : a ≠ .usertrap) :
    s.core.AllHeard :=
  h.due.allHeard (not_not.mp fun hne => (h.entering hne).1.elim hv ht)

theorem Label.Listens.interfere (h : a.Listens s) (hst : Hearing L S s t) : a.Listens t := by
  by_cases hrx : s.core.rx = []
  · exact (hst.2 (h.due.allHeard hrx)).listens
  · obtain rfl | ⟨hen, -⟩ := hst.1
    · exact h
    · exact absurd hen.1 (by rw [(h.entering hrx).2]; decide)

/-- A program that keeps interrupts off ends as it does by itself. -/
theorem hearing_of_quiet {x : KernelM α} {Q Q' : α → K → Prop}
    (hx : (Env.handler.discipline L S).wp L x Q s) (hpost : x.Post s Q') :
    x.wp ((Env.interrupts.discipline L S).Inv L) (Hearing L S) (Stops L S) Q' s := by
  have hwp : x.wp (fun s => (Env.interrupts.discipline L S).Inv L s ∧ ¬s.hart.Enabled) Eq
      (Stops L S) Q s := Prog.wp_weaken (fun _ => handlerInv) (fun _ _ h => .inl h) (fun _ => id) hx
  refine Prog.wp_of_quiet (fun u v huv => ?_) (Prog.wp_mono (fun _ _ _ h => h.2)
    (Prog.wp_post hwp hpost))
  exact huv.1.imp id fun h => h.1

/-- Around user mode the invariant is that of a handler. -/
theorem handlerInv_of (hI : (Env.interrupts.discipline L S).Inv L s) (hsie : s.hart.sie = false)
    (hnoff : s.hart.noff = 0) : (Env.handler.discipline L S).Inv L s :=
  ⟨⟨hI.1.count, hI.1.masked, hI.1.vector, fun _ => ⟨hsie, fun h => absurd hnoff h.ne'⟩⟩, hI.2⟩

/-- The trampoline leaves the input to `usertrap`. -/
theorem vector_listens (hI : (Env.interrupts.discipline L S).Inv L s) (h : TrapOk L S .vector s)
    (hdue : s.Due) : (vector L).wp ((Env.interrupts.discipline L S).Inv L) (Hearing L S) (Stops L S)
      Label.Listens s := by
  obtain ⟨hborder, _, _, -, htrapped, -⟩ := id h
  refine hearing_of_quiet (vector_wp (N := .handler) (handlerInv_of hI htrapped.sie hborder.noff) h)
    ?_
  obtain ⟨m', regs, hrun⟩ := run_vector (hI.2 hborder.noff) h
  intro a t hrun'
  obtain ⟨rfl, rfl⟩ := Prod.mk.inj (Except.ok.inj (hrun.symm.trans hrun'))
  exact ⟨⟨hdue.input, hdue.external, hdue.uart⟩, fun _ => ⟨.inr rfl, htrapped.sie⟩⟩

/-- `usertrap` hands over what waits in the UART. -/
theorem usertrap_listens (hI : (Env.interrupts.discipline L S).Inv L s)
    (h : TrapOk L S .usertrap s) (hdue : s.Due) (hrx : s.core.rx ≠ []) :
    (usertrap L).wp ((Env.interrupts.discipline L S).Inv L) (Hearing L S) (Stops L S)
      Label.Listens s := by
  have hG := SameInput.aloof
  obtain ⟨hborder, p, _, hready, htrapped, -⟩ := id h
  have hcause : s.hart.scause ≠ 8 := by
    rw [hdue.external hrx]
    decide
  refine hearing_of_quiet (usertrap_wp_of (N := .handler) (Q := fun _ _ => True)
    (fun h8 => absurd h8 hcause) (handlerInv_of hI htrapped.sie hborder.noff) h
    (fun h8 => absurd h8 hcause) fun _ _ _ _ => trivial) ?_
  suffices hpost : (usertrapOther L p).Post
      ⟨s.core.tfStore p tfEpc s.hart.sepc, s.hart.toKernel L⟩ Label.Listens by
    intro a t hrun
    rw [run_usertrap_other hready.cproc htrapped.spp htrapped.sie hborder.noff hcause] at hrun
    exact hpost a t hrun
  have hdue' : K.Due ⟨s.core.tfStore p tfEpc s.hart.sepc, s.hart.toKernel L⟩ :=
    ⟨hdue.input, hdue.external, hdue.uart⟩
  refine .bind ((devintr_post hdue').mono fun dev u hu => ?_)
  refine (Keeps.post_sameInput ?_).mono fun a v hv => (hu.same hv).listens
  refine keeps_ite keeps_pure (.bind hG.getHart fun _ => .bind hG.getCore fun _ => ?_)
  exact .bind (hG.printf _ _) fun _ => .bind (hG.printf _ _) fun _ => .bind (hG.setkilled p)
    fun _ => keeps_pure

/-! ### Runs -/

/-- **A leg** hands over what comes in. -/
theorem Label.Listens.leg (h : a.Listens s) (hs : Reachable L image fails ⟨s, .ret a, []⟩)
    (hleg : (kernel L).Leg (a, s) (b, t)) : b.Listens t := by
  obtain ⟨kpt, hI, hpre⟩ := hs.pre
  cases hleg with
  | env hstep =>
    have hall : s.core.AllHeard := by
      cases hstep with
      | compute regs pc hm => exact h.allHeard (by simp) (by simp)
      | trap hi scause stval irq => exact h.allHeard (by simp) (by simp)
    cases hstep with
    | compute regs pc hm => exact Core.AllHeard.listens ⟨hall.rx, hall.arrived⟩
    | @trap _ i hi scause stval irq =>
      have hemit := hall.same (.emit s.core (e := .trap i s.hart.regs s.hart.pc scause) trivial)
      exact ⟨hemit.devices irq (s.hart.trap scause stval), fun _ => ⟨.inl rfl, rfl⟩⟩
  | @run _ _ _ _ x hx hrun =>
    refine segment_hears (S := bootSite image fails kpt) (Q := Label.Listens) ?_
      (fun _ _ _ hu huv => hu.interfere huv) hrun
    have hsub : ∀ u v, Hearing L (bootSite image fails kpt) u v →
        (Env.interrupts.discipline L (bootSite image fails kpt)).Interferes u v := fun _ _ h => h.1
    rcases hx with rfl | hx
    · exact ⟨hI, h⟩
    by_cases hrx : s.core.rx = []
    · -- nothing waits, and what comes in on the way is handed over by the handlers
      have hwp := kernelCode_arrives (N := .interrupts) id hx hI hpre
      refine Prog.wp_mono (fun _ _ _ h => h.2.listens) (Prog.wp_guarantees (fun _ _ h => h.2)
        (Prog.wp_weaken (fun _ => id) hsub (fun _ => id) hwp)
        ((kernelCode_hears hx).guarantees s (h.due.allHeard hrx)))
    · rcases (h.entering hrx).1 with rfl | rfl
      · cases hx
        exact vector_listens hI (hpre.resolve_left (by simp [LabelOk])) h.due
      · cases hx
        exact usertrap_listens hI (hpre.resolve_left (by simp [LabelOk])) h.due hrx

/-- **No input is lost**: at every label but the two on the way in from a trap, all characters that
the UART has interrupted for have been passed to `consoleintr`. -/
theorem Reachable.allHeard (hs : Reachable L image fails ⟨s, .ret a, []⟩) (hv : a ≠ .vector)
    (ht : a ≠ .usertrap) : s.core.AllHeard := by
  obtain ⟨s₀, hboot, hrun⟩ := hs
  have hlegs := System.legs_of_micro (P := fun _ => True)
    (Relation.ReflTransGen.mono (fun _ _ h => ⟨h, trivial⟩) _ _ hrun)
  have hall : ∀ c : Label × K, Relation.ReflTransGen ((kernel L).LegFrom fun _ => True)
      (.scheduler, s₀) c → Reachable L image fails ⟨c.2, .ret c.1, []⟩ ∧ c.1.Listens c.2 := by
    intro c hc
    induction hc with
    | refl =>
      refine ⟨⟨s₀, hboot, .refl⟩, Core.AllHeard.listens ?_⟩
      obtain ⟨kpt, hl⟩ := hboot.launched
      obtain ⟨_, v, tf, pt, tx, hcore⟩ := hl.core
      rw [hcore]
      exact ⟨rfl, rfl⟩
    | tail _ hleg ih => exact ⟨ih.1.step hleg.1.micro, ih.2.leg ih.1 hleg.1⟩
  exact (hall (a, s) hlegs).2.allHeard hv ht

end OsKernel
