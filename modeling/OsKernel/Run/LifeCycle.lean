import OsKernel.Lib.Legs
import OsKernel.Run.Coarse
import OsKernel.Run.Session

/-!
# The life of a process

`p->state` is assigned to in many places, in critical sections of their own, by processes, by the
scheduler and, through `wakeup`, by interrupt handlers. This module shows that all of them together
follow one diagram:

* UNUSED → USED → RUNNABLE, or back to UNUSED, while a process forks;
* RUNNABLE → RUNNING by the scheduler, when no process runs;
* RUNNING → SLEEPING and RUNNING → ZOMBIE by the running process itself, and never RUNNING →
  RUNNABLE: nothing calls `yield`, and the timer preempts nobody;
* SLEEPING → RUNNABLE by whoever calls `wakeup`;
* ZOMBIE → UNUSED by the running process.

As in the treatment of zombies, the single steps of the machine are looked at. Most programs leave
all states alone but for waking sleepers, `Steady`, wherever they are started; the others know the
state they overwrite from what they have read.
-/

namespace OsKernel

variable {L : Layout} {c c' c'' : Core} {s t : K} {i j p : Slot} {α β : Type}

/-! ### Steps that only wake -/

/-- The same process runs, and all processes are as they were but for sleepers that have been
woken. -/
structure Steady (c c' : Core) : Prop where
  cproc : c'.cproc = c.cproc
  ccontext : c'.ccontext = c.ccontext
  slot : ∀ i, (c.procs i).Undisturbed (c'.procs i)

namespace Steady

theorem of_eq (hcproc : c'.cproc = c.cproc) (hctx : c'.ccontext = c.ccontext)
    (hprocs : c'.procs = c.procs) : Steady c c' := ⟨hcproc, hctx, fun _ => hprocs ▸ .refl _⟩

theorem refl (c : Core) : Steady c c := of_eq rfl rfl rfl

theorem trans (h : Steady c c') (h' : Steady c' c'') : Steady c c'' :=
  ⟨h'.cproc.trans h.cproc, h'.ccontext.trans h.ccontext, fun i => (h.slot i).trans (h'.slot i)⟩

theorem keeps {x : ProcState} (h : Steady c c') (hi : (c.procs i).state = x)
    (hx : x ≠ .sleeping) : (c'.procs i).state = x := (h.slot i).keeps hi hx

theorem setProc (c : Core) (i : Slot) {f : Proc → Proc}
    (hf : (c.procs i).Undisturbed (f (c.procs i))) : Steady c (c.setProc i f) :=
  ⟨rfl, rfl, Core.forall_setProc (P := fun j => (c.procs j).Undisturbed) hf fun _ _ => .refl _⟩

theorem emit (c : Core) (e : Event) : Steady c (c.emit e) := of_eq rfl rfl rfl

end Steady

/-- The step only wakes. -/
def SteadyStep (s t : K) : Prop := Steady s.core t.core

theorem SteadyStep.refl (s : K) : SteadyStep s s := Steady.refl _

theorem SteadyStep.trans {u : K} (h : SteadyStep s t) (h' : SteadyStep t u) : SteadyStep s u :=
  Steady.trans h h'

/-! ### The diagram -/

/-- What a step from `c` to `c'` does to the process in slot `i`. -/
inductive LifeEdge (c c' : Core) (i : Slot) : Prop
  | stay (h : (c'.procs i).state = (c.procs i).state)
  | allocate {p : Slot} (hp : c.cproc = some p) (h : (c.procs i).state = .unused)
      (h' : (c'.procs i).state = .used)
  | abandon {p : Slot} (hp : c.cproc = some p) (h : (c.procs i).state = .used)
      (h' : (c'.procs i).state = .unused)
  | launch {p : Slot} (hp : c.cproc = some p) (h : (c.procs i).state = .used)
      (h' : (c'.procs i).state = .runnable)
  | dispatch (hidle : c.cproc = none) (hi : c'.cproc = some i) (h : (c.procs i).state = .runnable)
      (h' : (c'.procs i).state = .running)
  | sleep (hi : c.cproc = some i) (h : (c.procs i).state = .running)
      (h' : (c'.procs i).state = .sleeping)
  | wake (h : (c.procs i).state = .sleeping) (h' : (c'.procs i).state = .runnable)
  | exit (hi : c.cproc = some i) (h : (c.procs i).state = .running)
      (h' : (c'.procs i).state = .zombie)
  | reap {p : Slot} (hp : c.cproc = some p) (h : (c.procs i).state = .zombie)
      (h' : (c'.procs i).state = .unused)

/-- What a step does to `cpus[0]`. -/
inductive CpuStep (c c' : Core) : Prop
  | keep (hproc : c'.cproc = c.cproc) (hctx : c'.ccontext = c.ccontext)
  | dispatch (i : Slot) (hidle : c.cproc = none) (h : (c.procs i).state = .runnable)
      (hproc : c'.cproc = some i) (hctx : c'.ccontext = some (.schedulerBack i))
  | back (p : Slot) (hp : c.cproc = some p) (h : (c.procs p).state ≠ .running)
      (hidle : c'.cproc = none) (hctx : c'.ccontext = c.ccontext)

/-- What a step does to the saved context of the process in slot `i`: it is its own to save, and
that of a new process leads to `forkret`. -/
def ContextStep (c c' : Core) (i : Slot) : Prop :=
  (c'.procs i).context = (c.procs i).context ∨ c.cproc = some i ∨
    (c.procs i).state = .used ∧ (c'.procs i).context = some .forkret

/-- **A step of the life cycle.** -/
structure LifeStep (s t : K) : Prop where
  edge : ∀ i, LifeEdge s.core t.core i
  context : ∀ i, ContextStep s.core t.core i
  cpu : CpuStep s.core t.core

/-- A step that is not the scheduler's. -/
structure WorkStep (s t : K) : Prop where
  edge : ∀ i, LifeEdge s.core t.core i
  context : ∀ i, ContextStep s.core t.core i
  cproc : t.core.cproc = s.core.cproc
  ccontext : t.core.ccontext = s.core.ccontext

theorem WorkStep.lifeStep (h : WorkStep s t) : LifeStep s t :=
  ⟨h.edge, h.context, .keep h.cproc h.ccontext⟩

theorem Steady.edge (h : Steady c c') (i : Slot) : LifeEdge c c' i := by
  rcases (h.slot i).state with hsame | ⟨hs, hr⟩
  · exact .stay hsame
  · exact .wake hs hr

theorem SteadyStep.workStep (h : SteadyStep s t) : WorkStep s t :=
  ⟨h.edge, fun i => .inl (h.slot i).context, h.cproc, h.ccontext⟩

theorem WorkStep.refl (s : K) : WorkStep s s := (SteadyStep.refl s).workStep

/-- A change of one slot. -/
theorem WorkStep.of_ne (h : LifeEdge s.core t.core i)
    (hctx : ContextStep s.core t.core i)
    (hne : ∀ j, j ≠ i → t.core.procs j = s.core.procs j) (hcproc : t.core.cproc = s.core.cproc)
    (hccontext : t.core.ccontext = s.core.ccontext) : WorkStep s t := by
  refine ⟨fun j => ?_, fun j => ?_, hcproc, hccontext⟩ <;> by_cases hji : j = i
  · rw [hji]
    exact h
  · exact .stay (congrArg Proc.state (hne j hji))
  · rw [hji]
    exact hctx
  · exact .inl (congrArg Proc.context (hne j hji))

/-- The process has been switched out and will be resumed. -/
def Proc.Suspended (pr : Proc) : Prop := pr.state = .runnable ∨ pr.state = .sleeping

theorem Proc.Undisturbed.suspended {pr pr' : Proc} (h : pr.Undisturbed pr') (hs : pr.Suspended) :
    pr'.Suspended := by
  rcases h.state with hsame | ⟨-, hr⟩
  · exact hs.imp hsame.trans hsame.trans
  · exact .inl hr

/-- While a process runs, the others that are to be resumed are not disturbed. -/
theorem WorkStep.undisturbed (h : WorkStep s t) (hp : s.core.cproc = some p) (hjp : j ≠ p)
    (hj : (s.core.procs j).Suspended) : (s.core.procs j).Undisturbed (t.core.procs j) := by
  have hself : s.core.cproc ≠ some j := by simp [hp, hjp.symm]
  have hno : ∀ x, (s.core.procs j).state = x → x = .runnable ∨ x = .sleeping :=
    fun x hx => hx ▸ hj
  constructor
  · refine (h.context j).resolve_right fun hor => ?_
    rcases hor with hc | ⟨hused, -⟩
    · exact hself hc
    · simpa using hno _ hused
  · cases h.edge j with
    | stay h => exact .inl h
    | wake h h' => exact .inr ⟨h, h'⟩
    | dispatch hidle => simp [hp] at hidle
    | sleep hi => exact absurd hi hself
    | exit hi => exact absurd hi hself
    | allocate _ h => simpa using hno _ h
    | abandon _ h => simpa using hno _ h
    | launch _ h => simpa using hno _ h
    | reap _ h => simpa using hno _ h

theorem workSteps_undisturbed (h : Relation.ReflTransGen WorkStep s t)
    (hp : s.core.cproc = some p) (hjp : j ≠ p) (hj : (s.core.procs j).Suspended) :
    t.core.cproc = some p ∧ (s.core.procs j).Undisturbed (t.core.procs j) := by
  induction h with
  | refl => exact ⟨hp, .refl _⟩
  | tail _ hstep ih =>
    obtain ⟨hup, hu⟩ := ih
    exact ⟨hstep.cproc.trans hup, hu.trans (hstep.undisturbed hup hjp (hu.suspended hj))⟩

/-! ### Programs that only wake -/

theorem Steady.coarse : Coarse (fun _ => True) Steady where
  trans := Steady.trans
  data h := .of_eq h.cproc h.ccontext h.procs
  plain _ := trivial
  emit c e _ := .emit c e
  echo _ _ := .of_eq rfl rfl rfl
  proc c i _ h _ _ := .setProc c i h
  parent c i par _ := (Steady.setProc c i (f := fun pr => { pr with parent := par })
    ⟨rfl, .inl rfl⟩).trans (.emit _ _)

theorem Steady.modEmit {e : Core → Event} : Keeps Steady (modCore fun c => c.emit (e c)) :=
  Steady.coarse.modEmit fun _ => trivial

theorem Steady.tolerant : Tolerant (fun _ => True) Steady where
  toCoarse := Steady.coarse
  arrived _ := trivial
  devices _ _ _ _ := .of_eq rfl rfl rfl

theorem Steady.loose : Loose (fun _ => True) Steady where
  toCoarse := Steady.coarse
  vm _ _ := .of_eq rfl rfl rfl
  space c i _ h _ := .setProc c i h

/-! ### Programs that know the state they overwrite -/

/-- Started in `s`, the program follows the diagram, leaves `cpus[0]` alone, and returns with
`Q`. -/
structure Lives (x : KernelM α) (Q : α → K → Prop) (s : K) : Prop where
  guarantees : x.Guarantees SteadyStep WorkStep Q s

section Lives

variable {x y : KernelM α} {f : α → KernelM β} {Q Q' : α → K → Prop} {P : β → K → Prop}

theorem Lives.mono (h : Lives x Q s) (hQ : ∀ a t, Q a t → Q' a t) : Lives x Q' s :=
  ⟨h.guarantees.mono hQ⟩

theorem Lives.bind (h : Lives x (fun a t => Lives (f a) P t) s) : Lives (x >>= f) P s :=
  ⟨.bind (h.guarantees.mono fun _ _ h => h.guarantees)⟩

theorem lives_pure {a : α} (h : Q a s) : Lives (pure a : KernelM α) Q s :=
  ⟨Prog.guarantees_pure h⟩

theorem lives_kpanic {e : Panic} : Lives (kpanic e : KernelM α) Q s := ⟨Prog.guarantees_panic⟩

theorem lives_ite {q : Prop} {_ : Decidable q} (hx : q → Lives x Q s) (hy : ¬q → Lives y Q s) :
    Lives (if q then x else y) Q s :=
  ⟨Prog.guarantees_ite (fun h => (hx h).guarantees) fun h => (hy h).guarantees⟩

theorem Keeps.lives (hx : Keeps Steady x) (h : ∀ a t, SteadyStep s t → Q a t) : Lives x Q s :=
  ⟨hx.within.guarantees SteadyStep.refl SteadyStep.trans (fun _ _ => SteadyStep.workStep) h⟩

theorem Keeps.lives_bind (hx : Keeps Steady x) (hf : ∀ a t, SteadyStep s t → Lives (f a) P t) :
    Lives (x >>= f) P s := .bind (hx.lives hf)

theorem lives_getCore {g : Core → α} (h : ∀ t, SteadyStep s t → Q (g t.core) t) :
    Lives (getCore g) Q s := ⟨Prog.guarantees_read WorkStep.refl h⟩

theorem lives_myproc {Q : Option Slot → K → Prop} (h : ∀ t, SteadyStep s t → Q s.core.cproc t) :
    Lives myproc Q s := by
  refine Steady.coarse.pushOff.lives_bind fun _ t ht => .bind (lives_getCore fun u hu => ?_)
  rw [show u.core.cproc = s.core.cproc from (ht.trans hu).cproc]
  exact Steady.coarse.popOff.lives_bind fun _ v hv => lives_pure (h v ((ht.trans hu).trans hv))

theorem lives_myproc_bind {k : Slot → KernelM α}
    (h : ∀ p t, s.core.cproc = some p → SteadyStep s t → Lives (k p) Q t) : Lives (do
      let p ← myproc
      let p ← deref p
      k p) Q s := by
  refine .bind (lives_myproc fun t ht => ?_)
  cases hp : s.core.cproc with
  | none => exact .bind lives_kpanic
  | some p => exact .bind (lives_pure (h p t hp ht))

/-- An assignment to the state of one slot. -/
theorem lives_setProc {g : Proc → Proc} {Q : Unit → K → Prop}
    (hctx : ∀ pr, (g pr).context = pr.context)
    (h : ∀ t, SteadyStep s t → LifeEdge t.core (t.core.setProc i g) i ∧
      Q () { t with core := t.core.setProc i g }) : Lives (modCore fun c => c.setProc i g) Q s := by
  refine ⟨Prog.guarantees_update fun t ht => ⟨.of_ne (h t ht).1 (.inl ?_)
    (fun _ hj => t.core.setProc_ne g hj) rfl rfl, (h t ht).2⟩⟩
  exact (congrArg Proc.context (t.core.setProc_self i g)).trans (hctx _)

/-- An assignment to the context of one slot. -/
theorem lives_setContext {g : Proc → Proc} {Q : Unit → K → Prop}
    (hst : ∀ pr, (g pr).state = pr.state)
    (h : ∀ t, SteadyStep s t → (t.core.cproc = some i ∨ (t.core.procs i).state = .used ∧
      ∀ pr, (g pr).context = some .forkret) ∧ Q () { t with core := t.core.setProc i g }) :
    Lives (modCore fun c => c.setProc i g) Q s := by
  refine ⟨Prog.guarantees_update fun t ht => ⟨.of_ne (.stay ?_) (.inr ?_)
    (fun _ hj => t.core.setProc_ne g hj) rfl rfl, (h t ht).2⟩⟩
  · exact (congrArg Proc.state (t.core.setProc_self i g)).trans (hst _)
  · refine (h t ht).1.imp_right fun hnew => ⟨hnew.1, ?_⟩
    exact (congrArg Proc.context (t.core.setProc_self i g)).trans (hnew.2 _)

/-- `freeproc`. -/
theorem lives_freeproc {Q : Unit → K → Prop}
    (h : ∀ t c', SteadyStep s t → (c'.procs i).state = .unused → LifeEdge t.core c' i)
    (hQ : ∀ t, t.core.cproc = s.core.cproc → Q () t) : Lives (coreAtomic (freeproc L i)) Q s := by
  refine ⟨Prog.guarantees_atomic WorkStep.refl fun t ht a u hx => ?_⟩
  obtain ⟨c', hc, rfl⟩ := PanicM.zoom_eq_ok_iff.mp hx
  obtain ⟨v, rfl⟩ := freeproc_eq_ok hc
  have hself := t.core.freed_self i v
  have hctx : ((t.core.freed i v).procs i).context = (t.core.procs i).context := by
    rw [hself, Proc.clear]
  exact ⟨.of_ne (h t _ ht (congrArg Proc.state hself)) (.inl hctx)
    (fun _ hj => t.core.freed_ne v hj) rfl rfl, hQ _ ht.cproc⟩

end Lives

/-! ### `sched` and `sleep` -/

/-- `cpus[0]` is in order: the process that runs is `RUNNING`, and the scheduler waits for it. -/
def Core.Engaged (c : Core) : Prop :=
  ∀ p, c.cproc = some p → (c.procs p).state = .running ∧ c.ccontext = some (.schedulerBack p)

theorem Core.Engaged.steady (h : c.Engaged) (hc : Steady c c') : c'.Engaged := by
  intro p hp
  obtain ⟨hst, hctx⟩ := h p (hc.cproc ▸ hp)
  exact ⟨hc.keeps hst (by decide), hc.ccontext.trans hctx⟩

theorem Good.engaged {S : Site} (hg : Good L S c) : c.Engaged :=
  fun _ hp => ⟨hg.state_running hp, hg.home _ hp⟩

/-- In the switch to the scheduler `cpus[0].proc` still points to the process, which has saved its
context. -/
structure Returning (p : Slot) (t : K) : Prop where
  cproc : t.core.cproc = some p
  ccontext : t.core.ccontext = some (.schedulerBack p)
  saved : (t.core.procs p).context ≠ none

theorem Returning.steady (h : Returning p s) (hs : SteadyStep s t) : Returning p t :=
  ⟨hs.cproc.trans h.cproc, hs.ccontext.trans h.ccontext, (hs.slot p).context ▸ h.saved⟩

/-- The program of a process ends at a label of the process or in the switch to the scheduler. -/
def Homeward : Label → K → Prop
  | .schedulerBack p, t => Returning p t
  | .scheduler, _ | .schedulerScan _ _, _ => False
  | _, _ => True

theorem lives_sched (back : Bool → Label)
    (h : ∀ p, s.core.cproc = some p → s.core.ccontext = some (.schedulerBack p)) :
    Lives (sched back) Homeward s := by
  refine lives_myproc_bind fun p t hp ht => Steady.coarse.getHart.lives_bind fun _ u hu => ?_
  refine lives_ite (fun _ => lives_kpanic) fun _ =>
    Steady.coarse.getHart.lives_bind fun _ v hv => ?_
  refine lives_ite (fun _ => lives_kpanic) fun _ =>
    Steady.coarse.getCore.lives_bind fun _ w hw => ?_
  refine lives_ite (fun _ => lives_kpanic) fun _ =>
    Steady.coarse.getHart.lives_bind fun _ x hx => ?_
  refine lives_ite (fun _ => lives_kpanic) fun _ =>
    Steady.coarse.getHart.lives_bind fun _ y hy => ?_
  refine .bind (lives_setContext (fun _ => rfl) fun z hz => ?_)
  have hall : SteadyStep s z := (((((ht.trans hu).trans hv).trans hw).trans hx).trans hy).trans hz
  refine ⟨.inl (hall.cproc.trans hp), .bind (lives_getCore fun z' hz' => ?_)⟩
  have hctx : z'.core.ccontext = some (.schedulerBack p) :=
    (hz'.ccontext.trans hall.ccontext).trans (h p hp)
  rw [hctx]
  refine lives_pure ⟨hz'.cproc.trans (hall.cproc.trans hp), hctx, ?_⟩
  rw [(hz'.slot p).context, Core.setProc_self]
  simp

theorem lives_sleep (k : Resume) (h : s.core.Engaged) : Lives (sleep k) Homeward s := by
  refine lives_myproc_bind fun p t hp ht => ?_
  refine (Steady.coarse.observePause p).lives_bind fun _ u hu => ?_
  refine (Steady.coarse.acquire _).lives_bind fun _ v hv => .bind (lives_getCore fun w hw => ?_)
  have hw' := ((ht.trans hu).trans hv).trans hw
  refine lives_ite (fun _ => .bind (lives_setProc (fun _ => rfl) fun x hx => ?_)) fun _ => ?_
  · have hx' := hw'.trans hx
    obtain ⟨hst, -⟩ := h.steady hx' p (hx'.cproc.trans hp)
    refine ⟨.sleep (hx'.cproc.trans hp) hst (congrArg Proc.state (x.core.setProc_self p _)), ?_⟩
    exact lives_sched _ fun q hq => (h.steady hx' q hq).2
  · refine (Steady.coarse.release _).lives_bind fun _ _ _ => ?_
    exact (Steady.coarse.observeBack p).lives_bind fun _ _ _ => lives_pure (by simp [Homeward])

/-! ### Exit -/

theorem lives_kexit (status : BitVec 32) (h : s.core.Engaged) :
    Lives (kexit status) Homeward s := by
  refine lives_myproc_bind fun p t hp ht => ?_
  refine .bind (lives_getCore fun u hu => lives_ite (fun _ => lives_kpanic) fun _ => ?_)
  refine (Steady.coarse.acquire _).lives_bind fun _ v hv => ?_
  refine (Steady.coarse.reparent (fun _ _ _ => trivial) p).lives_bind fun _ w hw => ?_
  refine Steady.coarse.getCore.lives_bind fun par x hx => ?_
  refine (Steady.coarse.wakeup _).lives_bind fun _ y hy => ?_
  refine (Steady.coarse.acquire _).lives_bind fun _ z hz => ?_
  refine .bind ⟨Prog.guarantees_update fun z' hz' => ?_⟩
  have hall : SteadyStep s z' := (((((((ht.trans hu).trans hv).trans hw).trans hx).trans hy).trans
    hz).trans hz')
  obtain ⟨hst, -⟩ := h.steady hall p (hall.cproc.trans hp)
  have hzombie := z'.core.setProc_self p fun pr => { pr with xstate := status, state := .zombie }
  refine ⟨.of_ne (.exit (hall.cproc.trans hp) hst (congrArg Proc.state hzombie))
    (.inr (.inl (hall.cproc.trans hp)))
    (fun _ hj => z'.core.setProc_ne (fun pr => { pr with xstate := status, state := .zombie }) hj)
    rfl rfl, ?_⟩
  refine (Steady.coarse.release _).lives_bind fun _ a ha => lives_sched _ fun q hq => ?_
  have hq' : z'.core.cproc = some q := ha.cproc ▸ hq
  exact ha.ccontext.trans (h.steady hall q hq').2

/-! ### Fork -/

theorem lives_allocprocFound (hp : s.core.cproc = some p) (hi : (s.core.procs i).state = .unused) :
    Lives (allocprocFound L i) (fun r t => t.core.cproc = some p ∧
      ∀ j, r = some j → (t.core.procs j).state = .used) s := by
  -- what has been allocated is given up
  have hnone : ∀ {t : K}, t.core.cproc = some p → (t.core.procs i).state = .used → Lives (do
      coreAtomic (freeproc L i)
      release (.proc i)
      return none : KernelM (Option Slot))
      (fun r t => t.core.cproc = some p ∧ ∀ j, r = some j → (t.core.procs j).state = .used) t := by
    intro t htp ht
    refine .bind (lives_freeproc (fun u c' hu hc' => ?_) fun u hu => ?_)
    · exact .abandon (hu.cproc.trans htp) (hu.keeps ht (by decide)) hc'
    · refine (Steady.coarse.release _).lives_bind fun _ v hv => lives_pure ⟨?_, by simp⟩
      exact hv.cproc.trans (hu.trans htp)
  refine Steady.coarse.allocpid.lives_bind fun pid t ht => ?_
  refine .bind (lives_setProc (fun _ => rfl) fun u hu => ?_)
  have hup : u.core.cproc = some p := (ht.trans hu).cproc.trans hp
  have hused :
      ((u.core.setProc i fun pr => { pr with pid := pid, state := .used }).procs i).state = .used :=
    congrArg Proc.state (u.core.setProc_self i _)
  refine ⟨.allocate hup ((ht.trans hu).keeps hi (by decide)) hused, ?_⟩
  refine (Steady.loose.vmAtomic _).lives_bind fun tf v hv => ?_
  refine Keeps.lives_bind (by
    exact Steady.loose.setSpace i (fun _ => rfl) (fun _ => rfl) fun _ => rfl) fun _ w hw => ?_
  have hwp : w.core.cproc = some p := (hv.trans hw).cproc.trans hup
  have hw' := (hv.trans hw).keeps hused (by decide)
  refine lives_ite (fun _ => hnone hwp hw') fun _ => ?_
  refine (Steady.loose.vmAtomic _).lives_bind fun pt x hx => ?_
  refine Keeps.lives_bind (by
    exact Steady.loose.setSpace i (fun _ => rfl) (fun _ => rfl) fun _ => rfl) fun _ y hy => ?_
  have hyp : y.core.cproc = some p := (hx.trans hy).cproc.trans hwp
  have hy' := (hx.trans hy).keeps hw' (by decide)
  refine lives_ite (fun _ => hnone hyp hy') fun _ => .bind (lives_setContext (fun _ => rfl)
    fun z hz => ⟨.inr ⟨hz.keeps hy' (by decide), fun _ => rfl⟩, ?_⟩)
  refine lives_pure ⟨hz.cproc.trans hyp, fun j hj => ?_⟩
  cases hj
  exact (congrArg Proc.state (z.core.setProc_self i fun pr =>
    { pr with context := some .forkret })).trans (hz.keeps hy' (by decide))

theorem lives_allocproc (hp : s.core.cproc = some p) :
    Lives (allocproc L) (fun r t => t.core.cproc = some p ∧
      ∀ j, r = some j → (t.core.procs j).state = .used) s := by
  have hloop : ∀ ps s, s.core.cproc = some p → Lives (allocprocScan L ps)
      (fun r t => t.core.cproc = some p ∧ ∀ j, r = some j → (t.core.procs j).state = .used) s := by
    intro ps
    induction ps with
    | nil => exact fun s hs => lives_pure ⟨hs, by simp⟩
    | cons q ps ih =>
      intro s hs
      refine (Steady.coarse.acquire _).lives_bind fun _ t ht => .bind (lives_getCore fun u hu => ?_)
      have hup : u.core.cproc = some p := (ht.trans hu).cproc.trans hs
      refine lives_ite (fun hunused => lives_allocprocFound hup hunused) fun _ => ?_
      exact (Steady.coarse.release _).lives_bind fun _ v hv => ih v (hv.cproc.trans hup)
  exact hloop slots s hp

theorem lives_kfork : Lives (kfork L) (fun _ _ => True) s := by
  refine lives_myproc_bind fun p t hp ht => .bind ((lives_allocproc (ht.cproc.trans hp)).mono ?_)
  rintro np u ⟨hup, hnp⟩
  cases np with
  | none => exact lives_pure trivial
  | some np =>
    replace hnp := hnp np rfl
    refine Steady.coarse.getCore.lives_bind fun _ v hv => ?_
    refine Steady.coarse.getCore.lives_bind fun _ w hw => ?_
    refine (Steady.loose.vmAtomic _).lives_bind fun _ x hx => ?_
    have hx' := (hv.trans hw).trans hx
    refine lives_ite (fun _ => .bind (lives_freeproc (fun y c' hy hc' => ?_) fun y _ => ?_))
      fun _ => ?_
    · have hy' := hx'.trans hy
      exact .abandon (hy'.cproc.trans hup) (hy'.keeps hnp (by decide)) hc'
    · exact (Steady.coarse.release _).lives_bind fun _ _ _ => lives_pure trivial
    · refine (keeps_modCore fun c => Steady.loose.forkCopy c p np).lives_bind fun _ y hy => ?_
      refine Steady.coarse.getCore.lives_bind fun _ z hz => ?_
      refine (Steady.coarse.release _).lives_bind fun _ y₁ hy₁ => ?_
      refine (Steady.coarse.acquire _).lives_bind fun _ y₂ hy₂ => ?_
      refine (Steady.coarse.setParent (fun _ _ _ => trivial) _ _).lives_bind fun _ y₃ hy₃ => ?_
      refine (Steady.coarse.release _).lives_bind fun _ y₄ hy₄ => ?_
      refine (Steady.coarse.acquire _).lives_bind fun _ y₅ hy₅ => ?_
      refine .bind (lives_setProc (fun _ => rfl) fun y₆ hy₆ => ?_)
      have hall := (((((((hx'.trans hy).trans hz).trans hy₁).trans hy₂).trans hy₃).trans hy₄).trans
        hy₅).trans hy₆
      refine ⟨.launch (hall.cproc.trans hup) (hall.keeps hnp (by decide))
        (congrArg Proc.state (y₆.core.setProc_self np _)), ?_⟩
      exact (Steady.coarse.release _).lives_bind fun _ _ _ => lives_pure trivial

/-! ### Wait -/

/-- **The scan of `kwait`** frees zombies only. -/
theorem lives_kwaitScan (addr : ℕ) : ∀ (ps : List Slot) (havekids : Bool) {s : K},
    s.core.cproc = some p →
      Lives (kwaitScan L p addr ps havekids) (fun r t => ∀ b, r = .ok b → SteadyStep s t) s := by
  intro ps
  induction ps with
  | nil => exact fun havekids s _ => lives_pure fun _ _ => .refl s
  | cons q ps ih =>
    intro havekids s hp
    have hgo : ∀ (kids : Bool) {t : K}, SteadyStep s t →
        Lives (kwaitScan L p addr ps kids) (fun r t => ∀ b, r = .ok b → SteadyStep s t) t :=
      fun kids t ht => (ih kids (ht.cproc.trans hp)).mono fun r u hu b hb => ht.trans (hu b hb)
    have hlast : ∀ (w : BitVec 32) {t : K}, Lives (do
        modCore fun c => c.emit (.waitRet p w)
        release (.proc q)
        release .wait
        return .error w : KernelM (Except (BitVec 32) Bool))
          (fun r t => ∀ b, r = .ok b → SteadyStep s t) t := fun w t =>
      Steady.modEmit.lives_bind fun _ _ _ =>
      (Steady.coarse.release _).lives_bind fun _ _ _ =>
      (Steady.coarse.release _).lives_bind fun _ _ _ => lives_pure (by simp)
    refine .bind (lives_getCore fun t ht => lives_ite (fun _ => ?_) fun _ => hgo _ ht)
    refine (Steady.coarse.acquire _).lives_bind fun _ u hu => ?_
    refine .bind (lives_getCore fun v hv => lives_ite (fun hzombie => ?_) fun _ => ?_)
    swap
    · refine (Steady.coarse.release _).lives_bind fun _ w hw => ?_
      exact hgo _ (((ht.trans hu).trans hv).trans hw)
    refine Steady.coarse.getCore.lives_bind fun pid w₁ hw₁ => ?_
    refine Steady.coarse.getCore.lives_bind fun pt w₂ hw₂ => ?_
    refine Steady.coarse.getCore.lives_bind fun xstate w₃ hw₃ => ?_
    refine (Steady.loose.vmAtomic _).lives_bind fun ok w₄ hw₄ => ?_
    refine lives_ite (fun _ => hlast _) fun _ => ?_
    refine Steady.modEmit.lives_bind fun _ w₅ hw₅ => ?_
    refine (Steady.coarse.setParent (fun _ _ _ => trivial) _ _).lives_bind fun _ w₆ hw₆ => ?_
    have hall := ((((hw₁.trans hw₂).trans hw₃).trans hw₄).trans hw₅).trans hw₆
    refine .bind (lives_freeproc (fun x c' hx hc' => ?_) fun _ _ => hlast pid)
    refine .reap (p := p) ?_ ((hall.trans hx).keeps hzombie (by decide)) hc'
    exact ((((ht.trans hu).trans hv).trans hall).trans hx).cproc.trans hp

theorem lives_kwaitRound (addr : ℕ) (hp : s.core.cproc = some p) (h : s.core.Engaged) :
    Lives (kwaitRound L p addr) Homeward s := by
  refine .bind ((lives_kwaitScan addr slots false hp).mono fun r t ht => ?_)
  cases r with
  | error v => exact lives_pure (by simp [Homeward])
  | ok havekids =>
    replace ht := ht havekids rfl
    have hgo : ∀ (stop : Bool) {u : K}, SteadyStep t u → Lives (if stop then do
        modCore fun c => c.emit (.waitRet p (-1))
        release .wait
        return .sysret p ((-1 : BitVec 32).signExtend 64)
      else do
        sleepPrepare (.proc p)
        release .wait
        sleep (.kwait addr) : KernelM Label) Homeward u := by
      intro stop u hu
      refine lives_ite (fun _ => Steady.modEmit.lives_bind fun _ _ _ =>
        (Steady.coarse.release _).lives_bind fun _ _ _ => lives_pure (by simp [Homeward]))
        fun _ => ?_
      refine (Steady.coarse.sleepPrepare _).lives_bind fun _ v hv => ?_
      refine (Steady.coarse.release _).lives_bind fun _ w hw => ?_
      exact lives_sleep _ (h.steady (((ht.trans hu).trans hv).trans hw))
    cases havekids with
    | false => exact hgo true (.refl t)
    | true => exact (Steady.coarse.killed p).lives_bind fun stop u hu => hgo stop hu

/-! ### The console -/

theorem lives_consolereadDone (v : BitVec 32) : Lives (consolereadDone p v) Homeward s :=
  Steady.modEmit.lives_bind fun _ _ _ => (Steady.coarse.release _).lives_bind fun _ _ _ =>
    lives_pure (by simp [Homeward])

theorem lives_consolereadWaitRound (dst : ℕ) (n target : BitVec 32) (h : s.core.Engaged) :
    Lives (consolereadWaitRound L p dst n target) Homeward s := by
  refine .bind (lives_getCore fun t ht => lives_ite (fun _ => ?_) fun _ => ?_)
  · refine lives_myproc_bind fun q u _ hu => ?_
    refine (Steady.coarse.killed q).lives_bind fun _ v hv => ?_
    refine lives_ite (fun _ => lives_consolereadDone _) fun _ => ?_
    refine (Steady.coarse.sleepPrepare _).lives_bind fun _ w hw => ?_
    refine (Steady.coarse.release _).lives_bind fun _ x hx => ?_
    exact lives_sleep _ (h.steady ((((ht.trans hu).trans hv).trans hw).trans hx))
  · refine Keeps.lives_bind (by exact Steady.coarse.modData fun _ => {}) fun _ _ _ => ?_
    refine (Steady.loose.eitherCopyout _ _).lives_bind fun ok _ _ => ?_
    refine lives_ite (fun _ => ?_) fun _ => ?_
    · exact Steady.modEmit.lives_bind fun _ _ _ => lives_consolereadDone _
    · refine Steady.modEmit.lives_bind fun _ _ _ => ?_
      exact lives_ite (fun _ => lives_consolereadDone _) fun _ => lives_pure (by simp [Homeward])

theorem lives_consolewriteRound (src : ℕ) (n i : BitVec 32) :
    Lives (consolewriteRound L p src n i) Homeward s := by
  refine lives_ite (fun _ => (Steady.loose.eitherCopyin _ _).lives_bind fun bytes _ _ => ?_)
    fun _ => lives_pure (by simp [Homeward])
  cases bytes with
  | none => exact lives_pure (by simp [Homeward])
  | some bytes =>
    exact (Steady.coarse.putBytes bytes).lives_bind fun _ _ _ => lives_pure (by simp [Homeward])

/-! ### Traps -/

theorem lives_syscall (h : s.core.Engaged) : Lives (syscall L) Homeward s := by
  refine lives_myproc_bind fun p t _ ht => Steady.coarse.getCore.lives_bind fun a7 u hu => ?_
  refine lives_ite (fun _ => .bind (lives_kfork.mono fun _ _ _ => lives_pure (by
    simp [Homeward]))) fun _ => ?_
  refine lives_ite (fun _ => (Steady.coarse.argraw _).lives_bind fun _ v hv => lives_kexit _
    (h.steady ((ht.trans hu).trans hv))) fun _ => ?_
  refine lives_ite (fun _ => ?wait) fun _ => lives_ite (fun _ => ?read) fun _ => lives_ite
    (fun _ => ?exec) fun _ => lives_ite (fun _ => ?getpid) fun _ => lives_ite (fun _ => ?write)
    fun _ => lives_pure (by simp [Homeward])
  case wait =>
    refine (Steady.coarse.argraw _).lives_bind fun _ _ _ => ?_
    refine lives_myproc_bind fun _ _ _ _ => ?_
    refine (Steady.coarse.acquire _).lives_bind fun _ _ _ => ?_
    refine Steady.modEmit.lives_bind fun _ _ _ => ?_
    exact lives_pure (by simp [Homeward])
  case read =>
    refine (Steady.coarse.argraw _).lives_bind fun _ _ _ => ?_
    refine (Steady.coarse.argraw _).lives_bind fun _ _ _ => ?_
    refine (Steady.coarse.argraw _).lives_bind fun _ _ _ => ?_
    refine lives_ite (fun _ => lives_pure (by simp [Homeward])) fun _ => ?_
    refine (Steady.coarse.acquire _).lives_bind fun _ _ _ => ?_
    refine Steady.modEmit.lives_bind fun _ _ _ => ?_
    exact lives_pure (by simp [Homeward])
  case exec =>
    exact Steady.loose.sysExec.lives_bind fun _ _ _ => lives_pure (by simp [Homeward])
  case getpid =>
    refine (Steady.coarse.myproc_bind fun _ => Steady.coarse.getCore).lives_bind fun _ _ _ => ?_
    exact lives_pure (by simp [Homeward])
  case write =>
    refine (Steady.coarse.argraw _).lives_bind fun _ _ _ => ?_
    refine (Steady.coarse.argraw _).lives_bind fun _ _ _ => ?_
    refine (Steady.coarse.argraw _).lives_bind fun _ _ _ => ?_
    exact lives_ite (fun _ => lives_pure (by simp [Homeward])) fun _ =>
      lives_pure (by simp [Homeward])

theorem lives_usertrap (h : s.core.Engaged) : Lives (usertrap L) Homeward s := by
  refine Steady.coarse.getHart.lives_bind fun _ _ h₁ => ?_
  refine lives_ite (fun _ => lives_kpanic) fun _ => ?_
  refine Steady.coarse.modHart.lives_bind fun _ _ h₂ => ?_
  refine lives_myproc_bind fun p _ _ h₃ => ?_
  refine Steady.coarse.getHart.lives_bind fun _ _ h₄ => ?_
  refine (Steady.loose.tfStore _ _ _).lives_bind fun _ _ h₅ => ?_
  refine Steady.coarse.getHart.lives_bind fun _ _ h₆ => ?_
  refine lives_ite (fun _ => ?_) fun _ => ?_
  · refine (Steady.loose.tfStore _ _ _).lives_bind fun _ _ h₇ => ?_
    refine Steady.coarse.modHart.lives_bind fun _ _ h₈ => ?_
    refine lives_syscall (h.steady ?_)
    exact ((((((h₁.trans h₂).trans h₃).trans h₄).trans h₅).trans h₆).trans h₇).trans h₈
  · refine (Steady.tolerant.devintr L).lives_bind fun _ _ _ => ?_
    refine lives_ite (fun _ => lives_pure (by simp [Homeward])) fun _ => ?_
    refine Steady.coarse.getHart.lives_bind fun _ _ _ => ?_
    refine Steady.coarse.getCore.lives_bind fun _ _ _ => ?_
    refine (Steady.coarse.printf _ _).lives_bind fun _ _ _ => ?_
    refine (Steady.coarse.printf _ _).lives_bind fun _ _ _ => ?_
    exact (Steady.coarse.setkilled p).lives_bind fun _ _ _ => lives_pure (by simp [Homeward])

/-- The way back to user mode. -/
theorem lives_leave (p : Slot) : Lives (do
    usertrapret L
    let pt ← getCore fun c => (c.procs p).pagetable
    return .userret (satpOf pt) : KernelM Label) Homeward s :=
  Steady.loose.usertrapret.lives_bind fun _ _ _ => Steady.coarse.getCore.lives_bind fun _ _ _ =>
    lives_pure (by simp [Homeward])

theorem lives_forkret : Lives (forkret L) Homeward s := by
  refine lives_myproc_bind fun p _ _ _ => (Steady.coarse.release _).lives_bind fun _ _ _ => ?_
  refine Steady.coarse.getCore.lives_bind fun _ _ _ => ?_
  refine lives_ite (fun _ => ?_) fun _ => lives_leave p
  refine Keeps.lives_bind (by exact Steady.coarse.modData fun _ => {}) fun _ _ _ => ?_
  refine (Steady.loose.kexec _).lives_bind fun _ _ _ => ?_
  refine (Steady.loose.tfStore _ _ _).lives_bind fun _ _ _ => ?_
  refine Steady.coarse.getCore.lives_bind fun _ _ _ => ?_
  exact lives_ite (fun _ => lives_kpanic) fun _ => lives_leave p

/-! ### The programs of the processes -/

/-- The label is one of the scheduler's own. -/
def Label.IsScheduler : Label → Prop
  | .scheduler | .schedulerScan _ _ | .schedulerBack _ => True
  | _ => False

/-- At the labels of the processes `cpus[0]` is in order. -/
theorem Reachable.engaged {image : Mem} {fails : ℕ → Bool} {a : Label}
    (hs : Reachable L image fails ⟨s, .ret a, []⟩) (ha : ¬a.IsScheduler) : s.core.Engaged := by
  obtain ⟨kpt, hI, hpre⟩ := hs.pre
  obtain ⟨cp, hg, -, rfl | ⟨-, p, rfl⟩⟩ := hpre.good hI
  · exact hg.engaged
  · exact absurd trivial ha

/-- **The programs of the processes** follow the diagram. -/
theorem kernelCode_lives {image : Mem} {fails : ℕ → Bool} {a : Label} {x : KernelM Label}
    (hd : Reachable L image fails ⟨s, .ret a, []⟩) (hx : kernelCode L a = some x)
    (ha : ¬a.IsScheduler) : Lives x Homeward s := by
  have hengaged := hd.engaged ha
  cases a with
  | scheduler => exact absurd trivial ha
  | schedulerScan i found => exact absurd trivial ha
  | schedulerBack p => exact absurd trivial ha
  | kwait p addr =>
    cases hx
    obtain ⟨kpt, -, ⟨h₀, μ, -, -, -, hg, hw, -⟩ | htrap⟩ := hd.pre
    · exact lives_kwaitRound addr hw.cproc hengaged
    · exact absurd htrap id
  | consolereadWait p dst n target =>
    cases hx
    exact lives_consolereadWaitRound dst n target hengaged
  | forkret =>
    cases hx
    exact lives_forkret
  | sleepBack p ia k =>
    cases hx
    refine Steady.coarse.modHart.lives_bind fun _ _ _ => ?_
    refine (Steady.coarse.release _).lives_bind fun _ _ _ => ?_
    refine (Steady.coarse.observeBack p).lives_bind fun _ _ _ => ?_
    exact lives_pure (by simp [Homeward])
  | exitBack =>
    cases hx
    exact lives_kpanic
  | awake p k =>
    cases hx
    cases k with
    | kwait addr =>
      exact (Steady.coarse.acquire _).lives_bind fun _ _ _ => lives_pure (by simp [Homeward])
    | consoleread dst n target =>
      exact (Steady.coarse.acquire _).lives_bind fun _ _ _ => lives_pure (by simp [Homeward])
    | usertrap => exact lives_pure (by simp [Homeward])
  | consoleread p dst n target =>
    cases hx
    exact lives_ite (fun _ => lives_pure (by simp [Homeward])) fun _ => lives_consolereadDone _
  | consolewrite p src n i =>
    cases hx
    exact lives_consolewriteRound src n i
  | sysret p v =>
    cases hx
    refine Keeps.lives_bind (keeps_modCore fun c => ?_) fun _ _ _ => lives_pure (by
      simp [Homeward])
    exact .of_eq rfl rfl rfl
  | usertrapTail p =>
    cases hx
    refine (Steady.coarse.killed p).lives_bind fun _ t ht => ?_
    exact lives_ite (fun _ => lives_kexit _ (hengaged.steady ht)) fun _ => lives_leave p
  | userret satp =>
    cases hx
    refine Steady.coarse.modHart.lives_bind fun _ _ _ => ?_
    refine (Steady.loose.trampolineCode _).lives_bind fun _ _ _ => ?_
    refine Steady.coarse.getHart.lives_bind fun _ _ _ => ?_
    refine Steady.coarse.getCore.lives_bind fun _ _ _ => ?_
    refine (keeps_deref _).lives_bind fun _ _ _ => ?_
    refine lives_ite (fun _ => lives_kpanic) fun _ => ?_
    refine (keeps_update fun s => .emit s.core _).lives_bind fun _ _ _ => ?_
    exact lives_pure (by simp [Homeward])
  | user => cases hx
  | vector =>
    cases hx
    refine Steady.coarse.getHart.lives_bind fun _ _ _ => ?_
    refine lives_ite (fun _ => lives_kpanic) fun _ => ?_
    refine (Steady.loose.trampolineCode _).lives_bind fun _ _ _ => ?_
    refine Steady.coarse.getHart.lives_bind fun _ _ _ => ?_
    refine Steady.coarse.getCore.lives_bind fun _ _ _ => ?_
    refine (keeps_deref _).lives_bind fun _ _ _ => ?_
    refine Steady.coarse.getCore.lives_bind fun _ _ _ => ?_
    refine Steady.coarse.getCore.lives_bind fun _ _ _ => ?_
    exact lives_ite (fun _ => lives_pure (by simp [Homeward])) fun _ => lives_kpanic
  | usertrap =>
    cases hx
    exact lives_usertrap hengaged

/-! ### The scheduler -/

theorem LifeStep.refl (s : K) : LifeStep s s := (WorkStep.refl s).lifeStep

/-- A program that only wakes, as part of the scheduler. -/
theorem Keeps.scheduler {x : KernelM α} {Q : α → K → Prop} (hx : Keeps Steady x)
    (h : ∀ a t, SteadyStep s t → Q a t) : x.Guarantees SteadyStep LifeStep Q s :=
  hx.within.guarantees SteadyStep.refl SteadyStep.trans (fun _ _ h => h.workStep.lifeStep) h

/-- How the round of the scheduler for `proc[i]` ends: the process was not `RUNNABLE`, or it runs
now, at the label it has saved. -/
inductive ScanEnds (s : K) (i : ℕ) (found : Bool) (a : Label) (t : K) : Prop
  | skip (hi : i < nproc) (hst : (s.core.procs ⟨i, hi⟩).state ≠ .runnable)
      (hidle : t.core.cproc = none) (ha : a = .schedulerScan (i + 1) found)
      (hrest : ∀ j, (s.core.procs j).Undisturbed (t.core.procs j))
  | turn (hi : i < nproc) (hproc : t.core.cproc = some ⟨i, hi⟩)
      (hst : (t.core.procs ⟨i, hi⟩).state = .running)
      (ha : (s.core.procs ⟨i, hi⟩).context = some a)
      (ha' : (t.core.procs ⟨i, hi⟩).context = some a)
      (hrest : ∀ j, j ≠ ⟨i, hi⟩ → (s.core.procs j).Undisturbed (t.core.procs j))
  | wrap (hi : nproc ≤ i) (hidle : t.core.cproc = none) (ha : a = .scheduler)
      (hrest : ∀ j, (s.core.procs j).Undisturbed (t.core.procs j))

theorem ScanEnds.steady {i : ℕ} {found : Bool} {a : Label} {u : K}
    (h : ScanEnds s i found a t) (htu : SteadyStep t u) : ScanEnds s i found a u := by
  cases h with
  | skip hi hst hidle ha hrest =>
    exact .skip hi hst (htu.cproc.trans hidle) ha fun j => (hrest j).trans (htu.slot j)
  | turn hi hproc hst ha ha' hrest =>
    exact .turn hi (htu.cproc.trans hproc) (htu.keeps hst (by decide)) ha
      ((htu.slot _).context.trans ha') fun j hne => (hrest j hne).trans (htu.slot j)
  | wrap hi hidle ha hrest =>
    exact .wrap hi (htu.cproc.trans hidle) ha fun j => (hrest j).trans (htu.slot j)

theorem schedulerScan_guarantees (i : ℕ) (found : Bool) (hidle : s.core.cproc = none) :
    (schedulerScan i found).Guarantees SteadyStep LifeStep (ScanEnds s i found) s := by
  rw [schedulerScan]
  split_ifs with hi
  · refine .bind ((Steady.coarse.acquire _).scheduler fun _ t ht => .bind (Prog.guarantees_read
      LifeStep.refl fun u hu => ?_))
    have hsu : SteadyStep s u := ht.trans hu
    refine Prog.guarantees_ite (fun hrun => .bind ?_) fun hno => ?_
    · refine Prog.guarantees_update fun v hv => ?_
      have hsv : SteadyStep s v := hsu.trans hv
      have hvi : v.core.cproc = none := hsv.cproc.trans hidle
      have hvr := hv.keeps hrun (by decide)
      -- the dispatch changes this slot alone, and of it only the state
      have hself := v.core.dispatch_self ⟨i, hi⟩
      have hne : ∀ j, j ≠ ⟨i, hi⟩ → (v.core.dispatch ⟨i, hi⟩).procs j = v.core.procs j :=
        fun j hj => v.core.setProc_ne (fun pr => { pr with state := .running }) hj
      have hctx : ∀ j, ((v.core.dispatch ⟨i, hi⟩).procs j).context = (v.core.procs j).context := by
        intro j
        by_cases hj : j = ⟨i, hi⟩
        · rw [hj, hself]
        · rw [hne j hj]
      refine ⟨⟨fun j => ?_, fun j => .inl (hctx j), .dispatch ⟨i, hi⟩ hvi hvr rfl rfl⟩, ?_⟩
      · by_cases hj : j = ⟨i, hi⟩
        · rw [hj]
          exact .dispatch hvi rfl hvr (congrArg Proc.state hself)
        · exact .stay (congrArg Proc.state (hne j hj))
      · have hends : ∀ a, (s.core.procs ⟨i, hi⟩).context = some a →
            ScanEnds s i found a { v with core := v.core.dispatch ⟨i, hi⟩ } := by
          refine fun a ha => .turn hi rfl (congrArg Proc.state hself) ha ?_ fun j hj => ?_
          · exact (hctx _).trans ((hsv.slot _).context.trans ha)
          show (s.core.procs j).Undisturbed ((v.core.dispatch ⟨i, hi⟩).procs j)
          rw [hne j hj]
          exact hsv.slot j
        rw [show (u.core.procs ⟨i, hi⟩).context = (s.core.procs ⟨i, hi⟩).context from
          (hsu.slot _).context]
        cases hctx : (s.core.procs ⟨i, hi⟩).context with
        | none => exact Prog.guarantees_panic
        | some l => exact Prog.guarantees_pure (hends l hctx)
    · refine .bind ((Steady.coarse.release _).scheduler fun _ v hv => Prog.guarantees_pure ?_)
      have hsv : SteadyStep s v := hsu.trans hv
      exact .skip hi (fun hr => hno (hsu.keeps hr (by decide))) (hsv.cproc.trans hidle) rfl hsv.slot
  · exact Prog.guarantees_pure (.wrap (Nat.le_of_not_lt hi) hidle rfl fun _ => .refl _)

/-- How the round ends in which the process `p` has switched back. -/
def BackEnds (s : K) (p : Slot) (a : Label) (t : K) : Prop :=
  t.core.cproc = none ∧ a = .schedulerScan (p + 1) true ∧
    ∀ j, (s.core.procs j).Undisturbed (t.core.procs j)

theorem schedulerBack_guarantees (hp : s.core.cproc = some p)
    (hst : (s.core.procs p).state ≠ .running) :
    (schedulerBack p).Guarantees SteadyStep LifeStep (BackEnds s p) s := by
  refine .bind (Prog.guarantees_update fun t ht =>
    ⟨⟨fun j => .stay rfl, fun j => .inl rfl, ?_⟩, ?_⟩)
  · exact .back p (ht.cproc.trans hp) (fun hr => hst ((ht.slot p).reflects hr (by decide))) rfl rfl
  · exact .bind ((Steady.coarse.release _).scheduler fun _ u hu => Prog.guarantees_pure
      ⟨hu.cproc, rfl, fun j => (ht.slot j).trans (hu.slot j)⟩)

/-! ### The machine -/

theorem UserStep.steady {a b : Label} (h : UserStep (a, s) (b, t)) : SteadyStep s t := by
  cases h with
  | compute regs pc hm => exact .of_eq rfl rfl rfl
  | trap hi scause stval irq =>
    exact (Steady.emit s.core _).trans (Steady.tolerant.irqDevices irq scause _)

/-- The switch to the scheduler is that of the process `cpus[0].proc` points to, and the scan stays
within the table. -/
def AtPlace : Label → K → Prop
  | .schedulerBack p, s => s.core.cproc = some p
  | .schedulerScan i _, _ => i ≤ nproc
  | _, _ => True

theorem AtPlace.steady {a : Label} (h : AtPlace a s) (hs : SteadyStep s t) : AtPlace a t := by
  cases a with
  | schedulerBack p => exact hs.cproc.trans h
  | schedulerScan i found => exact h
  | _ => trivial

theorem Homeward.steady {a : Label} (h : Homeward a s) (hs : SteadyStep s t) : Homeward a t := by
  cases a with
  | schedulerBack p => exact Returning.steady h hs
  | scheduler => exact h
  | schedulerScan i found => exact h
  | _ => trivial

theorem Homeward.atPlace {a : Label} (h : Homeward a s) : AtPlace a s := by
  cases a with
  | schedulerBack p => exact Returning.cproc h
  | schedulerScan i found => exact absurd h id
  | _ => trivial

section Machine

variable {image : Mem} {fails : ℕ → Bool} {a b : Label} {x : KernelM Label}

/-- A leg in terms of its steps. -/
theorem segment_lives {G : K → K → Prop} {Q : Label → K → Prop}
    (hG : ∀ s t, SteadyStep s t → G s t) (hstable : ∀ a u v, Q a u → SteadyStep u v → Q a v)
    (hx : x.Guarantees SteadyStep G Q s)
    (hrun : Relation.ReflTransGen (kernel L).segment.Micro ⟨s, x, []⟩ ⟨t, .ret b, []⟩) :
    Relation.ReflTransGen G s t ∧ Q b t :=
  System.segment_guarantees (M := kernel L) SteadyStep.refl SteadyStep.trans hG
    (fun irq s => Steady.tolerant.irqDevices irq _ s.core) (fun s => Steady.refl s.core)
    (fun _ => (Steady.tolerant.kernelvec L).within) hstable hx hrun

/-- The scheduler switches to a label of the process. -/
theorem Pre.atPlace {S : Site} {D : Discipline} (hpre : Pre L S D a s) (hp : s.core.cproc = some p)
    (hst : (s.core.procs p).state = .running) : AtPlace a s := by
  rcases hpre with ⟨h₀, μ, -, -, hlabel⟩ | htrap
  · cases a with
    | schedulerBack q =>
      obtain ⟨-, hg, -⟩ := hlabel
      have hidle := (hg.slot p).running.mp hst
      cases hidle
    | schedulerScan i found =>
      obtain ⟨-, hidle, -⟩ := hlabel
      rw [hp] at hidle
      cases hidle
    | _ => trivial
  · cases a with
    | schedulerBack q => exact absurd htrap id
    | schedulerScan i found => exact absurd htrap id
    | _ => trivial

/-- At the switch to the scheduler the process has given up the CPU. -/
theorem Reachable.not_running (hs : Reachable L image fails ⟨s, .ret (.schedulerBack p), []⟩) :
    (s.core.procs p).state ≠ .running := by
  obtain ⟨kpt, -, ⟨h₀, μ, -, -, -, hg, -⟩ | htrap⟩ := hs.pre
  · intro hst
    have hidle := (hg.slot p).running.mp hst
    cases hidle
  · exact absurd htrap id

/-- Between its own labels the scheduler has handed the CPU to a process. -/
theorem Reachable.busy (hs : Reachable L image fails ⟨s, .ret a, []⟩) (ha : ¬a.IsScheduler) :
    ∃ p, s.core.cproc = some p := by
  obtain ⟨kpt, -, ⟨h₀, μ, -, -, hlabel⟩ | htrap⟩ := hs.pre
  · cases a with
    | scheduler => exact absurd trivial ha
    | schedulerScan i found => exact absurd trivial ha
    | schedulerBack p => exact absurd trivial ha
    | forkret =>
      obtain ⟨p, -, -, hw, -⟩ := hlabel
      exact ⟨p, hw.cproc⟩
    | sleepBack p ia k => exact ⟨p, hlabel.2.2.1.cproc⟩
    | awake p k => exact ⟨p, hlabel.2.1.cproc⟩
    | kwait p addr => exact ⟨p, hlabel.2.2.1.cproc⟩
    | consoleread p dst n target => exact ⟨p, hlabel.2.2.1.cproc⟩
    | consolereadWait p dst n target => exact ⟨p, hlabel.2.2.1.cproc⟩
    | consolewrite p src n i => exact ⟨p, hlabel.2.1.cproc⟩
    | sysret p v => exact ⟨p, hlabel.2.1.cproc⟩
    | usertrapTail p => exact ⟨p, hlabel.2.1.cproc⟩
    | _ => exact absurd hlabel id
  · cases a with
    | userret satp =>
      obtain ⟨-, -, -, -, -, p, hr, -⟩ := htrap
      exact ⟨p, hr.cproc⟩
    | user =>
      obtain ⟨-, -, p, hr, -⟩ := htrap
      exact ⟨p, hr.cproc⟩
    | vector =>
      obtain ⟨-, p, t, hr, -⟩ := htrap
      exact ⟨p, hr.cproc⟩
    | usertrap =>
      obtain ⟨-, p, t, hr, -⟩ := htrap
      exact ⟨p, hr.cproc⟩
    | _ => exact absurd htrap id

theorem Reachable.idle_scheduler (hs : Reachable L image fails ⟨s, .ret .scheduler, []⟩) :
    s.core.cproc = none := by
  obtain ⟨kpt, -, ⟨h₀, μ, -, -, -, hidle, -⟩ | htrap⟩ := hs.pre
  · exact hidle
  · exact absurd htrap id

theorem Reachable.idle {i : ℕ} {found : Bool}
    (hs : Reachable L image fails ⟨s, .ret (.schedulerScan i found), []⟩) :
    s.core.cproc = none := by
  obtain ⟨kpt, -, ⟨h₀, μ, -, -, -, hidle, -⟩ | htrap⟩ := hs.pre
  · exact hidle
  · exact absurd htrap id

/-- What a leg is. -/
inductive LegEnds (a : Label) (s : K) (b : Label) (t : K) : Prop
  | rest (hb : b = a) (h : SteadyStep s t)
  | user (h : UserStep (a, s) (b, t))
  | process (ha : ¬a.IsScheduler) (h : Relation.ReflTransGen WorkStep s t) (hb : Homeward b t)
  | round (ha : a = .scheduler) (hb : b = .schedulerScan 0 false) (h : SteadyStep s t)
  | scan {i : ℕ} {found : Bool} (ha : a = .schedulerScan i found) (hidle : s.core.cproc = none)
      (h : ScanEnds s i found b t)
  | back {p : Slot} (ha : a = .schedulerBack p) (hp : s.core.cproc = some p) (h : BackEnds s p b t)

/-- **The legs of the kernel.** -/
theorem leg_ends (hs : Reachable L image fails ⟨s, .ret a, []⟩) (hplace : AtPlace a s)
    (hleg : (kernel L).Leg (a, s) (b, t)) : LegEnds a s b t := by
  have hproc : ∀ s t, SteadyStep s t → WorkStep s t := fun _ _ => SteadyStep.workStep
  have hlife : ∀ s t, SteadyStep s t → LifeStep s t := fun _ _ h => h.workStep.lifeStep
  cases hleg with
  | env h => exact .user h
  | @run _ _ _ _ x hx hrun =>
    rcases hx with rfl | hx
    · obtain ⟨hb, h⟩ := (segment_lives (Q := fun b t => b = a ∧ SteadyStep s t) hproc
        (fun _ _ _ hu huv => ⟨hu.1, hu.2.trans huv⟩) (Prog.guarantees_pure ⟨rfl, .refl s⟩) hrun).2
      exact .rest hb h
    by_cases ha : a.IsScheduler
    · cases a with
      | scheduler =>
        cases hx
        obtain ⟨hb, h⟩ := (segment_lives (Q := fun b t => b = .schedulerScan 0 false ∧
          SteadyStep s t) hlife (fun _ _ _ hu huv => ⟨hu.1, hu.2.trans huv⟩) (.bind
          (Steady.coarse.modHart.scheduler fun _ _ h => Prog.guarantees_pure ⟨rfl, h⟩)) hrun).2
        exact .round rfl hb h
      | schedulerScan i found =>
        cases hx
        exact .scan rfl hs.idle (segment_lives (Q := ScanEnds s i found) hlife
          (fun _ _ _ => ScanEnds.steady) (schedulerScan_guarantees i found hs.idle) hrun).2
      | schedulerBack p =>
        cases hx
        refine .back rfl hplace (segment_lives (Q := BackEnds s p) hlife (fun a u v h huv => ?_)
          (schedulerBack_guarantees hplace hs.not_running) hrun).2
        exact ⟨huv.cproc.trans h.1, h.2.1, fun j => (h.2.2 j).trans (huv.slot j)⟩
      | _ => exact absurd ha id
    · obtain ⟨hsteps, hb⟩ := segment_lives (Q := Homeward) hproc (fun _ _ _ => Homeward.steady)
        (kernelCode_lives hs hx ha).guarantees hrun
      exact .process ha hsteps hb

theorem LegEnds.atPlace (h : LegEnds a s b t) (hplace : AtPlace a s)
    (ht : Reachable L image fails ⟨t, .ret b, []⟩) : AtPlace b t := by
  cases h with
  | rest hb h =>
    rw [hb]
    exact hplace.steady h
  | user h =>
    cases h with
    | compute regs pc hm => trivial
    | trap hi scause stval irq => trivial
  | process ha h hb => exact hb.atPlace
  | round ha hb h =>
    rw [hb]
    exact Nat.zero_le nproc
  | scan ha hidle h =>
    cases h with
    | skip hi _ _ hb _ =>
      rw [hb]
      exact hi
    | turn hi hp hst _ _ _ =>
      obtain ⟨kpt, -, hpre⟩ := ht.pre
      exact hpre.atPlace hp hst
    | wrap _ _ hb _ =>
      rw [hb]
      trivial
  | @back p ha hp h =>
    rw [h.2.1]
    exact p.isLt

theorem Reachable.atPlace (hs : Reachable L image fails ⟨s, .ret a, []⟩) : AtPlace a s := by
  obtain ⟨s₀, hboot, hrun⟩ := hs
  have hlegs := System.legs_of_micro (P := fun _ => True)
    (Relation.ReflTransGen.mono (fun _ _ h => ⟨h, trivial⟩) _ _ hrun)
  have hall : ∀ c : Label × K, Relation.ReflTransGen ((kernel L).LegFrom fun _ => True)
      (.scheduler, s₀) c → Reachable L image fails ⟨c.2, .ret c.1, []⟩ ∧ AtPlace c.1 c.2 := by
    intro c hc
    induction hc with
    | refl => exact ⟨⟨s₀, hboot, .refl⟩, trivial⟩
    | tail _ hleg ih =>
      obtain ⟨hreach, hplace⟩ := ih
      have hreach' := hreach.step hleg.1.micro
      exact ⟨hreach', (leg_ends hreach hplace hleg.1).atPlace hplace hreach'⟩
  exact (hall (a, s) hlegs).2

/-- **Every program of the kernel** follows the diagram. -/
theorem kernelCode_lifeStep (hs : Reachable L image fails ⟨s, .ret a, []⟩)
    (hx : kernelCode L a = some x) : x.Guarantees SteadyStep LifeStep (fun _ _ => True) s := by
  by_cases ha : a.IsScheduler
  · cases a with
    | scheduler =>
      cases hx
      exact Keeps.scheduler (.bind Steady.coarse.modHart fun _ => keeps_pure) fun _ _ _ => trivial
    | schedulerScan i found =>
      cases hx
      exact (schedulerScan_guarantees i found hs.idle).mono fun _ _ _ => trivial
    | schedulerBack p =>
      cases hx
      exact (schedulerBack_guarantees hs.atPlace hs.not_running).mono fun _ _ _ => trivial
    | _ => exact absurd ha id
  · exact (kernelCode_lives hs hx ha).guarantees.weaken (fun _ _ => WorkStep.lifeStep)
      fun _ _ _ => trivial

/-- **The life cycle of processes.** Every step of the running kernel, of processes, scheduler,
interrupt handlers and user programs, takes every process along an edge of the diagram, and changes
`cpus[0].proc` only by a dispatch or after the process has given up the CPU. -/
theorem process_life_cycle {d e : System.Config K Panic Label} (hd : Reachable L image fails d)
    (hstep : (kernel L).Micro d e) : LifeStep d.state e.state := by
  have hone : ∀ {d e : System.Config K Panic Label}, Reachable L image fails d →
      (kernel L).Micro d e → d.Follows SteadyStep LifeStep →
      LifeStep d.state e.state ∧ e.Follows SteadyStep LifeStep := by
    intro d e hd hstep hfollows
    refine hfollows.micro (M := kernel L) SteadyStep.refl SteadyStep.trans
      (fun _ _ h => h.workStep.lifeStep) (fun irq s => Steady.tolerant.irqDevices irq _ s.core)
      (fun s => Steady.refl s.core) (fun _ => (Steady.tolerant.kernelvec L).within)
      (fun _ _ _ _ h => UserStep.steady h) (fun a x hmain hirqs hx => ?_) hstep
    obtain ⟨s, main, irqs⟩ := d
    cases hmain
    cases hirqs
    exact kernelCode_lifeStep hd hx
  obtain ⟨s, hs, hrun⟩ := hd
  have hfollows : d.Follows SteadyStep LifeStep := by
    clear hstep
    induction hrun with
    | refl => exact ⟨by simp, trivial⟩
    | tail hrun hmicro ih => exact (hone ⟨s, hs, hrun⟩ hmicro ih).2
  exact (hone ⟨s, hs, hrun⟩ hstep hfollows).1

/-- **A dispatch**, step by step: the process gets the CPU with the last of them. -/
theorem Reachable.dispatch_micro {i : Slot} {found : Bool} {b : Label}
    (hs : Reachable L image fails ⟨s, .ret (.schedulerScan i found), []⟩)
    (hi : (s.core.procs i).state = .runnable) (hctx : (s.core.procs i).context = some b) :
    ∃ (d : System.Config K Panic Label) (t : K),
      Relation.ReflTransGen ((kernel L).MicroFrom fun s => s.core.cproc ≠ some i)
        ⟨s, .ret (.schedulerScan i found), []⟩ d ∧
      (kernel L).Micro d ⟨t, .ret b, []⟩ ∧ d.state.core = s.core ∧ t.core = s.core.dispatch i := by
  obtain ⟨h₀, sie, hμ, hidle⟩ := hs.scan
  have haway : s.core.cproc ≠ some i := by simp [hidle]
  have hacquire : Does L .solo h₀ (acquire (.proc i)) (.unlocked sie) s.core fun _ _ c' =>
    c' = s.core := Solo.acquire rfl
  obtain ⟨_, u, _, hrun, -, hcore⟩ := hacquire.run hμ rfl
  have hkeeps : (acquire (.proc i)).Within fun s t : K =>
      s.core.cproc ≠ some i → t.core.cproc ≠ some i :=
    (Steady.coarse.acquire _).within.mono fun _ _ h hne => by rwa [h.cproc]
  have hcode : kernelCode L (.schedulerScan i found) = some (acquire (.proc i) >>= fun _ => do
      let pr ← getCore fun c => c.procs i
      if pr.state = .runnable then
        modCore fun c => c.dispatch i
        swtch pr.context
      else
        release (.proc i)
        return .schedulerScan (i + 1) found) := by
    show some (schedulerScan i found) = _
    rw [schedulerScan, dif_pos i.isLt]
    rfl
  obtain ⟨hpath, haway'⟩ := System.microFrom_bind (M := kernel L) hkeeps haway hrun
  -- the lock is taken and the state is read, and then the process is dispatched
  refine ⟨_, ⟨u.core.dispatch i, u.hart⟩, .head ⟨.jump hcode, haway⟩ (hpath.tail ⟨.main, haway'⟩),
    ?_, hcore, by rw [hcore]⟩
  rw [← hcore] at hi hctx
  show (kernel L).Micro ⟨u, if (u.core.procs i).state = .runnable then _ else _, []⟩ _
  rw [if_pos hi]
  show (kernel L).Micro ⟨u, modCore (Core.dispatch i) >>= fun _ => swtch (u.core.procs i).context,
    []⟩ _
  rw [hctx]
  exact .main

/-- A process that was asleep gets the CPU. -/
theorem process_life_cycle_virt : ∃ d e : System.Config K Panic Label,
    Reachable .virt shImage (fun _ => false) d ∧ (kernel .virt).Micro d e ∧
    (d.state.core.procs 0).state = .runnable ∧ (e.state.core.procs 0).state = .running ∧
    e.state.core.cproc = some 0 ∧ LifeStep d.state e.state := by
  obtain ⟨s, i, hs, -, -, -, hzero, -, b, hctx⟩ := exists_both_ready_virt
  obtain ⟨d, t, hpath, hstep, hcore, hcore'⟩ := hs.dispatch_micro (i := 0) hzero hctx
  have hd : Reachable .virt shImage (fun _ => false) d :=
    hs.step (Relation.ReflTransGen.mono (fun _ _ h => h.1) _ _ hpath)
  refine ⟨d, _, hd, hstep, by rw [hcore]; exact hzero, ?_, ?_, process_life_cycle hd hstep⟩
  · show (t.core.procs 0).state = _
    rw [hcore', Core.dispatch_self]
  · show t.core.cproc = _
    rw [hcore']
    rfl

end Machine

end OsKernel
