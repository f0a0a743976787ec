import OsKernel.Boot.Main
import OsKernel.Run.Coarse

/-!
# What becomes of a zombie

A process that has terminated keeps its slot until its parent has waited for it. Many functions of
the kernel assign to `p->state`, in critical sections of their own and in interrupt handlers, so
this is shown for the single steps of the machine: whatever step is taken, by whatever program,
a zombie is a zombie after it, or its slot is unused and the running process is its parent, inside
a call of `kwait` that has picked it.

Most programs leave zombies and parents alone wherever they are started, `Calm`. Those that assign
a state to a slot know from what they have read that no zombie is in it.
-/

namespace OsKernel

variable {L : Layout} {c c' c'' : Core} {s t : K} {i j p : Slot} {α β : Type}

/-! ### Steps that leave zombies alone -/

/-- The event changes no parent and ends no wait. -/
def Event.Calm : Event → Prop
  | .parentSet _ _ _ | .waitRet _ _ => False
  | _ => True

theorem Event.Calm.parent {e : Event} (h : e.Calm) (l : List Event) (i : Slot) :
    (history (e :: l) i).parent = (history l i).parent := by
  have hupdate : ∀ {H : Slot → History} {j : Slot} {x : History}, x.parent = (H j).parent →
      ∀ k, (Function.update H j x k).parent = (H k).parent := by
    intro H j x hx k
    by_cases hkj : k = j
    · rw [hkj, Function.update_self, hx]
    · rw [Function.update_of_ne hkj]
  cases e with
  | parentSet a child par => exact absurd h id
  | waitRet j v => exact absurd h id
  | freed a j =>
    show (disturb a (history l) i).parent = _
    rw [disturb]
    split_ifs <;> rfl
  | exited j pid status => rfl
  | reaped j child pid addr stored => exact (hupdate (by rfl) i).trans (hupdate (by rfl) i)
  | resume j regs pc => rfl
  | arrived x => rfl
  | echoed x => rfl
  | lost j x => rfl
  | readRet j v => rfl
  | _ => exact hupdate (by rfl) i

/-- The same processes are zombies, with the same parents, and no wait has ended. -/
structure Calm (c c' : Core) : Prop where
  cproc : c'.cproc = c.cproc
  zombie : ∀ i, (c'.procs i).state = .zombie ↔ (c.procs i).state = .zombie
  parent : ∀ i, (c'.procs i).parent = (c.procs i).parent
  log : ∃ l, c'.log = l ++ c.log ∧ ∀ e ∈ l, e.Calm

namespace Calm

/-- Nothing of this has changed. -/
theorem of_eq (hcproc : c'.cproc = c.cproc) (hprocs : c'.procs = c.procs) (hlog : c'.log = c.log) :
    Calm c c' := ⟨hcproc, fun i => by rw [hprocs], fun i => by rw [hprocs], [], hlog, by simp⟩

theorem refl (c : Core) : Calm c c := of_eq rfl rfl rfl

theorem trans (h : Calm c c') (h' : Calm c' c'') : Calm c c'' := by
  obtain ⟨l, hl, hcalm⟩ := h.log
  obtain ⟨l', hl', hcalm'⟩ := h'.log
  refine ⟨h'.cproc.trans h.cproc, fun i => (h'.zombie i).trans (h.zombie i),
    fun i => (h'.parent i).trans (h.parent i), l' ++ l, by rw [hl', hl, List.append_assoc], ?_⟩
  intro e he
  rcases List.mem_append.mp he with he | he
  · exact hcalm' e he
  · exact hcalm e he

theorem setProc (c : Core) (i : Slot) {f : Proc → Proc}
    (hzombie : (f (c.procs i)).state = .zombie ↔ (c.procs i).state = .zombie)
    (hparent : (f (c.procs i)).parent = (c.procs i).parent) : Calm c (c.setProc i f) := by
  refine ⟨rfl, ?_, ?_, [], rfl, by simp⟩
  · exact Core.forall_setProc (P := fun j pr => pr.state = .zombie ↔ (c.procs j).state = .zombie)
      hzombie fun _ _ => Iff.rfl
  · exact Core.forall_setProc (P := fun j pr => pr.parent = (c.procs j).parent) hparent
      fun _ _ => rfl

theorem emit (c : Core) {e : Event} (he : e.Calm) : Calm c (c.emit e) :=
  ⟨rfl, fun _ => Iff.rfl, fun _ => rfl, [e], rfl, by simpa using he⟩

theorem hist (h : Calm c c') (i : Slot) : (c'.hist i).parent = (c.hist i).parent := by
  obtain ⟨l, hl, hcalm⟩ := h.log
  rw [Core.hist, Core.hist, hl]
  clear hl
  induction l with
  | nil => rfl
  | cons e l ih =>
    rw [List.forall_mem_cons] at hcalm
    exact (hcalm.1.parent _ i).trans (ih hcalm.2)

end Calm

/-- The step leaves zombies alone. -/
def CalmStep (s t : K) : Prop := Calm s.core t.core

theorem CalmStep.refl (s : K) : CalmStep s s := Calm.refl _

theorem CalmStep.trans {u : K} (h : CalmStep s t) (h' : CalmStep t u) : CalmStep s u :=
  Calm.trans h h'

/-! ### Steps that a zombie can take part in -/

/-- The process `p` is in a call of `kwait` that has picked `i`, a child of `p`. -/
def Core.Reaping (p i : Slot) (c : Core) : Prop :=
  ∃ l pid addr stored l₀, c.log = l ++ .reaped p i pid addr stored :: l₀ ∧
    (history l₀ i).parent = some p ∧ ∀ v, .waitRet p v ∉ l

/-- A zombie stays one, or its parent is reaping it and the slot is now unused. -/
def ZombieStep (s t : K) : Prop :=
  ∀ i, (s.core.procs i).state = .zombie → (t.core.procs i).state = .zombie ∨
    (t.core.procs i).state = .unused ∧ ∃ p, s.core.cproc = some p ∧ s.core.Reaping p i

theorem CalmStep.zombieStep (h : CalmStep s t) : ZombieStep s t :=
  fun i hi => .inl ((h.zombie i).mpr hi)

theorem ZombieStep.refl (s : K) : ZombieStep s s := fun _ hi => .inl hi

/-- An assignment to a slot without a zombie. -/
theorem ZombieStep.of_ne (h : ∀ j, j ≠ i → (t.core.procs j).state = (s.core.procs j).state)
    (hi : (s.core.procs i).state ≠ .zombie) : ZombieStep s t := by
  intro j hj
  by_cases hji : j = i
  · exact absurd (hji ▸ hj) hi
  · exact .inl ((h j hji).trans hj)

/-! ### Programs that leave zombies alone -/

theorem Event.Plain.calm {e : Event} (h : e.Plain) : e.Calm := by
  cases e with
  | parentSet a i par => exact absurd h id
  | waitRet i v => exact absurd h id
  | _ => trivial

theorem Proc.Undisturbed.zombie_iff {pr pr' : Proc} (h : pr.Undisturbed pr') :
    pr'.state = .zombie ↔ pr.state = .zombie :=
  ⟨fun hz => h.reflects hz (by decide), fun hz => h.keeps hz (by decide)⟩

theorem Calm.coarse : Coarse Event.Calm Calm where
  trans := Calm.trans
  data h := .of_eq h.cproc h.procs h.log
  plain := Event.Plain.calm
  emit c _ he := .emit c he
  echo _ x := ⟨rfl, fun _ => Iff.rfl, fun _ => rfl, [.echoed x], rfl, List.forall_mem_singleton.mpr
    trivial⟩
  proc c i _ h _ hpar := .setProc c i h.zombie_iff hpar
  parent _ _ _ h := absurd (h none) id

theorem Calm.tolerant : Tolerant Event.Calm Calm where
  toCoarse := Calm.coarse
  arrived _ := trivial
  devices _ _ _ _ := .of_eq rfl rfl rfl

theorem Calm.loose : Loose Event.Calm Calm where
  toCoarse := Calm.coarse
  vm _ _ := .of_eq rfl rfl rfl
  space c i _ h hpar := .setProc c i h.zombie_iff hpar

theorem calms_setProc (i : Slot) {g : Proc → Proc}
    (hzombie : ∀ pr, (g pr).state = .zombie ↔ pr.state = .zombie)
    (hparent : ∀ pr, (g pr).parent = pr.parent) : Keeps Calm (modCore fun c => c.setProc i g) :=
  keeps_modCore fun c => .setProc c i (hzombie _) (hparent _)

theorem calms_sched (back : Bool → Label) : Keeps Calm (sched back) :=
  Calm.coarse.sched (fun c p _ => .setProc c p Iff.rfl rfl) back

/-! ### Programs that know where no zombie is -/

/-- Started in `s`, the program takes zombies apart only where their parent reaps them, and returns
with `Q`. -/
structure Guards (x : KernelM α) (Q : α → K → Prop) (s : K) : Prop where
  guarantees : x.Guarantees CalmStep ZombieStep Q s

section Guards

variable {x y : KernelM α} {f : α → KernelM β} {Q Q' : α → K → Prop} {P : β → K → Prop}

theorem Guards.mono (h : Guards x Q s) (hQ : ∀ a t, Q a t → Q' a t) : Guards x Q' s :=
  ⟨h.guarantees.mono hQ⟩

theorem Guards.bind (h : Guards x (fun a t => Guards (f a) P t) s) : Guards (x >>= f) P s :=
  ⟨.bind (h.guarantees.mono fun _ _ h => h.guarantees)⟩

theorem guards_pure {a : α} (h : Q a s) : Guards (pure a : KernelM α) Q s :=
  ⟨Prog.guarantees_pure h⟩

theorem guards_kpanic {e : Panic} : Guards (kpanic e : KernelM α) Q s := ⟨Prog.guarantees_panic⟩

theorem guards_ite {q : Prop} {_ : Decidable q} (hx : q → Guards x Q s) (hy : ¬q → Guards y Q s) :
    Guards (if q then x else y) Q s :=
  ⟨Prog.guarantees_ite (fun h => (hx h).guarantees) fun h => (hy h).guarantees⟩

/-- A program that leaves zombies alone. -/
theorem Keeps.guards (hx : Keeps Calm x) (h : ∀ a t, CalmStep s t → Q a t) : Guards x Q s :=
  ⟨hx.within.guarantees CalmStep.refl CalmStep.trans (fun _ _ => CalmStep.zombieStep) h⟩

theorem Keeps.guards_bind (hx : Keeps Calm x) (hf : ∀ a t, CalmStep s t → Guards (f a) P t) :
    Guards (x >>= f) P s := .bind (hx.guards hf)

theorem Keeps.guards_true (hx : Keeps Calm x) : Guards x (fun _ _ => True) s :=
  hx.guards fun _ _ _ => trivial

theorem guards_getCore {g : Core → α} (h : ∀ t, CalmStep s t → Q (g t.core) t) :
    Guards (getCore g) Q s := ⟨Prog.guarantees_read ZombieStep.refl h⟩

theorem guards_modCore {g : Core → Core} {Q : Unit → K → Prop}
    (h : ∀ t, CalmStep s t → ZombieStep t { t with core := g t.core } ∧
      Q () { t with core := g t.core }) : Guards (modCore g) Q s := ⟨Prog.guarantees_update h⟩

theorem guards_myproc {Q : Option Slot → K → Prop} (h : ∀ t, CalmStep s t → Q s.core.cproc t) :
    Guards myproc Q s := by
  refine Calm.coarse.pushOff.guards_bind fun _ t ht => .bind (guards_getCore fun u hu => ?_)
  rw [show u.core.cproc = s.core.cproc from (ht.trans hu).cproc]
  exact Calm.coarse.popOff.guards_bind fun _ v hv => guards_pure (h v ((ht.trans hu).trans hv))

theorem guards_myproc_bind {k : Slot → KernelM α}
    (h : ∀ p t, s.core.cproc = some p → CalmStep s t → Guards (k p) Q t) : Guards (do
      let p ← myproc
      let p ← deref p
      k p) Q s := by
  refine .bind (guards_myproc fun t ht => ?_)
  cases hp : s.core.cproc with
  | none => exact .bind guards_kpanic
  | some p => exact .bind (guards_pure (h p t hp ht))

/-- A change of one process that is no zombie. -/
theorem guards_setProc {g : Proc → Proc} {Q : Unit → K → Prop}
    (hi : (s.core.procs i).state ≠ .zombie)
    (h : ∀ t : K, (t.core.procs i).state ≠ .zombie → Q () { t with core := t.core.setProc i g }) :
    Guards (modCore fun c => c.setProc i g) Q s := by
  refine guards_modCore fun t ht => ?_
  have hi' : (t.core.procs i).state ≠ .zombie := fun hz => hi ((ht.zombie i).mp hz)
  exact ⟨.of_ne (i := i) (fun j hj => congrArg Proc.state (t.core.setProc_ne g hj)) hi', h t hi'⟩

/-- An event, whatever it is. -/
theorem guards_emit {e : Core → Event} {Q : Unit → K → Prop}
    (h : ∀ t, CalmStep s t → Q () { t with core := t.core.emit (e t.core) }) :
    Guards (modCore fun c => c.emit (e c)) Q s :=
  guards_modCore fun t ht => ⟨fun _ hi => .inl hi, h t ht⟩

theorem zombieStep_setParent (s : K) (i : Slot) (par : Option Slot) :
    ZombieStep s { s with core := s.core.setParent i par } := by
  intro j hj
  by_cases hji : j = i
  · subst hji
    exact .inl ((congrArg Proc.state (s.core.setParent_self j par)).trans hj)
  · exact .inl ((congrArg Proc.state (s.core.setParent_ne par hji)).trans hj)

end Guards

/-! ### `sleep` and the scheduler -/

/-- The running process is no zombie. -/
def Core.Alive (c : Core) : Prop := ∀ p, c.cproc = some p → (c.procs p).state ≠ .zombie

theorem guards_sleep (k : Resume) (h : s.core.Alive) : Guards (sleep k) (fun _ _ => True) s := by
  refine guards_myproc_bind fun p t hp ht => ?_
  refine (Calm.coarse.observePause p).guards_bind fun _ u hu => ?_
  refine (Calm.coarse.acquire _).guards_bind fun _ v hv => ?_
  refine .bind (guards_getCore fun w hw => ?_)
  have hcalm := ((ht.trans hu).trans hv).trans hw
  have hp' : (w.core.procs p).state ≠ .zombie := fun hz => h p hp ((hcalm.zombie p).mp hz)
  refine guards_ite (fun _ => ?_) fun _ => Keeps.guards_true ?_
  · exact .bind (guards_setProc hp' fun _ _ => (calms_sched _).guards_true)
  · refine .bind (Calm.coarse.release _) fun _ => ?_
    exact .bind (Calm.coarse.observeBack p) fun _ => keeps_pure

theorem guards_schedulerScan (i : ℕ) (found : Bool) :
    Guards (schedulerScan i found) (fun _ _ => True) s := by
  rw [schedulerScan]
  split_ifs with hi
  · refine (Calm.coarse.acquire _).guards_bind fun _ t _ => ?_
    refine .bind (guards_getCore fun u _ => ?_)
    refine guards_ite (fun hrun => .bind (guards_modCore fun v hv => ⟨?_, ?_⟩)) fun _ => ?_
    · refine .of_ne (i := ⟨i, hi⟩) (fun j hj => ?_) fun hz => ?_
      · exact congrArg Proc.state (v.core.setProc_ne (fun pr => { pr with state := .running }) hj)
      · have := (hv.zombie _).mp hz
        rw [hrun] at this
        cases this
    · exact (keeps_swtch _).guards_true
    · exact Keeps.guards_true (.bind (Calm.coarse.release _) fun _ => keeps_pure)
  · exact guards_pure trivial

theorem guards_schedulerBack (p : Slot) : Guards (schedulerBack p) (fun _ _ => True) s :=
  .bind (guards_modCore fun _ _ => ⟨fun _ hi => .inl hi,
    Keeps.guards_true (.bind (Calm.coarse.release _) fun _ => keeps_pure)⟩)

/-! ### Exit -/

theorem guards_reparent (p : Slot) : Guards (reparent p) (fun _ _ => True) s := by
  have hloop : ∀ ps s, Guards (reparentLoop p ps) (fun _ _ => True) s := by
    intro ps
    induction ps with
    | nil => exact fun _ => guards_pure trivial
    | cons q ps ih =>
      intro s
      refine .bind (guards_getCore fun t _ => guards_ite (fun _ => ?_) fun _ => ih t)
      refine Calm.coarse.getCore.guards_bind fun par u _ => ?_
      refine .bind (guards_modCore fun v _ => ⟨zombieStep_setParent v q par, ?_⟩)
      exact (Calm.coarse.wakeup _).guards_bind fun _ w _ => ih w
  exact hloop slots s

theorem guards_kexit (status : BitVec 32) : Guards (kexit status) (fun _ _ => True) s := by
  refine guards_myproc_bind fun p t _ _ => ?_
  refine .bind (guards_getCore fun u _ => guards_ite (fun _ => guards_kpanic) fun _ => ?_)
  refine (Calm.coarse.acquire _).guards_bind fun _ v _ => ?_
  refine .bind ((guards_reparent p).mono fun _ w _ => ?_)
  refine Calm.coarse.getCore.guards_bind fun parent _ _ => ?_
  refine (Calm.coarse.wakeup _).guards_bind fun _ _ _ => ?_
  refine (Calm.coarse.acquire _).guards_bind fun _ _ _ => ?_
  refine .bind (guards_modCore fun v _ => ⟨?_, ?_⟩)
  · -- the only process that changes becomes a zombie
    have hall := Core.forall_setProc (c := v.core) (i := p)
      (f := fun pr => { pr with xstate := status, state := .zombie })
      (P := fun j pr => (v.core.procs j).state = .zombie → pr.state = .zombie) (fun _ => rfl)
      fun _ _ => id
    exact fun i hi => .inl (hall i hi)
  · exact Keeps.guards_true (.bind (Calm.coarse.release _) fun _ => calms_sched _)

/-! ### Fork -/

theorem guards_freeproc (hi : (s.core.procs i).state ≠ .zombie) :
    Guards (coreAtomic (freeproc L i)) (fun _ _ => True) s := by
  refine ⟨Prog.guarantees_atomic ZombieStep.refl fun t ht a u hx => ⟨?_, trivial⟩⟩
  obtain ⟨c', hc, rfl⟩ := PanicM.zoom_eq_ok_iff.mp hx
  obtain ⟨v, rfl⟩ := freeproc_eq_ok hc
  refine .of_ne (i := i) (fun j hj => ?_) fun hz => hi ((ht.zombie i).mp hz)
  exact congrArg Proc.state (t.core.freed_ne v hj)

theorem guards_allocprocFound (hi : (s.core.procs i).state ≠ .zombie) :
    Guards (allocprocFound L i) (fun r t => ∀ j, r = some j → (t.core.procs j).state ≠ .zombie)
      s := by
  have hnone : ∀ {t : K}, (t.core.procs i).state ≠ .zombie → Guards (do
      coreAtomic (freeproc L i)
      release (.proc i)
      return none : KernelM (Option Slot))
      (fun r t => ∀ j, r = some j → (t.core.procs j).state ≠ .zombie) t := fun ht =>
    .bind ((guards_freeproc ht).mono fun _ _ _ => (Calm.coarse.release _).guards_bind fun _ _ _ =>
      guards_pure nofun)
  have hkept : ∀ {t u : K}, (t.core.procs i).state ≠ .zombie → CalmStep t u →
      (u.core.procs i).state ≠ .zombie := fun ht hu hz => ht ((hu.zombie i).mp hz)
  refine Calm.coarse.allocpid.guards_bind fun pid t ht =>
    .bind (guards_setProc (hkept hi ht) fun u _ => ?_)
  have hused :
      (((u.core.setProc i fun pr => { pr with pid := pid, state := .used }).procs i).state) ≠
      .zombie := by
    rw [Core.setProc_self]
    exact (by decide : ProcState.used ≠ .zombie)
  refine (Calm.loose.vmAtomic _).guards_bind fun tf v hv => ?_
  refine Keeps.guards_bind (by exact calms_setProc i (fun _ => Iff.rfl) fun _ => rfl)
    fun _ w hw => ?_
  have hw' := hkept hused (hv.trans hw)
  refine guards_ite (fun _ => hnone hw') fun _ => ?_
  refine (Calm.loose.vmAtomic _).guards_bind fun pt x hx => ?_
  refine Keeps.guards_bind (by exact calms_setProc i (fun _ => Iff.rfl) fun _ => rfl)
    fun _ y hy => ?_
  have hy' := hkept hw' (hx.trans hy)
  refine guards_ite (fun _ => hnone hy') fun _ => ?_
  refine Keeps.guards_bind (by exact calms_setProc i (fun _ => Iff.rfl) fun _ => rfl)
    fun _ z hz => ?_
  refine guards_pure fun j hj => ?_
  obtain rfl := Option.some.inj hj
  exact hkept hy' hz

theorem guards_allocproc :
    Guards (allocproc L) (fun r t => ∀ j, r = some j → (t.core.procs j).state ≠ .zombie) s := by
  have hloop : ∀ ps s, Guards (allocprocScan L ps)
      (fun r t => ∀ j, r = some j → (t.core.procs j).state ≠ .zombie) s := by
    intro ps
    induction ps with
    | nil => exact fun _ => guards_pure nofun
    | cons q ps ih =>
      intro s
      refine (Calm.coarse.acquire _).guards_bind fun _ t _ => ?_
      refine .bind (guards_getCore fun u _ => ?_)
      refine guards_ite (fun hu => guards_allocprocFound ?_) fun _ =>
        (Calm.coarse.release _).guards_bind fun _ v _ => ih v
      rw [hu]
      decide
  exact hloop slots s

theorem guards_kfork : Guards (kfork L) (fun _ _ => True) s := by
  refine guards_myproc_bind fun p t _ _ => ?_
  refine .bind (guards_allocproc.mono fun np u hnp => ?_)
  cases np with
  | none => exact guards_pure trivial
  | some np =>
    replace hnp := hnp np rfl
    have hkept : ∀ {t u : K}, (t.core.procs np).state ≠ .zombie → CalmStep t u →
        (u.core.procs np).state ≠ .zombie := fun ht hu hz => ht ((hu.zombie np).mp hz)
    refine Calm.coarse.getCore.guards_bind fun _ v hv => ?_
    refine Calm.coarse.getCore.guards_bind fun _ w hw => ?_
    refine (Calm.loose.vmAtomic _).guards_bind fun ok x hx => ?_
    have hx' := hkept hnp ((hv.trans hw).trans hx)
    refine guards_ite (fun _ => ?_) fun _ => ?_
    · -- no memory for the copy
      refine .bind ((guards_freeproc hx').mono fun _ _ _ => Keeps.guards_true ?_)
      exact .bind (Calm.coarse.release _) fun _ => keeps_pure
    refine (keeps_modCore fun c => Calm.loose.forkCopy c p np).guards_bind fun _ y hy => ?_
    refine Calm.coarse.getCore.guards_bind fun pid z hz => ?_
    refine (Calm.coarse.release _).guards_bind fun _ y₁ hy₁ => ?_
    refine (Calm.coarse.acquire _).guards_bind fun _ y₂ hy₂ => ?_
    refine .bind (guards_modCore fun y₃ hy₃ => ⟨zombieStep_setParent y₃ np (some p), ?_⟩)
    have hlinked : ((y₃.core.setParent np (some p)).procs np).state ≠ .zombie := by
      rw [Core.setParent_self]
      exact hkept hx' ((((hy.trans hz).trans hy₁).trans hy₂).trans hy₃)
    refine (Calm.coarse.release _).guards_bind fun _ y₄ hy₄ => ?_
    refine (Calm.coarse.acquire _).guards_bind fun _ y₅ hy₅ => ?_
    refine .bind (guards_setProc (hkept hlinked (hy₄.trans hy₅)) fun _ _ => ?_)
    exact Keeps.guards_true (.bind (Calm.coarse.release _) fun _ => keeps_pure)

/-! ### Wait -/

theorem Core.Reaping.calm (h : c.Reaping p i) (hc : Calm c c') : c'.Reaping p i := by
  obtain ⟨l, pid, addr, stored, l₀, hlog, hpar, hno⟩ := h
  obtain ⟨l', hlog', hcalm⟩ := hc.log
  refine ⟨l' ++ l, pid, addr, stored, l₀, by rw [hlog', hlog, List.append_assoc], hpar, ?_⟩
  intro v hv
  rcases List.mem_append.mp hv with hv | hv
  · exact hcalm _ hv
  · exact hno v hv

/-- `freeproc` by the parent that is reaping the zombie. -/
theorem guards_freeproc_reaping (hp : s.core.cproc = some p) (h : s.core.Reaping p i) :
    Guards (coreAtomic (freeproc L i)) (fun _ _ => True) s := by
  refine ⟨Prog.guarantees_atomic ZombieStep.refl fun t ht a u hx => ⟨?_, trivial⟩⟩
  obtain ⟨c', hc, rfl⟩ := PanicM.zoom_eq_ok_iff.mp hx
  obtain ⟨v, rfl⟩ := freeproc_eq_ok hc
  intro j hj
  by_cases hji : j = i
  · subst hji
    refine .inr ⟨congrArg Proc.state (t.core.freed_self j v), p, ht.cproc.trans hp, h.calm ht⟩
  · exact .inl ((congrArg Proc.state (t.core.freed_ne v hji)).trans hj)

/-- The log tells who the parents are. -/
def Core.Recorded (c : Core) : Prop := ∀ i, (c.hist i).parent = (c.procs i).parent

theorem Core.Recorded.calm (h : c.Recorded) (hc : Calm c c') : c'.Recorded := fun i => by
  rw [hc.hist, hc.parent, h i]

/-- **The scan of `kwait`** frees only what it reaps. -/
theorem guards_kwaitScan (addr : ℕ) : ∀ (ps : List Slot) (havekids : Bool) {s : K},
    s.core.cproc = some p → s.core.Recorded →
      Guards (kwaitScan L p addr ps havekids) (fun r t => ∀ b, r = .ok b → CalmStep s t) s := by
  intro ps
  induction ps with
  | nil => exact fun havekids s _ _ => guards_pure fun _ _ => .refl s
  | cons q ps ih =>
    intro havekids s hp hrec
    have hgo : ∀ (kids : Bool) {t : K}, CalmStep s t →
        Guards (kwaitScan L p addr ps kids) (fun r t => ∀ b, r = .ok b → CalmStep s t) t :=
      fun kids t ht => (ih kids (ht.cproc.trans hp) (hrec.calm ht)).mono fun r u hu b hb =>
        ht.trans (hu b hb)
    refine .bind (guards_getCore fun t ht => guards_ite (fun hpar => ?_) fun _ => hgo _ ht)
    refine (Calm.coarse.acquire _).guards_bind fun _ u hu => ?_
    refine .bind (guards_getCore fun v hv => guards_ite (fun hzombie => ?_) fun _ => ?_)
    swap
    · refine (Calm.coarse.release _).guards_bind fun _ w hw => ?_
      exact hgo _ (((ht.trans hu).trans hv).trans hw)
    refine Calm.coarse.getCore.guards_bind fun pid w₁ hw₁ => ?_
    refine Calm.coarse.getCore.guards_bind fun pt w₂ hw₂ => ?_
    refine Calm.coarse.getCore.guards_bind fun xstate w₃ hw₃ => ?_
    refine (Calm.loose.vmAtomic _).guards_bind fun ok w₄ hw₄ => ?_
    have hlast : ∀ (w : BitVec 32) {t : K}, Guards (do
        modCore fun c => c.emit (.waitRet p w)
        release (.proc q)
        release .wait
        return .error w : KernelM (Except (BitVec 32) Bool))
        (fun r t => ∀ b, r = .ok b → CalmStep s t) t := by
      refine fun w t => .bind (guards_emit fun _ _ => ?_)
      refine (Calm.coarse.release _).guards_bind fun _ _ _ => ?_
      exact (Calm.coarse.release _).guards_bind fun _ _ _ => guards_pure nofun
    refine guards_ite (fun _ => hlast _) fun _ => .bind (guards_emit fun x hx => ?_)
    -- the child is picked here
    have hcalm := (((((hu.trans hv).trans hw₁).trans hw₂).trans hw₃).trans hw₄).trans hx
    have hparent : (x.core.hist q).parent = some p := by
      rw [(hrec.calm (ht.trans hcalm)) q, hcalm.parent q]
      exact hpar
    have hxp : x.core.cproc = some p := (ht.trans hcalm).cproc.trans hp
    refine .bind (guards_modCore fun y hy => ⟨zombieStep_setParent y q none, ?_⟩)
    obtain ⟨l, hlog, hl⟩ := hy.log
    have hreap : (y.core.setParent q none).Reaping p q := by
      refine ⟨.parentSet y.core.cproc q none :: l, pid, addr, x.core.userWord p addr, x.core.log,
        congrArg (List.cons _) hlog, hparent, fun w hw => ?_⟩
      rcases List.mem_cons.mp hw with hw | hw
      · cases hw
      · exact hl _ hw
    refine .bind ((guards_freeproc_reaping (p := p) ?_ hreap).mono fun _ _ _ => hlast pid)
    exact hy.cproc.trans hxp

theorem guards_kwaitRound (addr : ℕ) (hp : s.core.cproc = some p) (hrec : s.core.Recorded)
    (halive : s.core.Alive) : Guards (kwaitRound L p addr) (fun _ _ => True) s := by
  refine .bind ((guards_kwaitScan addr slots false hp hrec).mono fun r t ht => ?_)
  cases r with
  | error v => exact guards_pure trivial
  | ok havekids =>
    replace ht := ht havekids rfl
    have hgo : ∀ (stop : Bool) {u : K}, CalmStep t u → Guards (if stop then do
        modCore fun c => c.emit (.waitRet p (-1))
        release .wait
        return .sysret p ((-1 : BitVec 32).signExtend 64)
      else do
        sleepPrepare (.proc p)
        release .wait
        sleep (.kwait addr) : KernelM Label) (fun _ _ => True) u := by
      intro stop u hu
      refine guards_ite (fun _ => .bind (guards_emit fun _ _ => Keeps.guards_true ?_)) fun _ => ?_
      · exact .bind (Calm.coarse.release _) fun _ => keeps_pure
      refine (Calm.coarse.sleepPrepare _).guards_bind fun _ v hv => ?_
      refine (Calm.coarse.release _).guards_bind fun _ w hw => guards_sleep _ fun q hq hz => ?_
      have hcalm := ((ht.trans hu).trans hv).trans hw
      exact halive q (hcalm.cproc.symm.trans hq) ((hcalm.zombie q).mp hz)
    cases havekids with
    | false => exact hgo true (.refl t)
    | true => exact (Calm.coarse.killed p).guards_bind fun stop u hu => hgo stop hu

theorem guards_consolereadWaitRound (dst : ℕ) (n target : BitVec 32) (halive : s.core.Alive) :
    Guards (consolereadWaitRound L p dst n target) (fun _ _ => True) s := by
  refine .bind (guards_getCore fun t ht => guards_ite (fun _ => ?_) fun _ => Keeps.guards_true ?_)
  · refine guards_myproc_bind fun q u _ hu => ?_
    refine (Calm.coarse.killed q).guards_bind fun _ v hv => ?_
    refine guards_ite (fun _ => (Calm.coarse.consolereadDone ..).guards_true) fun _ => ?_
    refine (Calm.coarse.sleepPrepare _).guards_bind fun _ w hw => ?_
    refine (Calm.coarse.release _).guards_bind fun _ x hx => guards_sleep _ fun q hq hz => ?_
    have hcalm := (((ht.trans hu).trans hv).trans hw).trans hx
    exact halive q (hcalm.cproc.symm.trans hq) ((hcalm.zombie q).mp hz)
  · exact Calm.loose.consolereadTake ..

/-! ### The kernel -/

theorem guards_syscall : Guards (syscall L) (fun _ _ => True) s := by
  refine guards_myproc_bind fun p t _ _ => ?_
  refine Calm.coarse.getCore.guards_bind fun a7 u _ => ?_
  refine guards_ite (fun _ => ?fork) fun _ => guards_ite (fun _ => ?exit) fun _ => ?_
  case fork => exact .bind (guards_kfork.mono fun _ _ _ => guards_pure trivial)
  case exit => exact (Calm.coarse.argraw _).guards_bind fun _ _ _ => guards_kexit _
  -- the other calls do not touch a zombie
  refine Keeps.guards_true (keeps_ite ?wait (keeps_ite ?read (keeps_ite ?exec (keeps_ite ?getpid
    (keeps_ite ?write keeps_pure)))))
  case wait => exact Calm.coarse.sysWait
  case read => exact Calm.coarse.sysRead p
  case exec => exact .bind Calm.loose.sysExec fun _ => keeps_pure
  case getpid => exact .bind Calm.coarse.sysGetpid fun _ => keeps_pure
  case write => exact Calm.coarse.sysWrite p

theorem guards_usertrap : Guards (usertrap L) (fun _ _ => True) s := by
  refine Calm.coarse.getHart.guards_bind fun spp _ _ => ?_
  refine guards_ite (fun _ => guards_kpanic) fun _ => ?_
  refine Calm.coarse.modHart.guards_bind fun _ _ _ => ?_
  refine guards_myproc_bind fun p _ _ _ => ?_
  refine Calm.coarse.getHart.guards_bind fun sepc _ _ => ?_
  refine (Calm.loose.tfStore _ _ _).guards_bind fun _ _ _ => ?_
  refine Calm.coarse.getHart.guards_bind fun scause _ _ => guards_ite (fun _ => ?_) fun _ => ?_
  · refine (Calm.loose.tfStore _ _ _).guards_bind fun _ _ _ => ?_
    exact Calm.coarse.modHart.guards_bind fun _ _ _ => guards_syscall
  · refine (Calm.tolerant.devintr L).guards_bind fun _ _ _ => ?_
    refine Keeps.guards_true (keeps_ite keeps_pure ?_)
    refine .bind Calm.coarse.getHart fun _ => .bind Calm.coarse.getCore fun _ => ?_
    refine .bind (Calm.coarse.printf _ _) fun _ => .bind (Calm.coarse.printf _ _) fun _ => ?_
    exact .bind (Calm.coarse.setkilled p) fun _ => keeps_pure

/-- **Every program of the kernel** takes a zombie apart only where its parent reaps it. -/
theorem kernelCode_guards {image : Mem} {fails : ℕ → Bool} {a : Label} {x : KernelM Label}
    (hd : Reachable L image fails ⟨s, .ret a, []⟩) (hx : kernelCode L a = some x) :
    Guards x (fun _ _ => True) s := by
  obtain ⟨kpt, hinv, hpre⟩ := hd.pre
  -- what a process relies on that goes to sleep
  have halive : ∀ {S : Site} {p : Slot}, Good L S s.core → Working p s.core → s.core.Alive := by
    intro S p hg hw q hq hz
    rw [hg.state_running hq] at hz
    cases hz
  cases a with
  | kwait p addr =>
    cases hx
    obtain ⟨h₀, μ, -, -, -, hg, hw, -⟩ | htrap := hpre
    · exact guards_kwaitRound addr hw.cproc (fun i => (hg.slot i).parent) (halive hg hw)
    · exact absurd htrap id
  | consolereadWait p dst n target =>
    cases hx
    obtain ⟨h₀, μ, -, -, -, hg, hw, -⟩ | htrap := hpre
    · exact guards_consolereadWaitRound dst n target (halive hg hw)
    · exact absurd htrap id
  | scheduler =>
    cases hx
    exact Keeps.guards_true (.bind Calm.coarse.modHart fun _ => keeps_pure)
  | schedulerScan i found =>
    cases hx
    exact guards_schedulerScan i found
  | schedulerBack p =>
    cases hx
    exact guards_schedulerBack p
  | forkret =>
    cases hx
    exact Calm.loose.forkret.guards_true
  | sleepBack p ia k =>
    cases hx
    exact (Calm.coarse.sleepBack p ia k).guards_true
  | exitBack =>
    cases hx
    exact guards_kpanic
  | awake p k =>
    cases hx
    exact (Calm.coarse.awake p k).guards_true
  | consoleread p dst n target =>
    cases hx
    exact Keeps.guards_true (keeps_ite keeps_pure (Calm.coarse.consolereadDone ..))
  | consolewrite p src n i =>
    cases hx
    exact (Calm.loose.consolewriteRound p src n i).guards_true
  | sysret p v =>
    cases hx
    exact (Calm.loose.syscallReturn p v).guards_true
  | usertrapTail p =>
    cases hx
    exact (Calm.coarse.killed p).guards_bind fun _ t _ => guards_ite (fun _ => guards_kexit _)
      fun _ => (Calm.loose.leave p).guards_true
  | userret satp =>
    cases hx
    exact (Calm.loose.userretCode satp).guards_true
  | user => cases hx
  | vector =>
    cases hx
    exact Calm.loose.vector.guards_true
  | usertrap =>
    cases hx
    exact guards_usertrap

/-- User programs leave zombies alone. -/
theorem UserStep.calm {a b : Label} (h : UserStep (a, s) (b, t)) : CalmStep s t := by
  cases h with
  | compute regs pc hm => exact .of_eq rfl rfl rfl
  | trap hi scause stval irq =>
    exact (Calm.emit s.core (e := .trap ..) trivial).trans (Calm.tolerant.irqDevices irq scause _)

/-- **A zombie is reaped by its parent**: every step of the running kernel leaves it a zombie, or
empties its slot while its parent runs, in a call of `kwait` that has picked it. -/
theorem Reachable.zombieStep {image : Mem} {fails : ℕ → Bool} {d e : System.Config K Panic Label}
    (hd : Reachable L image fails d) (hstep : (kernel L).Micro d e) :
      ZombieStep d.state e.state := by
  have hone : ∀ {d e : System.Config K Panic Label}, Reachable L image fails d →
      (kernel L).Micro d e → d.Follows CalmStep ZombieStep →
      ZombieStep d.state e.state ∧ e.Follows CalmStep ZombieStep := by
    intro d e hd hstep hfollows
    refine hfollows.micro (M := kernel L) CalmStep.refl CalmStep.trans
      (fun _ _ => CalmStep.zombieStep)
      (fun irq s => Calm.tolerant.irqDevices irq _ s.core) (fun s => Calm.refl s.core)
      (fun _ => (Calm.tolerant.kernelvec L).within)
      (fun _ _ _ _ h => UserStep.calm h) (fun a x hmain hirqs hx => ?_) hstep
    obtain ⟨s, main, irqs⟩ := d
    cases hmain
    cases hirqs
    exact (kernelCode_guards hd hx).guarantees
  obtain ⟨s, hs, hrun⟩ := hd
  have hfollows : d.Follows CalmStep ZombieStep := by
    clear hstep
    induction hrun with
    | refl => exact ⟨by simp, trivial⟩
    | tail hrun hmicro ih => exact (hone ⟨s, hs, hrun⟩ hmicro ih).2
  exact (hone ⟨s, hs, hrun⟩ hstep hfollows).1

end OsKernel
