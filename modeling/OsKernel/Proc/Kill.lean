import OsKernel.Boot.Main

/-!
# `kkill`

`kkill` marks the first slot with a given pid. It does not look at the state of the slot, and unused
slots have pid 0, so `kkill(0)` marks an unused slot. Neither `allocproc` nor `kfork` resets
`killed`: the next process in that slot is born killed.

A table is *tidy* if its unused slots have pid 0 and are not marked. Forks, exits and waits keep it
tidy, and so does `kkill` of any other pid; in a tidy table `kkill` of such a pid finds live
processes only, and a new process is not killed.
-/

namespace OsKernel

variable {L : Layout} {s t : K} {c : Core} {i p : Slot} {pid : BitVec 32}

/-! ### Tidy tables -/

/-- The unused slots have no pid and are not marked as killed. -/
def Core.Tidy (c : Core) : Prop :=
  ∀ i, (c.procs i).state = .unused → (c.procs i).pid = 0 ∧ (c.procs i).killed = false

theorem Core.Tidy.setProc (h : c.Tidy) {f : Proc → Proc}
    (hf : (f (c.procs i)).state = .unused →
      (f (c.procs i)).pid = 0 ∧ (f (c.procs i)).killed = false) : (c.setProc i f).Tidy :=
  Core.forall_setProc (P := fun _ pr => pr.state = .unused → pr.pid = 0 ∧ pr.killed = false) hf
    fun j _ => h j

/-- An assignment to the fields of a slot that does not free it. -/
theorem Core.Tidy.assign (h : c.Tidy) {f : Proc → Proc}
    (hf : (f (c.procs i)).state = .unused → (c.procs i).state = .unused ∧
      (f (c.procs i)).pid = (c.procs i).pid ∧ (f (c.procs i)).killed = (c.procs i).killed) :
    (c.setProc i f).Tidy := by
  refine h.setProc fun hu => ?_
  obtain ⟨hun, hpid, hkilled⟩ := hf hu
  rw [hpid, hkilled]
  exact h i hun

/-- The program keeps a tidy table tidy. -/
abbrev KeepsTidy {α : Type} (x : KernelM α) : Prop := x.Maintains fun s => s.core.Tidy

section Keeps

variable {α β : Type} {x : KernelM α}

theorem keepsTidy_of_core (h : ∀ s, x.Post s fun _ t => t.core = s.core) : KeepsTidy x :=
  fun s hs => (h s).mono fun _ t ht => show t.core.Tidy by rwa [ht]

theorem keepsTidy_acquire (lk : Lock) : KeepsTidy (acquire lk) :=
  keepsTidy_of_core (acquire_post lk)

theorem keepsTidy_release (lk : Lock) : KeepsTidy (release lk) :=
  keepsTidy_of_core (release_post lk)

theorem keepsTidy_myproc_bind {k : Slot → KernelM α} (h : ∀ p, KeepsTidy (k p)) :
    KeepsTidy (do let q ← myproc; let q ← deref q; k q) := by
  refine .bind (keepsTidy_of_core fun s => (myproc_post s).mono fun _ _ ht => ht.2) fun q => ?_
  cases q with
  | none => exact Prog.maintains_panic
  | some p => exact h p

theorem keepsTidy_modCore {f : Core → Core} (h : ∀ c, c.Tidy → (f c).Tidy) :
    KeepsTidy (modCore f) :=
  Prog.maintains_update fun s => h s.core

theorem keepsTidy_setProc (p : Slot) {f : Proc → Proc} (hf : ∀ pr, (f pr).state = .unused →
    pr.state = .unused ∧ (f pr).pid = pr.pid ∧ (f pr).killed = pr.killed) :
    KeepsTidy (modCore fun c => c.setProc p f) :=
  keepsTidy_modCore fun _ h => h.assign (hf _)

theorem keepsTidy_vm (y : VmM α) : KeepsTidy (coreAtomic (liftVm y)) :=
  fun _ hs => vmAtomic_post fun _ _ _ => hs

end Keeps

/-! ### Exits -/

theorem keepsTidy_wakeup (chan : Option Chan) : KeepsTidy (wakeup chan) := by
  have hwake : ∀ pr : Proc, (pr.wake chan).state = .unused →
      pr.state = .unused ∧ (pr.wake chan).pid = pr.pid ∧ (pr.wake chan).killed = pr.killed := by
    intro pr hu
    rw [Proc.wake] at hu ⊢
    split_ifs at hu ⊢ with hchan
    · refine ⟨?_, rfl, rfl⟩
      by_cases hs : pr.state = .sleeping
      · simp [hs] at hu
      · simpa [hs] using hu
    · exact ⟨hu, rfl, rfl⟩
  have hloop : ∀ ps, KeepsTidy (wakeupLoop chan ps) := by
    intro ps
    induction ps with
    | nil => exact Prog.maintains_pure
    | cons q ps ih =>
      exact .bind (keepsTidy_acquire _) fun _ => .bind (keepsTidy_setProc q hwake) fun _ =>
        .bind (keepsTidy_release _) fun _ => ih
  exact hloop slots

theorem keepsTidy_setParent (i : Slot) (par : Option Slot) :
    KeepsTidy (modCore (Core.setParent i par)) :=
  keepsTidy_modCore fun _ h =>
    Core.Tidy.assign (f := fun pr => { pr with parent := par }) h fun hu => ⟨hu, rfl, rfl⟩

theorem keepsTidy_reparent (p : Slot) : KeepsTidy (reparent p) := by
  have hloop : ∀ ps, KeepsTidy (reparentLoop p ps) := by
    intro ps
    induction ps with
    | nil => exact Prog.maintains_pure
    | cons q ps ih =>
      exact .bind Prog.maintains_read fun _ => Prog.maintains_ite
        (.bind Prog.maintains_read fun _ =>
        .bind (keepsTidy_setParent q _) fun _ => .bind (keepsTidy_wakeup _) fun _ => ih) ih
  exact hloop slots

theorem keepsTidy_sched (back : Bool → Label) : KeepsTidy (sched back) := by
  intro s hs
  refine (sched_post back s).mono ?_
  rintro b t ⟨-, p, intena, -, ht⟩
  rw [ht]
  exact hs.assign fun hu => ⟨hu, rfl, rfl⟩

theorem keepsTidy_kexit (status : BitVec 32) : KeepsTidy (kexit status) := by
  have hzombie : ∀ p, KeepsTidy (modCore fun c =>
      (c.setProc p fun pr => { pr with xstate := status, state := .zombie }).emit
        (.exited p (c.procs p).pid status)) := by
    refine fun p => keepsTidy_modCore fun c h => ?_
    exact Core.Tidy.assign (f := fun pr => { pr with xstate := status, state := .zombie }) h
      fun hu => by cases hu
  refine keepsTidy_myproc_bind fun p => ?_
  refine .bind Prog.maintains_read fun initproc => ?_
  refine Prog.maintains_ite Prog.maintains_panic ?_
  refine .bind (keepsTidy_acquire _) fun _ => ?_
  refine .bind (keepsTidy_reparent p) fun _ => ?_
  refine .bind Prog.maintains_read fun parent => ?_
  refine .bind (keepsTidy_wakeup _) fun _ => ?_
  refine .bind (keepsTidy_acquire _) fun _ => ?_
  refine .bind (hzombie p) fun _ => ?_
  exact .bind (keepsTidy_release _) fun _ => keepsTidy_sched _

/-! ### Waits -/

theorem keepsTidy_freeproc (p : Slot) : KeepsTidy (coreAtomic (freeproc L p)) := by
  refine fun s hs => coreAtomic_post fun _ c' hc => ?_
  obtain ⟨v, rfl⟩ := freeproc_eq_ok hc
  exact Core.Tidy.setProc (c := s.core.setVm v) hs fun _ => ⟨rfl, rfl⟩

theorem keepsTidy_emit (e : Core → Event) : KeepsTidy (modCore fun c => c.emit (e c)) :=
  keepsTidy_modCore fun _ h => h

theorem keepsTidy_killed (p : Slot) : KeepsTidy (killed p) :=
  .bind (keepsTidy_acquire _) fun _ => .bind Prog.maintains_read fun _ =>
    .bind (keepsTidy_release _) fun _ => Prog.maintains_pure

theorem keepsTidy_kwaitScan (p : Slot) (addr : ℕ) :
    ∀ ps havekids, KeepsTidy (kwaitScan L p addr ps havekids) := by
  intro ps
  induction ps with
  | nil => exact fun _ => Prog.maintains_pure
  | cons q ps ih =>
    intro havekids
    have hrelease : ∀ v : BitVec 32, KeepsTidy (do
        release (.proc q)
        release .wait
        return .error v : KernelM (Except (BitVec 32) Bool)) := fun v =>
      .bind (keepsTidy_release _) fun _ => .bind (keepsTidy_release _) fun _ => Prog.maintains_pure
    refine .bind Prog.maintains_read fun parent => Prog.maintains_ite ?_ (ih havekids)
    refine .bind (keepsTidy_acquire _) fun _ => .bind Prog.maintains_read fun state => ?_
    refine Prog.maintains_ite ?_ (.bind (keepsTidy_release _) fun _ => ih true)
    -- a zombie, whose status goes to the address
    refine .bind Prog.maintains_read fun _ => .bind Prog.maintains_read fun _ => ?_
    refine .bind Prog.maintains_read fun _ => .bind (keepsTidy_vm _) fun ok => ?_
    refine Prog.maintains_ite (.bind (keepsTidy_emit _) fun _ => hrelease _) ?_
    refine .bind (keepsTidy_emit _) fun _ => .bind (keepsTidy_setParent q _) fun _ => ?_
    refine .bind (keepsTidy_freeproc q) fun _ => .bind (keepsTidy_emit _) fun _ => ?_
    exact hrelease _

theorem keepsTidy_sleepPrepare (chan : Chan) : KeepsTidy (sleepPrepare chan) := by
  refine keepsTidy_myproc_bind fun p => .bind (keepsTidy_acquire _) fun _ =>
    .bind (keepsTidy_modCore fun c h => ?_) fun _ => keepsTidy_release _
  exact Core.Tidy.assign (f := fun pr => { pr with chan := some chan }) h fun hu => ⟨hu, rfl, rfl⟩

theorem keepsTidy_sleep (k : Resume) : KeepsTidy (sleep k) := by
  refine keepsTidy_myproc_bind fun p => ?_
  refine .bind (Prog.maintains_update fun _ h => h) fun _ => ?_
  refine .bind (keepsTidy_acquire _) fun _ => ?_
  refine .bind Prog.maintains_read fun chan => Prog.maintains_ite ?_ ?_
  · exact .bind (keepsTidy_setProc p fun _ hu => by cases hu) fun _ => keepsTidy_sched _
  · refine .bind (keepsTidy_release _) fun _ => ?_
    exact .bind (Prog.maintains_update fun _ h => h) fun _ => Prog.maintains_pure

theorem keepsTidy_kwaitRound (p : Slot) (addr : ℕ) : KeepsTidy (kwaitRound L p addr) := by
  refine .bind (keepsTidy_kwaitScan p addr slots false) fun r => ?_
  cases r with
  | error v => exact Prog.maintains_pure
  | ok havekids =>
    have hgo : ∀ stop : Bool, KeepsTidy (if stop then do
        modCore fun c => c.emit (.waitRet p (-1))
        release .wait
        return .sysret p ((-1 : BitVec 32).signExtend 64)
      else do
        sleepPrepare (.proc p)
        release .wait
        sleep (.kwait addr) : KernelM Label) := fun _ =>
      Prog.maintains_ite (.bind (keepsTidy_emit _) fun _ => .bind (keepsTidy_release _) fun _ =>
        Prog.maintains_pure) (.bind (keepsTidy_sleepPrepare _) fun _ =>
        .bind (keepsTidy_release _) fun _ => keepsTidy_sleep _)
    cases havekids with
    | false => exact hgo true
    | true => exact .bind (keepsTidy_killed p) hgo

/-! ### Forks -/

theorem keepsTidy_allocprocFound (i : Slot) : KeepsTidy (allocprocFound L i) := by
  have hfail : KeepsTidy (do
      coreAtomic (freeproc L i)
      release (.proc i)
      return none : KernelM (Option Slot)) :=
    .bind (keepsTidy_freeproc i) fun _ => .bind (keepsTidy_release _) fun _ => Prog.maintains_pure
  have hpid : KeepsTidy allocpid := .bind (keepsTidy_acquire _) fun _ => .bind Prog.maintains_read
    fun _ => .bind (keepsTidy_modCore fun _ h => h) fun _ => .bind (keepsTidy_release _) fun _ =>
    Prog.maintains_pure
  refine .bind hpid fun pid => ?_
  refine .bind (keepsTidy_setProc i fun _ hu => by cases hu) fun _ => ?_
  -- the trapframe
  refine .bind (keepsTidy_vm _) fun pa => ?_
  refine .bind (keepsTidy_setProc i fun _ h => ⟨h, rfl, rfl⟩) fun _ => ?_
  refine Prog.maintains_ite hfail ?_
  -- the page table
  refine .bind (keepsTidy_vm _) fun pt => ?_
  refine .bind (keepsTidy_setProc i fun _ h => ⟨h, rfl, rfl⟩) fun _ => ?_
  refine Prog.maintains_ite hfail ?_
  exact .bind (keepsTidy_setProc i fun _ h => ⟨h, rfl, rfl⟩) fun _ => Prog.maintains_pure

theorem keepsTidy_allocproc : KeepsTidy (allocproc L) := by
  have hloop : ∀ ps, KeepsTidy (allocprocScan L ps) := by
    intro ps
    induction ps with
    | nil => exact Prog.maintains_pure
    | cons q ps ih =>
      exact .bind (keepsTidy_acquire _) fun _ => .bind Prog.maintains_read fun _ =>
        Prog.maintains_ite (keepsTidy_allocprocFound q) (.bind (keepsTidy_release _) fun _ => ih)
  exact hloop slots

theorem Core.Tidy.forkCopy (h : c.Tidy) (p np : Slot) : (c.forkCopy p np).Tidy := by
  have h₁ : (c.setProc np fun pr => { pr with sz := (c.procs p).sz }).Tidy :=
    h.assign fun hu => ⟨hu, rfl, rfl⟩
  -- the stores to the trapframe do not touch the table
  exact Core.Tidy.assign (f := fun pr => { pr with name := safestrcpy pr.name _ 16 }) h₁
    fun hu => ⟨hu, rfl, rfl⟩

theorem keepsTidy_kfork : KeepsTidy (kfork L) := by
  refine keepsTidy_myproc_bind fun p => .bind keepsTidy_allocproc fun np => ?_
  cases np with
  | none => exact Prog.maintains_pure
  | some np =>
    refine .bind Prog.maintains_read fun _ => .bind Prog.maintains_read fun _ => ?_
    refine .bind (keepsTidy_vm _) fun ok => Prog.maintains_ite ?_ ?_
    · refine .bind (keepsTidy_freeproc np) fun _ => ?_
      exact .bind (keepsTidy_release _) fun _ => Prog.maintains_pure
    · refine .bind (keepsTidy_modCore fun c h => h.forkCopy p np) fun _ => ?_
      refine .bind Prog.maintains_read fun pid => .bind (keepsTidy_release _) fun _ => ?_
      refine .bind (keepsTidy_acquire _) fun _ => .bind (keepsTidy_setParent np _) fun _ => ?_
      refine .bind (keepsTidy_release _) fun _ => .bind (keepsTidy_acquire _) fun _ => ?_
      refine .bind (keepsTidy_setProc np fun _ hu => by cases hu) fun _ => ?_
      exact .bind (keepsTidy_release _) fun _ => Prog.maintains_pure

/-- Of the table, only the slot `i` has changed, and its mark has not. -/
def Core.Founds (i : Slot) (c c' : Core) : Prop :=
  (∀ j, j ≠ i → c'.procs j = c.procs j) ∧ (c'.procs i).killed = (c.procs i).killed

theorem Core.Founds.setProc {c c' : Core} (h : c.Founds i c') {f : Proc → Proc}
    (hf : (f (c'.procs i)).killed = (c'.procs i).killed) : c.Founds i (c'.setProc i f) := by
  refine ⟨fun j hj => ?_, ?_⟩
  · rw [Core.setProc_ne _ _ hj]
    exact h.1 j hj
  · rw [Core.setProc_self, hf]
    exact h.2

theorem Core.Founds.forkCopy {c c' : Core} (h : c.Founds i c') (p : Slot) :
    c.Founds i (c'.forkCopy p i) := by
  have h₁ : c.Founds i (c'.setProc i fun pr => { pr with sz := (c'.procs p).sz }) := h.setProc rfl
  exact Core.Founds.setProc (f := fun pr => { pr with name := safestrcpy pr.name _ 16 }) h₁ rfl

/-- The program touches the slot `i` only, and not its mark. -/
abbrev Founding (i : Slot) (c : Core) {α : Type} (x : KernelM α) : Prop :=
  x.Maintains fun s => c.Founds i s.core

section Founding

variable {α : Type} {x : KernelM α}

theorem founding_of_core (h : ∀ s, x.Post s fun _ t => t.core = s.core) : Founding i c x :=
  fun s hs => (h s).mono fun _ t ht => show c.Founds i t.core by rwa [ht]

theorem founding_setProc {f : Proc → Proc} (hf : ∀ pr, (f pr).killed = pr.killed) :
    Founding i c (modCore fun c => c.setProc i f) :=
  Prog.maintains_update fun _ h => h.setProc (hf _)

theorem founding_vm (y : VmM α) : Founding i c (coreAtomic (liftVm y)) :=
  fun _ hs => vmAtomic_post fun _ _ _ => hs

theorem founding_allocpid : Founding i c allocpid := by
  refine .bind (founding_of_core (acquire_post _)) fun _ => .bind Prog.maintains_read fun _ => ?_
  refine .bind (Prog.maintains_update fun _ h => h) fun _ => ?_
  exact .bind (founding_of_core (release_post _)) fun _ => Prog.maintains_pure

/-- `freeproc` and `release` on the way out of `allocproc` and `kfork`. -/
theorem freeproc_release_post (a : α) (hs : c.Founds i s.core) : (do
    coreAtomic (freeproc L i)
    release (.proc i)
    return a : KernelM α).Post s fun b t =>
      b = a ∧ (∀ j, j ≠ i → t.core.procs j = c.procs j) ∧ (t.core.procs i).state = .unused := by
  refine .bind (coreAtomic_post fun _ c' hc => .bind ((release_post _ _).mono fun _ t ht =>
    Prog.post_pure ⟨rfl, ?_⟩))
  obtain ⟨v, rfl⟩ := freeproc_eq_ok hc
  rw [ht]
  refine ⟨fun j hj => ?_, ?_⟩
  · exact (Core.setProc_ne (s.core.setVm v) _ hj).trans (hs.1 j hj)
  · exact congrArg Proc.state (Core.setProc_self (s.core.setVm v) i _)

end Founding

theorem allocprocFound_post (s : K) (i : Slot) : (allocprocFound L i).Post s fun r t =>
    (∀ j, j ≠ i → t.core.procs j = s.core.procs j) ∧
      ((t.core.procs i).state = .unused ∧ r = none ∨
        (t.core.procs i).killed = (s.core.procs i).killed ∧ r = some i) := by
  have hfail : ∀ t : K, s.core.Founds i t.core → (do
      coreAtomic (freeproc L i)
      release (.proc i)
      return none : KernelM (Option Slot)).Post t fun r u =>
        (∀ j, j ≠ i → u.core.procs j = s.core.procs j) ∧
          ((u.core.procs i).state = .unused ∧ r = none ∨
            (u.core.procs i).killed = (s.core.procs i).killed ∧ r = some i) := fun t ht =>
    (freeproc_release_post none ht).mono fun r u hu => ⟨hu.2.1, .inl ⟨hu.2.2, hu.1⟩⟩
  refine .bind_maintains (founding_allocpid (i := i)) ⟨fun _ _ => rfl, rfl⟩ fun _ t₁ h₁ => ?_
  refine .bind_maintains (founding_setProc fun _ => rfl) h₁ fun _ t₂ h₂ => ?_
  -- the trapframe
  refine .bind_maintains (founding_vm _) h₂ fun _ t₃ h₃ => ?_
  refine .bind_maintains (founding_setProc fun _ => rfl) h₃ fun _ t₄ h₄ => ?_
  refine Prog.post_ite (fun _ => hfail t₄ h₄) fun _ => ?_
  -- the page table
  refine .bind_maintains (founding_vm _) h₄ fun _ t₅ h₅ => ?_
  refine .bind_maintains (founding_setProc fun _ => rfl) h₅ fun _ t₆ h₆ => ?_
  refine Prog.post_ite (fun _ => hfail t₆ h₆) fun _ => ?_
  refine .bind_maintains (founding_setProc fun _ => rfl) h₆ fun _ t₇ h₇ => Prog.post_pure ?_
  exact ⟨h₇.1, .inr ⟨h₇.2, rfl⟩⟩

theorem allocproc_post (s : K) : (allocproc L).Post s fun r t =>
    (r = none → ∀ i, (s.core.procs i).state = .unused → (t.core.procs i).state = .unused) ∧
      ∀ i, r = some i → s.core.Founds i t.core := by
  have hloop : ∀ ps (t : K), t.core = s.core → (allocprocScan L ps).Post t fun r u =>
      (r = none → ∀ i, (s.core.procs i).state = .unused → (u.core.procs i).state = .unused) ∧
        ∀ i, r = some i → s.core.Founds i u.core := by
    intro ps
    induction ps with
    | nil => exact fun t ht => Prog.post_pure ⟨fun _ i hi => ht ▸ hi, nofun⟩
    | cons q ps ih =>
      intro t ht
      refine .bind ((acquire_post _ t).mono fun _ t₁ h₁ =>
        .bind (Prog.post_read (Prog.post_ite ?_ ?_)))
      · intro _
        refine (allocprocFound_post t₁ q).mono fun r u hu => ?_
        rw [h₁, ht] at hu
        obtain ⟨hother, ⟨hunused, rfl⟩ | ⟨hkilled, rfl⟩⟩ := hu
        · refine ⟨fun _ i hi => ?_, nofun⟩
          by_cases hiq : i = q
          · rwa [hiq]
          · rwa [hother i hiq]
        · refine ⟨nofun, ?_⟩
          rintro i ⟨⟩
          exact ⟨hother, hkilled⟩
      · intro _
        exact .bind ((release_post _ t₁).mono fun _ t₂ h₂ => ih t₂ (h₂.trans (h₁.trans ht)))
  exact hloop slots s rfl

/-- A new process has the mark that its slot had. -/
theorem kfork_post (s : K) : (kfork L).Post s fun _ t => ∀ i, (s.core.procs i).state = .unused →
    (t.core.procs i).state ≠ .unused → (t.core.procs i).killed = (s.core.procs i).killed := by
  refine .bind ((myproc_post s).mono fun q t₀ h₀ => ?_)
  cases q with
  | none => exact Prog.post_panic
  | some p =>
    refine .bind (Prog.post_pure (.bind ((allocproc_post t₀).mono fun r t₁ h₁ => ?_)))
    rw [h₀.2] at h₁
    cases r with
    | none => exact Prog.post_pure fun i hi hne => absurd (h₁.1 rfl i hi) hne
    | some np =>
      refine .bind (Prog.post_read (.bind (Prog.post_read (.bind_maintains (founding_vm _)
        (h₁.2 np rfl) fun _ t₂ h₂ => Prog.post_ite (fun _ => ?_) fun _ => ?_))))
      · refine (freeproc_release_post _ h₂).mono fun _ t ht i hi hne => ?_
        by_cases hinp : i = np
        · exact absurd (hinp ▸ ht.2.2) hne
        · rw [ht.2.1 i hinp]
      · have hfork : Founding np s.core (modCore (Core.forkCopy p np)) :=
          Prog.maintains_update fun _ ht => ht.forkCopy p
        have hparent : Founding np s.core (modCore (Core.setParent np (some p))) :=
          Prog.maintains_update fun _ ht =>
            Core.Founds.setProc (f := fun pr => { pr with parent := some p }) ht rfl
        refine .bind_maintains hfork h₂ fun _ t₃ h₃ => .bind (Prog.post_read ?_)
        refine .bind_maintains (founding_of_core (release_post _)) h₃ fun _ t₄ h₄ => ?_
        -- the parent, under `wait_lock`
        refine .bind_maintains (founding_of_core (acquire_post _)) h₄ fun _ t₅ h₅ => ?_
        refine .bind_maintains hparent h₅ fun _ t₆ h₆ => ?_
        refine .bind_maintains (founding_of_core (release_post _)) h₆ fun _ t₇ h₇ => ?_
        -- the state, under the lock of the child
        refine .bind_maintains (founding_of_core (acquire_post _)) h₇ fun _ t₈ h₈ => ?_
        refine .bind_maintains (founding_setProc fun _ => rfl) h₈ fun _ t₉ h₉ => ?_
        refine .bind_maintains (founding_of_core (release_post _)) h₉ fun _ t ht => ?_
        refine Prog.post_pure fun i hi hne => ?_
        by_cases hinp : i = np
        · rw [hinp]
          exact ht.2
        · rw [ht.1 i hinp]

/-! ### Kills -/

/-- `kkill` marks a slot that has the pid, and fails if there is none. -/
theorem run_kkillLoop (pid : BitVec 32) : ∀ (ps : List Slot) (s : K),
    (∀ i, Lock.proc i ∉ s.hart.held) → (0 < s.hart.noff → s.hart.sie = false) →
    (∃ i h, i ∈ ps ∧ (s.core.procs i).pid = pid ∧
      (kkillLoop pid ps).run s = .ok (0, ⟨s.core.setProc i Proc.kill, h⟩)) ∨
    (∀ i ∈ ps, (s.core.procs i).pid ≠ pid) ∧ ∃ h, (kkillLoop pid ps).run s =
      .ok (-1, ⟨s.core, h⟩) := by
  intro ps
  induction ps with
  | nil => exact fun s _ _ => .inr ⟨nofun, s.hart, rfl⟩
  | cons q ps ih =>
    intro s hfree hoff
    obtain ⟨b, hvisited⟩ := Hart.visited_eq hoff
    rw [kkillLoop, run_acquire_bind _ (hfree q), getCore, Prog.run_read_bind]
    by_cases hq : (s.core.procs q).pid = pid
    · refine .inl ⟨q, s.hart.visited, List.mem_cons_self, hq, ?_⟩
      rw [if_pos hq, modCore, Prog.run_update_bind]
      exact run_release_taken_bind _ (hfree q) _
    · have hnext := run_release_taken_bind (c := s.core) _ (hfree q) fun _ => kkillLoop pid ps
      rw [if_neg hq]
      rw [hvisited] at hnext
      -- the rest of the loop runs on the same table, and on a hart with another `intena`
      rcases ih ⟨s.core, { s.hart with intena := b }⟩ hfree hoff with
        ⟨i, h, hi, hpid, hrun⟩ | ⟨hnone, h, hrun⟩
      · exact .inl ⟨i, h, List.mem_cons_of_mem _ hi, hpid, hnext.trans hrun⟩
      · exact .inr ⟨List.forall_mem_cons.mpr ⟨hq, hnone⟩, h, hnext.trans hrun⟩

/-- Whatever the caller, `kkill` marks at most one slot, which has the pid. -/
theorem kkill_post (pid : BitVec 32) (s : K) : (kkill pid).Post s fun _ t => t.core = s.core ∨
    ∃ i, (s.core.procs i).pid = pid ∧ t.core = s.core.setProc i Proc.kill := by
  have hloop : ∀ ps (t : K), t.core = s.core → (kkillLoop pid ps).Post t fun _ u =>
      u.core = s.core ∨
      ∃ i, (s.core.procs i).pid = pid ∧ u.core = s.core.setProc i Proc.kill := by
    intro ps
    induction ps with
    | nil => exact fun t ht => Prog.post_pure (.inl ht)
    | cons q ps ih =>
      intro t ht
      refine .bind ((acquire_post _ t).mono fun _ t₁ h₁ => .bind (Prog.post_read
        (Prog.post_ite (fun hq => ?_) fun _ => ?_)))
      · refine .bind (Prog.post_update (.bind ((release_post _ _).mono fun _ t₂ h₂ =>
          Prog.post_pure (.inr ⟨q, ?_⟩))))
        rw [h₁, ht] at hq
        rw [h₂]
        exact ⟨hq, by rw [h₁, ht]⟩
      · exact .bind ((release_post _ t₁).mono fun _ t₂ h₂ => ih t₂ (h₂.trans (h₁.trans ht)))
  exact hloop slots s rfl

/-- A pid that no unused slot has. -/
def Core.Addressed (c : Core) (pid : BitVec 32) : Prop := pid ≠ 0 ∨ ∀ i, (c.procs i).state ≠ .unused

theorem Core.Tidy.live (h : c.Tidy) (hpid : c.Addressed pid) (hi : (c.procs i).pid = pid) :
    (c.procs i).state ≠ .unused := by
  intro hu
  rcases hpid with hpid | hall
  · exact hpid (hi.symm.trans (h i hu).1)
  · exact hall i hu

theorem Core.Tidy.kill (h : c.Tidy) (hi : (c.procs i).state ≠ .unused) :
    (c.setProc i Proc.kill).Tidy := by
  refine h.setProc fun hu => ?_
  rw [Proc.kill] at hu
  split_ifs at hu
  exact absurd hu hi

/-- The calls of a history: kills of a pid that no unused slot has, forks, exits and the rounds of
waits. Between them anything may happen that neither frees a slot nor touches an unused one. -/
inductive ProcStep (L : Layout) : K → K → Prop
  | kill {s t : K} {v : BitVec 32} (pid : BitVec 32) (hpid : s.core.Addressed pid)
      (hrun : (kkill pid).run s = .ok (v, t)) : ProcStep L s t
  | fork {s t : K} {v : BitVec 32} (hrun : (kfork L).run s = .ok (v, t)) : ProcStep L s t
  | exit {s t : K} {l : Label} (status : BitVec 32) (hrun : (kexit status).run s = .ok (l, t)) :
      ProcStep L s t
  | wait {s t : K} {l : Label} (p : Slot) (addr : ℕ) (hrun : (kwaitRound L p addr).run s =
    .ok (l, t)) :
      ProcStep L s t
  | other {s t : K} (h : ∀ i, (t.core.procs i).state = .unused → t.core.procs i = s.core.procs i) :
      ProcStep L s t

theorem ProcStep.tidy (h : ProcStep L s t) (hs : s.core.Tidy) : t.core.Tidy := by
  cases h with
  | kill pid hpid hrun =>
    rcases kkill_post pid s _ t hrun with ht | ⟨i, hi, ht⟩
    · rwa [ht]
    · rw [ht]
      exact hs.kill (hs.live hpid hi)
  | fork hrun => exact keepsTidy_kfork s hs _ t hrun
  | exit status hrun => exact keepsTidy_kexit status s hs _ t hrun
  | wait p addr hrun => exact keepsTidy_kwaitRound p addr s hs _ t hrun
  | other h =>
    intro i hi
    have hsame := h i hi
    rw [hsame] at hi ⊢
    exact hs i hi

theorem ProcStep.run_tidy (h : Relation.ReflTransGen (ProcStep L) s t) (hs : s.core.Tidy) :
    t.core.Tidy := by
  induction h with
  | refl => exact hs
  | tail _ hstep ih => exact hstep.tidy ih

theorem Booted.tidy {image : Mem} {fails : ℕ → Bool} (h : Booted L image fails s) :
    s.core.Tidy := by
  obtain ⟨_, hs⟩ := h.launched
  exact fun i hu => ⟨((hs.good.slot i).blank hu).pid, ((hs.good.slot i).blank hu).killed⟩

theorem Launched.free {S : Site} (h : Launched L S s) (lk : Lock) : lk ∉ s.hart.held := by
  obtain ⟨h₀, -, hμ⟩ := h.hart
  have hcount := hμ.unlocked.hart.count
  rw [hμ.unlocked.noff] at hcount
  have hempty : s.hart.held = ∅ := Finset.card_eq_zero.mp (by omega)
  rw [hempty]
  exact Finset.notMem_empty lk

/-- **`kkill` finds live processes only**, after any history without a kill of a pid that an unused
slot has. A new process is then not marked. -/
theorem kkill_targets_live {image : Mem} {fails : ℕ → Bool} {s₀ : K}
    (hboot : Booted L image fails s₀)
    (hist : Relation.ReflTransGen (ProcStep L) s₀ s) (hpid : s.core.Addressed pid)
    (hfree : ∀ i, Lock.proc i ∉ s.hart.held) (hoff : 0 < s.hart.noff → s.hart.sie = false) :
    ((∃ t, (kkill pid).run s = .ok (0, t)) ↔
      ∃ i, (s.core.procs i).state ≠ .unused ∧ (s.core.procs i).pid = pid) ∧
    (∀ t, (kkill pid).run s = .ok (0, t) → ∃ i, (s.core.procs i).state ≠ .unused ∧
      (s.core.procs i).pid = pid ∧ t.core = s.core.setProc i Proc.kill) ∧
    ((¬∃ i, (s.core.procs i).state ≠ .unused ∧ (s.core.procs i).pid = pid) →
      ∃ t, (kkill pid).run s = .ok (-1, t) ∧ t.core = s.core) ∧
    ∀ v t, (kfork L).run s = .ok (v, t) → ∀ i, (s.core.procs i).state = .unused →
      (t.core.procs i).state ≠ .unused → (t.core.procs i).killed = false := by
  have htidy := ProcStep.run_tidy hist hboot.tidy
  have hfork : ∀ v t, (kfork L).run s = .ok (v, t) → ∀ i, (s.core.procs i).state = .unused →
      (t.core.procs i).state ≠ .unused → (t.core.procs i).killed = false :=
    fun v t hrun i hu hne => (kfork_post s v t hrun i hu hne).trans (htidy i hu).2
  rcases run_kkillLoop pid slots s hfree hoff with ⟨i, h, -, hi, hrun⟩ | ⟨hnone, h, hrun⟩
  · have hlive := htidy.live hpid hi
    refine ⟨⟨fun _ => ⟨i, hlive, hi⟩, fun _ => ⟨_, hrun⟩⟩, fun t ht => ⟨i, hlive, hi, ?_⟩,
      fun hno => absurd ⟨i, hlive, hi⟩ hno, hfork⟩
    cases hrun.symm.trans ht
    rfl
  · have hno : ∀ t, (kkill pid).run s ≠ .ok (0, t) := by
      intro t ht
      cases hrun.symm.trans ht
    have hlost : ¬∃ i, (s.core.procs i).state ≠ .unused ∧ (s.core.procs i).pid = pid := by
      rintro ⟨i, -, hi⟩
      exact hnone i (List.mem_finRange i) hi
    exact ⟨⟨fun ⟨t, ht⟩ => absurd ht (hno t), fun hex => absurd hex hlost⟩,
      fun t ht => absurd ht (hno t), fun _ => ⟨_, hrun, rfl⟩, hfork⟩

/-- The first process can be killed. -/
theorem kkill_targets_live_first : ∃ s t : K, Booted .virt (fun _ => 0) (fun _ => false) s ∧
    (kkill 1).run s = .ok (0, t) := by
  obtain ⟨s, hboot⟩ := exists_booted_virt fun _ => 0
  obtain ⟨_, hs⟩ := hboot.launched
  obtain ⟨h₀, -, hμ⟩ := hs.hart
  have hkill : (∃ t, (kkill 1).run s = .ok (0, t)) ↔
      ∃ i, (s.core.procs i).state ≠ .unused ∧ (s.core.procs i).pid = 1 :=
    (kkill_targets_live hboot .refl (.inl (by decide)) (fun i => hs.free _)
      hμ.unlocked.hart.masked).1
  obtain ⟨kpt, v, tf, pt, tx, hcore⟩ := hs.core
  obtain ⟨t, ht⟩ := hkill.mpr ⟨0, by rw [hcore]; nofun, by rw [hcore]; rfl⟩
  exact ⟨s, t, hboot, ht⟩

/-- **`kkill(0)` marks an unused slot** of the machine that has just started, where no process has
pid 0. The process that `kfork` later puts into the slot is born killed. -/
theorem kkill_zero_marks_unused : ∃ (s t : K) (i : Slot),
    Booted .virt (fun _ => 0) (fun _ => false) s ∧
    (∀ j, (s.core.procs j).state ≠ .unused → (s.core.procs j).pid ≠ 0) ∧
    (kkill 0).run s = .ok (0, t) ∧ (t.core.procs i).state = .unused ∧
      (t.core.procs i).killed = true ∧
    ∀ (u w : K) (v : BitVec 32), u.core.procs i = t.core.procs i →
      (kfork .virt).run u = .ok (v, w) →
      (w.core.procs i).state ≠ .unused → (w.core.procs i).killed = true := by
  obtain ⟨s, hboot⟩ := exists_booted_virt fun _ => 0
  obtain ⟨_, hs⟩ := hboot.launched
  obtain ⟨h₀, -, hμ⟩ := hs.hart
  obtain ⟨kpt, vm, tf, pt, tx, hcore⟩ := hs.core
  have hzero : ∀ j, j ≠ 0 → s.core.procs j = .zero j := fun j hj => by
    rw [hcore]
    exact Function.update_of_ne hj ..
  have hfirst : (s.core.procs 0).pid = 1 := by
    rw [hcore]
    rfl
  have hlive : ∀ j, (s.core.procs j).state ≠ .unused → (s.core.procs j).pid ≠ 0 := by
    intro j hj
    by_cases hj0 : j = 0
    · rw [hj0, hfirst]
      decide
    · exact absurd (by rw [hzero j hj0]; rfl) hj
  rcases run_kkillLoop 0 slots s (fun i => hs.free _) hμ.unlocked.hart.masked with
    ⟨i, h, -, hi, hrun⟩ | ⟨hnone, -⟩
  · have hunused : (s.core.procs i).state = .unused := by_contra fun hne => hlive i hne hi
    have hproc : ((s.core.setProc i Proc.kill).procs i) = (s.core.procs i).kill :=
      Core.setProc_self ..
    have hstate : (s.core.procs i).kill.state = .unused := by simp [Proc.kill, hunused]
    refine ⟨s, _, i, hboot, hlive, hrun, ?_, ?_, fun u w v hu hfork hne => ?_⟩
    · exact hproc ▸ hstate
    · exact hproc ▸ rfl
    · have hkept : u.core.procs i = (s.core.procs i).kill := hu.trans hproc
      rw [kfork_post u v w hfork i (hkept ▸ hstate) hne, hkept]
      rfl
  · exact absurd (by rw [hzero 1 (by decide)]; rfl) (hnone 1 (List.mem_finRange _))

end OsKernel
