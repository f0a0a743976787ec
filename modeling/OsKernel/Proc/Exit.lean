import OsKernel.Proc.Sleep

/-!
# Exit

`kexit` gives the children of the process to `init`, wakes `init` and the parent, and leaves a
zombie, all with `wait_lock` held. In between the invariant does not hold: a child has a parent
that is neither its creator nor the heir of one. `Handover` describes these states against the one
in which `kexit` took the lock, and `Good.exit` closes the gap when the process has no child left
and its end is recorded.
-/

namespace OsKernel

variable {L : Layout} {S : Site} {N : Env} {h₀ : Hart} {b : Bool} {c c' c₀ : Core} {p : Slot}
  {init : Slot} {status : BitVec 32}

/-! ### Handing over the children -/

/-- The process is as it was, or it was woken. -/
def Proc.Nudged (pr pr' : Proc) : Prop := pr' = pr ∨ pr' = pr.woken

theorem Proc.woken_woken (pr : Proc) : pr.woken.woken = pr.woken := by
  by_cases hs : pr.state = .sleeping <;> simp [Proc.woken, hs]

theorem Proc.wake_parent (pr : Proc) (par : Option Slot) (ch : Option Chan) :
    ({ pr with parent := par } : Proc).wake ch = { pr.wake ch with parent := par } := by
  by_cases hc : pr.chan = ch
  · rw [Proc.wake_self hc]
    exact Proc.wake_self hc
  · rw [Proc.wake_ne hc]
    exact Proc.wake_ne hc

theorem Proc.Nudged.wake {pr pr' : Proc} (h : pr.Nudged pr') (ch : Option Chan) :
    pr.Nudged (pr'.wake ch) := by
  by_cases hc : pr'.chan = ch
  · rw [Proc.wake_self hc]
    rcases h with rfl | rfl
    · exact .inr rfl
    · exact .inr pr.woken_woken
  · rwa [Proc.wake_ne hc]

theorem Proc.Nudged.tame {pr pr' : Proc} (h : pr.Nudged pr') : pr.Tame pr' := by
  rcases h with rfl | rfl
  · exact .refl _
  · exact pr.tame_woken

theorem SlotOk.nudged {cproc : Option Slot} {m : Mem} {k : Cons} {h : History} {i : Slot}
    {pr pr' : Proc} (hs : SlotOk cproc m k h i pr) (hn : pr.Nudged pr') :
    SlotOk cproc m k h i pr' := by
  rcases hn with rfl | rfl
  · exact hs
  · exact hs.woken

/-- Some children of `p` were given to `init`, which is awake then; others may have been woken. -/
structure Handover (init p : Slot) (c c' : Core) : Prop where
  rest : ∃ procs l, c' = { c with procs := procs, log := l }
  procs : ∀ i, ∃ q par, (c.procs i).Nudged q ∧ c'.procs i = { q with parent := par } ∧
    (par = (c.procs i).parent ∨ (c.procs i).parent = some p ∧ par = some init ∧
      ∀ j, (c'.procs j).chan ≠ some (.proc init))
  hist : ∀ i, ∃ quiet, c'.hist i = { c.hist i with parent := (c'.procs i).parent, quiet := quiet } ∧
    (i ≠ p → quiet = (c.hist i).quiet)
  ring : RingOk c.cons c.log → RingOk c.cons c'.log
  legal : Legal init c.log → Legal init c'.log
  exits : PositiveExits c.log → PositiveExits c'.log

namespace Handover

theorem refl (hg : Good L S c) : Handover S.init p c c where
  rest := ⟨c.procs, c.log, rfl⟩
  procs i := ⟨c.procs i, _, .inl rfl, rfl, .inl rfl⟩
  hist i := ⟨_, by rw [← (hg.slot i).parent], fun _ => rfl⟩
  ring := id
  legal := id
  exits := id

/-- More processes are woken. -/
theorem wakeAll (h : Handover init p c c') (ch : Option Chan) :
    Handover init p c (c'.wakeAll ch) where
  rest := by
    obtain ⟨procs, l, rfl⟩ := h.rest
    exact ⟨_, l, rfl⟩
  procs i := by
    obtain ⟨q, par, hq, hpr, hpar⟩ := h.procs i
    refine ⟨q.wake ch, par, hq.wake ch, ?_, hpar.imp_right fun ⟨h₁, h₂, h₃⟩ =>
      ⟨h₁, h₂, fun j hj => ?_⟩⟩
    · show (c'.procs i).wake ch = _
      rw [hpr, q.wake_parent]
    · exact h₃ j ((c'.tame_wakeAll ch j).chan _ hj)
  hist i := by
    obtain ⟨quiet, hh, hq⟩ := h.hist i
    refine ⟨quiet, ?_, hq⟩
    rw [(c'.tame_wakeAll ch i).parent]
    exact hh
  ring := h.ring
  legal := h.legal
  exits := h.exits

/-- One child is given to `init`. -/
theorem setParent {i : Slot} (h : Handover init p c c') (hp : c'.cproc = some p)
    (hi : (c'.procs i).parent = some p) (hawake : ∀ j, (c'.procs j).chan ≠ some (.proc init)) :
    Handover init p c (c'.setParent i (some init)) := by
  have hself := c'.setParent_self i (some init)
  have hne : ∀ j, j ≠ i → (c'.setParent i (some init)).procs j = c'.procs j := fun j =>
    c'.setParent_ne (some init)
  have hawake' : ∀ j, ((c'.setParent i (some init)).procs j).chan ≠ some (.proc init) :=
    Core.forall_setProc (f := fun pr => { pr with parent := some init })
      (P := fun _ pr => pr.chan ≠ some (.proc init)) (hawake i) fun j _ => hawake j
  constructor
  case rest =>
    obtain ⟨procs, l, rfl⟩ := h.rest
    exact ⟨_, _, rfl⟩
  case procs =>
    intro j
    obtain ⟨q, par, hq, hpr, hpar⟩ := h.procs j
    by_cases hj : j = i
    · subst hj
      refine ⟨q, some init, hq, ?_, .inr ⟨?_, rfl, hawake'⟩⟩
      · refine hself.trans ?_
        rw [hpr]
      · rw [hpr] at hi
        rcases hpar with hpar | ⟨hpar, -⟩
        · exact hpar.symm.trans hi
        · exact hpar
    · rw [hne j hj]
      exact ⟨q, par, hq, hpr, hpar.imp_right fun ⟨h₁, h₂, _⟩ => ⟨h₁, h₂, hawake'⟩⟩
  case hist =>
    intro j
    obtain ⟨quiet, hh, hq⟩ := h.hist j
    have hobs : (c'.setParent i (some init)).hist j =
        disturb (some p) (Function.update c'.hist i { c'.hist i with parent := some init }) j := by
      show observe _ (.parentSet c'.cproc i (some init)) j = _
      rw [hp]
      rfl
    -- the parent of `i` changes, and `p` is the one that changes it
    have hupd : Function.update c'.hist i { c'.hist i with parent := some init } j =
        { c.hist j with parent := ((c'.setParent i (some init)).procs j).parent, quiet :=
          quiet } := by
      by_cases hj : j = i
      · subst hj
        rw [Function.update_self, hh]
        exact congrArg (fun pr : Proc => { c.hist j with parent := pr.parent, quiet := quiet })
          hself.symm
      · rw [Function.update_of_ne hj, hne j hj, hh]
    by_cases hj : p = j
    · subst hj
      refine ⟨false, ?_, fun hne => absurd rfl hne⟩
      rw [hobs, disturb, if_pos rfl, hupd]
    · refine ⟨quiet, ?_, hq⟩
      rw [hobs, disturb, if_neg (by simpa using hj), hupd]
  case ring => exact fun hr => ⟨(h.ring hr).fits, (h.ring hr).committed, (h.ring hr).full,
    (h.ring hr).content, (h.ring hr).echo⟩
  case legal => exact fun hl => (h.legal hl).cons trivial
  case exits => exact fun he => (h.exits he).cons (by simp)

end Handover

theorem Core.wakeAll_chan_ne (c : Core) (ch : Chan) (i : Slot) :
    ((c.wakeAll (some ch)).procs i).chan ≠ some ch := by
  intro hc
  by_cases h : (c.procs i).chan = some ch
  · rw [show (c.wakeAll (some ch)).procs i = (c.procs i).woken from Proc.wake_self h] at hc
    cases hc
  · rw [show (c.wakeAll (some ch)).procs i = c.procs i from Proc.wake_ne h] at hc
    exact h hc

theorem Core.setParent_wakeAll (c : Core) (i : Slot) (par : Option Slot) (ch : Option Chan) :
    (c.setParent i par).wakeAll ch = (c.wakeAll ch).setParent i par := by
  have hprocs : ∀ j, ((c.setParent i par).wakeAll ch).procs j =
      ((c.wakeAll ch).setParent i par).procs j := by
    intro j
    show ((c.setParent i par).procs j).wake ch = _
    by_cases hj : j = i
    · subst hj
      rw [Core.setParent_self, Core.setParent_self, Proc.wake_parent]
      rfl
    · rw [Core.setParent_ne _ _ hj, Core.setParent_ne _ _ hj]
      rfl
  exact congrArg (fun procs => { c.setParent i par with procs := procs }) (funext hprocs)

/-- **The loop of `reparent`** leaves `p` without children in the part of the table it has seen. -/
theorem reparentLoop_runs (hp : c.cproc = some p) (hinit : c.initproc = some init)
    (hne : init ≠ p) : ∀ (ps : List Slot) {c' : Core} {Q : Unit → Mode → Core → Prop},
    Handover init p c c' → (∀ i, i ∉ ps → (c'.procs i).parent ≠ some p) →
    (∀ c'', Handover init p c c'' → (∀ i, (c''.procs i).parent ≠ some p) →
      Q () (.locked {.wait} b) c'') →
    Runs L S N h₀ (reparentLoop p ps) (.locked {.wait} b) c' Q
  | [], c', Q, h, hdone, hQ => does_pure (hQ c' h fun i => hdone i (by simp))
  | i :: ps, c', Q, h, hdone, hQ => by
    have hp' : c'.cproc = some p := by
      obtain ⟨procs, l, rfl⟩ := h.rest
      exact hp
    have hinit' : c'.initproc = some init := by
      obtain ⟨procs, l, rfl⟩ := h.rest
      exact hinit
    refine .bind (Locked.getCore (does_ite (fun hi => .bind (Locked.getCore ?_)) fun hi => ?_))
    · rw [hinit']
      refine .bind (Locked.modCore (.bind (Locked.wakeup (by simp) (by simp) ?_)))
      rw [Core.setParent_wakeAll]
      refine reparentLoop_runs hp hinit hne ps ((h.wakeAll _).setParent hp' ?_
        (c'.wakeAll_chan_ne _)) (fun j hj => ?_) hQ
      · rw [(c'.tame_wakeAll _ i).parent]
        exact hi
      · by_cases hji : j = i
        · subst hji
          rw [Core.setParent_self]
          simpa using hne
        · rw [Core.setParent_ne _ _ hji, (c'.tame_wakeAll _ j).parent]
          exact hdone j (by simp [hji, hj])
    · refine reparentLoop_runs hp hinit hne ps h (fun j hj => ?_) hQ
      by_cases hji : j = i
      · exact hji ▸ hi
      · exact hdone j (by simp [hji, hj])

/-! ### The zombie -/

/-- What `kexit` leaves in `struct proc`. -/
def Proc.zombie (status : BitVec 32) (pr : Proc) : Proc :=
  { pr with xstate := status, state := .zombie, context := some .exitBack }

/-- The changes of `kexit` to the process itself, and the switch to the scheduler. -/
def Core.exit (p : Slot) (status : BitVec 32) (c : Core) : Core :=
  ((c.setProc p (Proc.zombie status)).emit (.exited p (c.procs p).pid status)).idle

/-- The two assignments to `struct proc`, in `kexit` and in `sched`, taken together. -/
theorem Core.idle_exit (c : Core) (p : Slot) (status : BitVec 32) :
    (((c.setProc p fun pr => { pr with xstate := status, state := .zombie }).emit
      (.exited p (c.procs p).pid status)).saveContext p .exitBack).idle = c.exit p status :=
  congrArg (fun c' : Core => (c'.emit (.exited p (c.procs p).pid status)).idle)
    (c.setProc_setProc p (fun pr => { pr with xstate := status, state := .zombie })
      fun pr => { pr with context := some .exitBack })

namespace Handover

variable (h : Handover init p c c')

include h

theorem parent (i : Slot) : (c'.procs i).parent = (c.procs i).parent ∨
    (c.procs i).parent = some p ∧ (c'.procs i).parent = some init := by
  obtain ⟨q, par, -, hpr, hpar⟩ := h.procs i
  rw [hpr]
  exact hpar.imp_right fun ⟨h₁, h₂, _⟩ => ⟨h₁, h₂⟩

/-- Apart from the parent nothing changes that concerns the invariant. -/
theorem nudged (i : Slot) : ∃ q, (c.procs i).Nudged q ∧
    c'.procs i = { q with parent := (c'.procs i).parent } := by
  obtain ⟨q, par, hq, hpr, -⟩ := h.procs i
  exact ⟨q, hq, by rw [hpr]⟩

theorem steady (i : Slot) :
    (c.procs i).Steady { c'.procs i with parent := (c.procs i).parent } := by
  obtain ⟨q, hq, hpr⟩ := h.nudged i
  have ht := hq.tame
  rw [hpr]
  exact ⟨ht.space, ht.pid, rfl, ht.started, ht.unused, ht.used, ht.zombie⟩

theorem chan {i : Slot} {ch : Chan} (hc : (c'.procs i).chan = some ch) :
    (c.procs i).chan = some ch := by
  obtain ⟨q, hq, hpr⟩ := h.nudged i
  rw [hpr] at hc
  rcases hq with rfl | rfl
  · exact hc
  · cases hc

/-- `init` is not waiting when it has got a child. -/
theorem awake {i j : Slot} (hpar : (c'.procs i).parent ≠ (c.procs i).parent) :
    (c'.procs j).chan ≠ some (.proc init) := by
  obtain ⟨q, par, -, hpr, hcase⟩ := h.procs i
  rw [hpr] at hpar
  exact (hcase.resolve_left hpar).2.2 j

/-- The slots of the others keep their invariant. -/
theorem slot {i : Slot} (hp : c.cproc = some p) (hi : i ≠ p) {o : Bool}
    (hs : SlotOk c.cproc c.vm.mem c.cons (c.hist i) i (c.procs i)) :
    SlotOk none c.vm.mem c.cons { c'.hist i with orphan := o } i (c'.procs i) := by
  obtain ⟨quiet, hh, hquiet⟩ := h.hist i
  obtain ⟨q, hq, hpr⟩ := h.nudged i
  have hslot := hs.nudged hq
  rw [hh, hquiet hi, hpr]
  have hrun : q.state ≠ .running := by
    rw [ne_eq, hslot.running, hp, Option.some.injEq]
    exact hi.symm
  have hsame : ∀ {k : Resume}, k.Ok q (c.hist i) → k.Ok { q with parent := (c'.procs i).parent }
      { c.hist i with parent := (c'.procs i).parent, orphan := o } := by
    intro k hk
    cases k <;> exact hk
  refine { hslot with
    running := iff_of_false hrun (by simp)
    blank := fun hu => ?_
    parent := rfl
    saved := fun hpark => ?_ }
  · -- a slot without a process has no parent, so none was changed
    have hb := hslot.blank hu
    refine { hb with parent := ?_ }
    rcases h.parent i with hpar | ⟨hpar, -⟩
    · exact hpar.trans (hq.tame.parent ▸ hb.parent)
    · rw [← hq.tame.parent, hb.parent] at hpar
      cases hpar
  · rcases hslot.saved hpark with hf | ⟨ia, k, h₁, h₂, h₃, h₄⟩
    · exact .inl hf
    · exact .inr ⟨ia, k, h₁, h₂, h₃, hsame h₄⟩

/-- The process itself is as it was. -/
theorem self (hk : Kin init c.procs c.hist) (hrun : (c.procs p).state = .running)
    (hchan : (c.procs p).chan = none) : c'.procs p = c.procs p := by
  obtain ⟨q, hq, hpr⟩ := h.nudged p
  have hpar : (c'.procs p).parent = (c.procs p).parent := by
    refine (h.parent p).resolve_right fun hpar => ?_
    obtain ⟨rank, -, hlt⟩ := hk.rank
    exact absurd (hlt p p hpar.1) (lt_irrefl _)
  have hqs : q = c.procs p := by
    rcases hq with rfl | rfl
    · rfl
    · simp only [Proc.woken, hrun, reduceCtorEq, if_false, ← hchan]
      simp only [← hrun]
  rw [hpr, hqs, hpar]

end Handover

theorem Core.exit_self (c : Core) (p : Slot) (status : BitVec 32) :
    (c.exit p status).procs p = (c.procs p).zombie status := c.setProc_self p _

theorem Core.exit_ne (c : Core) {p i : Slot} (status : BitVec 32) (h : i ≠ p) :
    (c.exit p status).procs i = c.procs i := c.setProc_ne _ h

/-- An exit changes no memory and no pid. -/
theorem Handover.exit_proc (h : Handover init p c c') (status : BitVec 32)
    (hrun : (c.procs p).state = .running)
    (i : Slot) : (((c'.exit p status).procs i).state = .unused ↔ (c.procs i).state = .unused) ∧
      ((c'.exit p status).procs i).space = (c.procs i).space ∧
      ((c'.exit p status).procs i).pid = (c.procs i).pid := by
  have hs := h.steady i
  by_cases hi : i = p
  · subst hi
    rw [Core.exit_self]
    exact ⟨iff_of_false (by simp [Proc.zombie]) (by rw [hrun]; decide), hs.space, hs.pid⟩
  · rw [Core.exit_ne _ _ hi]
    exact ⟨hs.unused, hs.space, hs.pid⟩

theorem Handover.exit_spaces (h : Handover init p c c') (status : BitVec 32)
    (hrun : (c.procs p).state = .running) :
    (c'.exit p status).spaces = c.spaces :=
  Core.spaces_congr fun i => ⟨(h.exit_proc status hrun i).1, (h.exit_proc status hrun i).2.1⟩

theorem Core.exit_hist (c : Core) (p i : Slot) (status : BitVec 32) :
    (c.exit p status).hist i = { c.hist i with
      orphan := if (c.hist i).creator = some p then true else (c.hist i).orphan
      ended := if i = p then some ((c.procs p).pid, status) else (c.hist i).ended } := rfl

/-- **The tree of processes after an exit.** The children of `p` are those of `init` now. -/
theorem Handover.kin (h : Handover init p c c') (status : BitVec 32) (hk : Kin init c.procs c.hist)
    (hrun : (c.procs p).state = .running) (hne : init ≠ p)
    (hdone : ∀ i, (c'.procs i).parent ≠ some p) :
    Kin init (c'.exit p status).procs (c'.exit p status).hist := by
  have hpar : ∀ i, ((c'.exit p status).procs i).parent = (c'.procs i).parent :=
    Core.forall_setProc (P := fun i pr => pr.parent = (c'.procs i).parent) rfl fun _ _ => rfl
  have hstarted : ∀ j, j ≠ p → (c.procs j).Started → ((c'.exit p status).procs j).Started := by
    intro j hj hs
    rw [Core.exit_ne _ _ hj]
    exact (h.steady j).started.mpr hs
  constructor
  case init_started => exact hstarted init hne hk.init_started
  case init_parent =>
    rw [hpar]
    rcases h.parent init with hp | ⟨hp, -⟩
    · exact hp.trans hk.init_parent
    · rw [hk.init_parent] at hp
      cases hp
  case parent =>
    intro i j hj
    rw [hpar] at hj
    have hjp : j ≠ p := fun hjp => hdone i (hjp ▸ hj)
    refine hstarted j hjp ?_
    rcases h.parent i with hp | ⟨-, hp⟩
    · exact hk.parent i j (hp ▸ hj)
    · rw [hj, Option.some.injEq] at hp
      exact hp ▸ hk.init_started
  case orphan =>
    intro i hi
    rw [hpar] at hi
    have hold : (c.procs i).parent = none := by
      rcases h.parent i with hp | ⟨-, hp⟩
      · exact hp ▸ hi
      · rw [hi] at hp
        cases hp
    have hcase := hk.orphan i hold
    by_cases hip : i = p
    · subst hip
      rw [hrun] at hcase
      rcases hcase with hc | hc | hc
      · exact .inl hc
      · cases hc
      · cases hc
    · rw [Core.exit_ne _ _ hip]
      exact hcase.imp_right (Or.imp (h.steady i).unused.mpr (h.steady i).used.mpr)
  case lineage =>
    intro i j hj
    rw [hpar] at hj
    have hjp : j ≠ p := fun hjp => hdone i (hjp ▸ hj)
    obtain ⟨quiet, hh, -⟩ := h.hist i
    have hcreator : (c'.hist i).creator = (c.hist i).creator := by rw [hh]
    have horphan : (c'.hist i).orphan = (c.hist i).orphan := by rw [hh]
    rw [History.Heir, Core.exit_hist, hcreator, horphan]
    rcases h.parent i with hp | ⟨hp, hp'⟩
    · -- the parent stays; it was not `p`
      obtain ⟨hor, hcr⟩ := hk.lineage i j (hp ▸ hj)
      constructor
      · intro ho
        by_cases hc : (c.hist i).creator = some p
        · refine hor ?_
          by_contra hno
          rw [hcr (Bool.eq_false_of_not_eq_true hno), Option.some.injEq] at hc
          exact hjp hc
        · exact hor (by simpa [hc] using ho)
      · intro ho
        by_cases hc : (c.hist i).creator = some p
        · simp [hc] at ho
        · exact hcr (by simpa [hc] using ho)
    · -- the creator is `p`, whose end is recorded now
      obtain ⟨hor, hcr⟩ := hk.lineage i p hp
      have ho : (c.hist i).orphan = false := Bool.eq_false_of_not_eq_true fun ho =>
        hne (hor ho).symm
      rw [hj, Option.some.injEq] at hp'
      exact ⟨fun _ => hp', fun hno => by simp [hcr ho] at hno⟩
  case rank =>
    obtain ⟨rank, h0, hlt⟩ := hk.rank
    refine ⟨rank, h0, fun i j hj => ?_⟩
    rw [hpar] at hj
    rcases h.parent i with hp | ⟨hp, hp'⟩
    · exact hlt i j (hp ▸ hj)
    · rw [hj, Option.some.injEq] at hp'
      rw [hp', h0]
      exact Nat.zero_lt_of_lt (hlt i p hp)

/-- **Nobody misses the exit**: `init` and the parent were woken. -/
theorem Handover.waiting (h : Handover init p c c') (status : BitVec 32) (hwait : Waiting c.procs)
    (hchan : (c.procs p).chan = none)
    (hawake : ∀ i j, (c'.procs p).parent = some j → (c'.procs i).chan ≠ some (.proc j)) :
    Waiting (c'.exit p status).procs := by
  intro i j hj
  have hip : i ≠ p := by
    rintro rfl
    rw [Core.exit_self] at hj
    have := h.chan hj
    rw [hchan] at this
    cases this
  rw [Core.exit_ne _ _ hip] at hj
  have hpar : ∀ ch, ((c'.exit p status).procs ch).parent = (c'.procs ch).parent :=
    Core.forall_setProc (P := fun i pr => pr.parent = (c'.procs i).parent) rfl fun _ _ => rfl
  obtain ⟨rfl, ⟨ch, hch⟩, hz⟩ := hwait i j (h.chan hj)
  -- no child was given to a process that waits
  have hkept : ∀ ch', (c'.procs ch').parent = some j → (c.procs ch').parent = some j := by
    intro ch' hch'
    rcases h.parent ch' with hp | ⟨hp, hp'⟩
    · exact hp ▸ hch'
    · rw [hch', Option.some.injEq] at hp'
      refine absurd (hp' ▸ hj) (h.awake (i := ch') ?_)
      rw [hch', hp, ne_eq, Option.some.injEq]
      exact hip
  refine ⟨rfl, ⟨ch, ?_⟩, fun ch' hch' => ?_⟩
  · rw [hpar]
    rcases h.parent ch with hp | ⟨hp, -⟩
    · exact hp.trans hch
    · rw [hch, Option.some.injEq] at hp
      exact absurd hp hip
  · rw [hpar] at hch'
    by_cases hcp : ch' = p
    · exact absurd hj (hawake j j (hcp ▸ hch'))
    · rw [Core.exit_ne _ _ hcp]
      exact fun hzomb => hz ch' (hkept ch' hch') ((h.steady ch').zombie.mp hzomb)

/-- **The invariant after an exit.** -/
theorem Good.exit (hg : Good L S c) (hw : Working p c) (hne : S.init ≠ p)
    (h : Handover S.init p c c') (hdone : ∀ i, (c'.procs i).parent ≠ some p)
    (hawake : ∀ i j, (c'.procs p).parent = some j → (c'.procs i).chan ≠ some (.proc j))
    (hterm : (c.hist p).Terminates status) : Good L S (c'.exit p status) := by
  have hrun := hg.state_running hw.cproc
  have hself := h.self hg.kin hrun hw.chan
  obtain ⟨quiet, hhist, -⟩ := h.hist p
  have hkin := h.kin status hg.kin hrun hne hdone
  have hwaiting := h.waiting status hg.waiting hw.chan hawake
  have hring := h.ring hg.ring
  have hlegal := h.legal hg.legal
  have hexits := fun hb => h.exits (hg.exits hb)
  have hslots := fun i hi o => h.slot (i := i) (o := o) hw.cproc hi (hg.slot i)
  have hhists := h.hist
  have hproc := h.exit_proc status hrun
  have hspaces := h.exit_spaces status hrun
  obtain ⟨procs, l, rfl⟩ := h.rest
  constructor
  case kernel => exact hg.kernel
  case initproc => exact hg.initproc
  case spaces =>
    rw [hspaces]
    exact hg.spaces
  case slot =>
    intro i
    rw [Core.exit_hist]
    by_cases hi : i = p
    · subst hi
      have hs := hg.slot i
      have hproc : (Core.exit i status { c with procs := procs, log := l }).procs i =
          (c.procs i).zombie status := by
        rw [Core.exit_self, hself]
      rw [hproc, hhist, if_pos rfl, hself]
      refine { hs with
        running := iff_of_false (by simp [Proc.zombie]) (by simp [Core.exit, Core.idle])
        blank := fun hu => by cases hu
        asleep := fun hu => by cases hu
        chan := fun hc => absurd hw.chan hc
        ended := rfl
        parent := rfl
        saved := fun hpark => ?_
        frame := fun hpark => ?_ }
      all_goals rcases hpark with hc | hc | hc <;> cases hc
    · rw [Core.exit_ne _ _ hi, if_neg hi]
      exact hslots i hi _
  case kin => exact hkin
  case waiting => exact hwaiting
  case ring => exact ⟨hring.fits, hring.committed, hring.full, hring.content, hring.echo⟩
  case fails => exact hg.fails
  case pids =>
    exact fun hb => (hg.pids hb).congr (fun i => (hproc i).2.2) fun i => (hproc i).1
  case boot =>
    intro hf i
    obtain ⟨quiet', hh, -⟩ := hhists i
    rw [Core.exit_hist, hh]
    exact hg.boot hf i
  case unloaded => exact fun hf i => (congrArg Space.sz (hproc i).2.1).trans (hg.unloaded hf i)
  case home => exact fun _ hp => by cases hp
  case legal =>
    refine hlegal.cons ?_
    obtain ⟨t, ht, hstatus⟩ := hterm
    refine ⟨t, ?_, hstatus⟩
    show (Core.hist { c with procs := procs, log := l } p).trap = some t
    rw [hhist]
    exact ht
  case exits =>
    intro hb
    refine (hexits hb).cons ?_
    rintro i pid status' heq
    cases heq
    rw [hself]
    exact (hg.pids hb).pos p (by rw [hrun]; decide)

/-- **`kexit`**: the process leaves a zombie, unless it is `init`. -/
theorem kexit_ends (hw : Working p c) (hterm : (c.hist p).Terminates status)
    (hsp : Spares (· = p) c₀ c) :
    Runs L S N h₀ (kexit status) (.unlocked b) c (Ends L S (· = p) c₀) := by
  refine .bind (Unlocked.myproc fun c₁ hd₁ hg₁ => .bind ?_)
  have hw₁ := hw.drift (N.drift hd₁)
  rw [hw₁.cproc]
  refine does_deref (.bind (Unlocked.getCore fun c₂ hd₂ hg₂ => ?_))
  have hw₂ := hw₁.drift (N.drift hd₂)
  rw [Good.initproc hg₂]
  refine does_ite (fun _ => does_kpanic (.inl rfl)) fun hne => ?_
  refine .bind (Unlocked.acquire fun c₃ hd₃ hg₃ => .bind ?_)
  replace hg₃ : Good L S c₃ := hg₃
  have hd := N.trans hd₁ (N.trans hd₂ hd₃)
  have hw₃ := hw.drift (N.drift hd)
  have hterm₃ : (c₃.hist p).Terminates status := by rwa [(N.drift hd).hist]
  have hip : S.init ≠ p := fun h => hne (by rw [h])
  refine reparentLoop_runs hw₃.cproc hg₃.initproc hip slots (.refl hg₃)
    (fun i hi => absurd (List.mem_finRange i) hi) fun c₄ h₄ hdone =>
      .bind (Locked.getCore (.bind ?_))
  -- a running process other than `init` has a parent
  have hself := h₄.self hg₃.kin (hg₃.state_running hw₃.cproc) hw₃.chan
  obtain ⟨j, hj⟩ : ∃ j, (c₃.procs p).parent = some j := by
    refine Option.ne_none_iff_exists'.mp fun hnone => ?_
    have hrun := hg₃.state_running hw₃.cproc
    rcases hg₃.kin.orphan p hnone with h | h | h
    · exact hip h.symm
    · rw [hrun] at h
      cases h
    · rw [hrun] at h
      cases h
  rw [hself, hj]
  have h₅ := h₄.wakeAll ((some j).map Chan.proc)
  refine Locked.wakeup (by simp) (by simp) (.bind (Locked.acquire (by simp) (.bind (Locked.modCore
    (.bind (Locked.release_outer (by simp) ?_))))))
  have hself₅ := h₅.self hg₃.kin (hg₃.state_running hw₃.cproc) hw₃.chan
  have hgood := hg₃.exit hw₃ hip h₅ (fun i => ?_) (fun i j' hj' => ?_) hterm₃
  · refine Locked.sched (p := p) (l := .schedulerBack p) ?_ ?_ ?_ ⟨⟨⟨b, rfl⟩, ?_, ?_⟩, ?_⟩
    · obtain ⟨procs, l, h⟩ := h₅.rest
      rw [h]
      exact hw₃.cproc
    · simp [Core.emit]
    · obtain ⟨procs, l, h⟩ := h₅.rest
      rw [h]
      exact hg₃.home p hw₃.cproc
    · rwa [Core.idle_exit]
    · refine (congrArg Core.Complete (Core.idle_exit _ p status)).mpr ?_
      exact Core.forall_setProc (P := fun _ pr => pr.state ≠ .used) (by simp [Proc.zombie])
        fun i _ hu => hw₃.complete i ((h₅.steady i).used.mp hu)
    · refine (hsp.trans (N.drift hd).spares).trans (.of_eq ?_ ?_)
      · obtain ⟨procs, l, h⟩ := h₅.rest
        rw [h]
        rfl
      · exact (congrArg Core.spaces (Core.idle_exit _ p status)).trans
          (h₅.exit_spaces _ (hg₃.state_running hw₃.cproc))
  · rw [(c₄.tame_wakeAll _ i).parent]
    exact hdone i
  · rw [hself₅, hj, Option.some.injEq] at hj'
    exact hj' ▸ c₄.wakeAll_chan_ne (.proc j) i

end OsKernel
