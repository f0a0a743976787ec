import OsKernel.Run.Calls
import OsKernel.Run.LifeCycle

/-!
# Processes that do not run

Confinement says what a piece of one system call leaves alone. Here whole runs are looked at: other
processes make any number of system calls, compute in user mode and write to whatever their page
tables let them write to, fork, load programs, exit and are reaped, and interrupts are handled in
between. A process that does not run meanwhile finds its memory, its page table and its trapframe as
it left them. It cannot be freed either while it is to be resumed, and it goes on at the label that
it has saved.

A run is cut into legs. Each leg leaves alone the process that does not run, and `Spares` composes.
-/

namespace OsKernel

variable {L : Layout} {image : Mem} {fails : ℕ → Bool} {S : Site} {N : Env} {a b : Label}
  {j p : Slot} {s t : K} {x : KernelM Label}

/-- The process in slot `j` does not run. -/
structure K.Away (j : Slot) (s : K) : Prop where
  cproc : s.core.cproc ≠ some j
  live : (s.core.procs j).state ≠ .unused

/-! ### What a leg leaves alone -/

/-- Without a process there is only the scheduler, which leaves everybody alone. -/
theorem kernelCode_idle (hq : ¬N.Quiet) (hcode : kernelCode L a = some x)
    (hpre : Pre L S (N.discipline L S) a s) (hidle : s.core.cproc = none) :
    (N.discipline L S).wp L x (fun _ t => Spares (fun _ => False) s.core t.core) s := by
  have hbusy : ∀ {p : Slot}, s.core.cproc ≠ some p := by
    simp [hidle]
  have hends : ∀ {h₀ : Hart} {μ : Mode}, Mode.At L (N.discipline L S) h₀ μ s →
      Runs L S N h₀ x μ s.core (Ends L S (fun _ => False) s.core) →
      (N.discipline L S).wp L x (fun _ t => Spares (fun _ => False) s.core t.core) s := by
    intro h₀ μ hμ hx
    refine Discipline.wp_mono ?_ (hx s hμ rfl)
    rintro a u - ⟨μ', -, -, hsp⟩
    exact hsp
  rcases hpre with ⟨h₀, μ, -, hμ, hlabel⟩ | htrap
  · cases a with
    | scheduler =>
      obtain ⟨⟨b, rfl⟩, -, hc⟩ := hlabel
      cases hcode
      refine hends hμ (.bind (Unlocked.intrOn hq fun c' hd _ =>
        does_pure ⟨⟨⟨true, rfl⟩, ?_, ?_⟩, (N.drift hd).spares⟩))
      · exact (N.drift hd).cproc.trans hidle
      · exact hc.drift (N.drift hd)
    | schedulerScan i found =>
      obtain ⟨⟨b, rfl⟩, -, hc⟩ := hlabel
      cases hcode
      exact hends hμ (schedulerScan_ends i found hidle hc (.refl _))
    | schedulerBack p =>
      obtain ⟨⟨b, rfl⟩, hg, hc⟩ := hlabel
      cases hcode
      exact hends hμ (schedulerBack_ends hg hc (.refl _))
    -- at every other label a process has the CPU
    | forkret =>
      obtain ⟨p, -, -, hw, -⟩ := hlabel
      exact absurd hw.cproc hbusy
    | sleepBack p ia k => exact absurd hlabel.2.2.1.cproc hbusy
    | awake p k => exact absurd hlabel.2.1.cproc hbusy
    | kwait p addr => exact absurd hlabel.2.2.1.cproc hbusy
    | consoleread p dst n target => exact absurd hlabel.2.2.1.cproc hbusy
    | consolereadWait p dst n target => exact absurd hlabel.2.2.1.cproc hbusy
    | consolewrite p src n i => exact absurd hlabel.2.1.cproc hbusy
    | sysret p v => exact absurd hlabel.2.1.cproc hbusy
    | usertrapTail p => exact absurd hlabel.2.1.cproc hbusy
    | _ => exact absurd hlabel id
  · cases a with
    | userret satp =>
      obtain ⟨-, -, -, -, -, p, hr, -⟩ := htrap
      exact absurd hr.cproc hbusy
    | user => cases hcode
    | vector =>
      obtain ⟨-, p, t, hr, -⟩ := htrap
      exact absurd hr.cproc hbusy
    | usertrap =>
      obtain ⟨-, p, t, hr, -⟩ := htrap
      exact absurd hr.cproc hbusy
    | _ => exact absurd htrap id

/-- The processes a leg of the kernel may change: the running one, and the children it reaps. -/
def Core.Changes (c c' : Core) (i : Slot) : Prop := ∃ p, c.cproc = some p ∧ Reaps p c c' i

theorem kernelCode_spares (hq : ¬N.Quiet) (hcode : kernelCode L a = some x)
    (hI : (N.discipline L S).Inv L s) (hpre : Pre L S (N.discipline L S) a s) :
    (N.discipline L S).wp L x
      (fun _ t => Spares (s.core.Changes t.core) s.core t.core) s := by
  cases hcp : s.core.cproc with
  | none =>
    refine Discipline.wp_mono ?_ (kernelCode_idle hq hcode hpre hcp)
    exact fun _ _ _ h => h.mono fun _ => False.elim
  | some p =>
    refine Discipline.wp_mono ?_ (kernelCode_arrives hq hcode hI hpre)
    exact fun _ _ _ h => (h.2 p hcp).mono fun i hi => ⟨p, hcp, hi⟩

theorem Core.Changes.drift {c c' c'' : Core} {i : Slot} (hd : Drift c' c'') (h : c.Changes c' i) :
    c.Changes c'' i := by
  obtain ⟨p, hp, hi⟩ := h
  refine ⟨p, hp, hi.imp_right ?_⟩
  rintro ⟨hz, hpar, hu⟩
  exact ⟨hz, hpar, (hd.state_iff (by decide) (by decide)).mpr hu⟩

theorem spares_of_segment
    (hx : (Env.interrupts.discipline L S).wp L x
      (fun _ t => Spares (s.core.Changes t.core) s.core t.core) s)
    (hrun : Relation.ReflTransGen (kernel L).segment.Micro ⟨s, x, []⟩ ⟨t, .ret b, []⟩) :
    Spares (s.core.Changes t.core) s.core t.core := by
  refine segment_ends hx (fun a u v hu hint => ?_) hrun
  have hd : Drift u.core v.core := hint.after.drift
  exact (hu.mono fun i hi => hi.drift hd).trans hd.spares

/-- User code changes its own memory only. -/
theorem UserStep.spares (hI : (Env.interrupts.discipline L S).Inv L s)
    (hpre : Pre L S (Env.interrupts.discipline L S) a s) (h : UserStep (a, s) (b, t)) :
    Spares (s.core.Changes t.core) s.core t.core := by
  cases h with
  | @compute _ m' regs pc hm =>
    obtain ⟨_, _, _, _, hfalse⟩ | ⟨hborder, -, p, hready, hsatp⟩ := hpre
    · exact absurd hfalse id
    have hg : Good L S s.core := hI.2 hborder.noff
    obtain ⟨o, hsp⟩ := hg.spaces
    have hspace := hg.spaces_running hready.cproc
    obtain ⟨hd, -, hlt⟩ := hsp.pagetable_lt hspace
    rw [hsatp] at hm
    have hwrite := hm.userWrite hsp.inv.tables hd
      (hlt.trans_le (L.phystop_le.trans (by decide))) (hsp.owned p _ hspace).root
    obtain ⟨-, hkept, -⟩ := hsp.procWrite hspace hwrite
    have hspares : Spares (· = p) s.core (s.core.setMem m') := hkept.spares fun _ _ => rfl
    exact hspares.mono fun i hi => ⟨p, hready.cproc, .inl hi⟩
  | @trap _ i hi scause stval irq =>
    obtain ⟨claim, rx, input, hdevices⟩ := irq.devices_eq scause
      (s.core.emit (.trap i s.hart.regs s.hart.pc scause))
    rw [hdevices]
    exact .of_eq rfl rfl

/-- **A leg** leaves alone a process that does not run. -/
theorem leg_spares (hI : (Env.interrupts.discipline L S).Inv L s)
    (hpre : Pre L S (Env.interrupts.discipline L S) a s)
    (hleg : (kernel L).Leg (a, s) (b, t)) (haway : s.Away j)
    (hlive : (t.core.procs j).state ≠ .unused) : Spares (· ≠ j) s.core t.core := by
  have hspares : Spares (s.core.Changes t.core) s.core t.core := by
    cases hleg with
    | run hp hrun =>
      rcases hp with rfl | hbody
      · exact spares_of_segment (Discipline.wp_pure hI (.refl _)) hrun
      · exact spares_of_segment (kernelCode_spares (N := .interrupts) id hbody hI hpre) hrun
    | env h => exact h.spares hI hpre
  refine hspares.mono ?_
  rintro i ⟨p, hp, rfl | ⟨-, -, hunused⟩⟩ rfl
  · exact haway.cproc hp
  · exact hlive hunused

/-! ### Whole runs -/

theorem Reachable.legs (hs : Reachable L image fails ⟨s, .ret a, []⟩)
    (hrun : Relation.ReflTransGen (kernel L).Leg (a, s) (b, t)) :
    Reachable L image fails ⟨t, .ret b, []⟩ := hs.step (System.micro_of_legs hrun)

/-- What becomes of a process that is to be resumed while it does not run: it is left alone, and it
is still to be resumed or runs again at the label it has saved. -/
structure Resumes (j : Slot) (s : K) (b : Label) (t : K) : Prop where
  spares : Spares (· ≠ j) s.core t.core
  next : t.core.cproc ≠ some j ∧ (s.core.procs j).Undisturbed (t.core.procs j) ∨
    t.core.cproc = some j ∧ (t.core.procs j).state = .running ∧
      (s.core.procs j).context = some b

/-- **A leg** while the process does not run. -/
theorem LegEnds.resumes (h : LegEnds a s b t) (hs : Reachable L image fails ⟨s, .ret a, []⟩)
    (haway : s.core.cproc ≠ some j) (hj : (s.core.procs j).Suspended) :
    t.core.cproc ≠ some j ∧ (s.core.procs j).Undisturbed (t.core.procs j) ∨
      t.core.cproc = some j ∧ (t.core.procs j).state = .running ∧
        (s.core.procs j).context = some b := by
  have hsteady : SteadyStep s t → t.core.cproc ≠ some j ∧
      (s.core.procs j).Undisturbed (t.core.procs j) := fun h =>
    ⟨fun ht => haway (h.cproc.symm.trans ht), h.slot j⟩
  cases h with
  | rest hb h => exact .inl (hsteady h)
  | user h => exact .inl (hsteady h.steady)
  | round ha hb h => exact .inl (hsteady h)
  | process ha h hb =>
    obtain ⟨p, hp⟩ := hs.busy ha
    have hjp : j ≠ p := by
      rintro rfl
      exact haway hp
    obtain ⟨hp', hu⟩ := workSteps_undisturbed h hp hjp hj
    exact .inl ⟨by simp [hp', hjp.symm], hu⟩
  | scan ha hidle h =>
    cases h with
    | skip hi hst hidle' hb hrest => exact .inl ⟨by simp [hidle'], hrest j⟩
    | turn hi hp hst hctx _ hrest =>
      by_cases hji : j = ⟨_, hi⟩
      · subst hji
        exact .inr ⟨hp, hst, hctx⟩
      · exact .inl ⟨fun ht => hji (Option.some.inj (ht.symm.trans hp)), hrest j hji⟩
    | wrap hi hidle' hb hrest => exact .inl ⟨by simp [hidle'], hrest j⟩
  | back ha hp h => exact .inl ⟨by simp [h.1], h.2.2 j⟩

/-- **A leg** while the process does not run, in full. -/
theorem leg_resumes (hs : Reachable L image fails ⟨s, .ret a, []⟩)
    (hleg : (kernel L).Leg (a, s) (b, t)) (haway : s.core.cproc ≠ some j)
    (hj : (s.core.procs j).Suspended) : Resumes j s b t := by
  have hnext := (leg_ends hs hs.atPlace hleg).resumes hs haway hj
  have hlive : (t.core.procs j).state ≠ .unused := by
    rcases hnext with ⟨-, hu⟩ | ⟨-, hst, -⟩
    · rcases hu.suspended hj with h | h <;> simp [h]
    · simp [hst]
  have hslive : (s.core.procs j).state ≠ .unused := by
    rcases hj with h | h <;> simp [h]
  obtain ⟨kpt, hI, hpre⟩ := hs.pre
  exact ⟨leg_spares hI hpre hleg ⟨haway, hslive⟩ hlive, hnext⟩

theorem legs_resume {c d : Label × K} (hs : Reachable L image fails ⟨c.2, .ret c.1, []⟩)
    (hlegs : Relation.ReflTransGen ((kernel L).LegFrom fun s => s.core.cproc ≠ some j) c d)
    (haway : c.2.core.cproc ≠ some j) (hj : (c.2.core.procs j).Suspended) :
    Resumes j c.2 d.1 d.2 := by
  induction hlegs with
  | refl => exact ⟨.refl _, .inl ⟨haway, .refl _⟩⟩
  | @tail d e hlegs hleg ih =>
    obtain ⟨hleg, hd⟩ := hleg
    -- the leg begins while the process does not run
    obtain ⟨-, hu⟩ | ⟨hcp, -⟩ := ih.next
    swap
    · exact absurd hcp hd
    have hreach := hs.legs (Relation.ReflTransGen.mono (fun _ _ h => h.1) _ _ hlegs)
    have hnext := leg_resumes hreach hleg hd (hu.suspended hj)
    refine ⟨ih.spares.trans hnext.spares, ?_⟩
    rcases hnext.next with ⟨he, hu'⟩ | ⟨he, hst, hctx⟩
    · exact .inl ⟨he, hu.trans hu'⟩
    · exact .inr ⟨he, hst, hu.context.symm.trans hctx⟩

/-- **Suspended processes.** Whatever the other processes, the scheduler and the interrupt handlers
do, from the moment a process is switched out until it runs again its page table, its memory and its
trapframe are untouched, it is neither freed nor terminated, and nothing but a `wakeup` changes its
state; and when it is dispatched the kernel goes on at the label it has saved. -/
theorem suspended_until_dispatched (hs : Reachable L image fails ⟨s, .ret a, []⟩)
    (hj : (s.core.procs j).Suspended) (haway : s.core.cproc ≠ some j)
    (hrun : Relation.ReflTransGen ((kernel L).MicroFrom fun s => s.core.cproc ≠ some j)
      ⟨s, .ret a, []⟩ ⟨t, .ret b, []⟩) :
    s.core.Untouched t.core j ∧
      (t.core.cproc ≠ some j ∧ (s.core.procs j).Undisturbed (t.core.procs j) ∨
        t.core.cproc = some j ∧ (t.core.procs j).state = .running ∧
          (s.core.procs j).context = some b) := by
  obtain ⟨hspares, hnext⟩ := legs_resume hs (System.legs_of_micro hrun) haway hj
  obtain ⟨S, o, -, hsp⟩ := hs.spaces (.inr ⟨a, rfl, rfl⟩)
  have hlive : (s.core.procs j).state ≠ .unused := by
    rcases hj with h | h <;> simp [h]
  exact ⟨hspares.untouched hsp hlive (by simp), hnext⟩

/-- A process stores a byte and traps while its parent sleeps; and a process that waits for the CPU
gets it. -/
theorem suspended_until_dispatched_virt :
    (∃ (s t : K) (i : Slot) (q : ℕ),
      Reachable .virt shImage (fun _ => false) ⟨s, .ret .user, []⟩ ∧ s.core.cproc = some i ∧
      i ≠ 0 ∧ (s.core.procs 0).state = .sleeping ∧ s.core.MapsUser 0 0 q ∧
      Relation.ReflTransGen ((kernel .virt).MicroFrom fun s => s.core.cproc ≠ some 0)
        ⟨s, .ret .user, []⟩ ⟨t, .ret .vector, []⟩ ∧
      s.core.Untouched t.core 0 ∧ (s.core.procs 0).Undisturbed (t.core.procs 0)) ∧
    ∃ (s t : K) (b : Label) (q : ℕ),
      Reachable .virt shImage (fun _ => false) ⟨s, .ret (.schedulerScan 0 false), []⟩ ∧
      (s.core.procs 0).state = .runnable ∧ s.core.MapsUser 0 0 q ∧
      Relation.ReflTransGen ((kernel .virt).MicroFrom fun s => s.core.cproc ≠ some 0)
        ⟨s, .ret (.schedulerScan 0 false), []⟩ ⟨t, .ret b, []⟩ ∧
      s.core.Untouched t.core 0 ∧ t.core.cproc = some 0 ∧ (t.core.procs 0).state = .running ∧
      (s.core.procs 0).context = some b := by
  constructor
  · -- the child stores a byte and traps while its parent sleeps in `wait`
    obtain ⟨s, i, hs, hpair, hcp, -, hzero⟩ := exists_parent_waits_virt
    have haway : s.core.cproc ≠ some 0 := by simpa [hcp] using hpair.ne
    have hsize : 16 < (s.core.procs i).sz :=
      lt_of_lt_of_le (by decide) (hpair.size i (.inr rfl))
    obtain ⟨u, hstore, hcore⟩ := hs.stores hcp hsize 1
    have hcp' : u.core.cproc = some i := by rw [hcore]; exact hcp
    have haway' : u.core.cproc ≠ some 0 := by simpa [hcp'] using hpair.ne
    have hrun : Relation.ReflTransGen ((kernel .virt).MicroFrom fun s => s.core.cproc ≠ some 0)
        ⟨s, .ret .user, []⟩ ⟨_, .ret .vector, []⟩ :=
      .head ⟨.env hstore, haway⟩ (.single ⟨.env (.trap hcp' 8 0 .timer), haway'⟩)
    obtain ⟨q, hq⟩ := hs.exists_mapsUser (.inr ⟨.user, rfl, rfl⟩) (w := 0) (i := 0)
      (by rw [hzero.state]; decide) (lt_of_lt_of_le (by decide) (hpair.size 0 (.inl rfl)))
    obtain ⟨huntouched, ⟨-, hsame⟩ | ⟨hcp'', -⟩⟩ :=
      suspended_until_dispatched hs (.inr hzero.state) haway hrun
    · exact ⟨s, _, i, q, hs, hcp, hpair.ne, hzero.state, hq, hrun, huntouched, hsame⟩
    · exact absurd hcp'' haway'
  · obtain ⟨s, i, hs, -, -, hsize, hzero, -, b, hctx⟩ := exists_both_ready_virt
    have haway : s.core.cproc ≠ some 0 := by simp [hs.idle]
    obtain ⟨d, t, hpath, hstep, hcore, hcore'⟩ := hs.dispatch_micro (i := 0) hzero hctx
    have haway' : d.state.core.cproc ≠ some 0 := by rw [hcore]; exact haway
    have hrun := hpath.tail ⟨hstep, haway'⟩
    obtain ⟨q, hq⟩ := hs.exists_mapsUser (.inr ⟨_, rfl, rfl⟩) (w := 0) (i := 0)
      (by rw [hzero]; decide) (lt_of_lt_of_le (by decide) hsize)
    have hcp : t.core.cproc = some 0 := by rw [hcore']; rfl
    obtain ⟨huntouched, ⟨hno, -⟩ | hnext⟩ :=
      suspended_until_dispatched hs (.inl hzero) haway hrun
    · exact absurd hcp hno
    · exact ⟨s, t, _, q, hs, hzero, hq, hrun, huntouched, hnext⟩

end OsKernel
