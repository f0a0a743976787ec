import OsKernel.Boot.Main

/-!
# States between sections

A state is *between sections* if no lock is held and no `push_off` section is open, or if the hart
is between two programs, in which case the next one may well begin with a lock held. Inside a
critical section interrupts are off and nothing but the section itself can look at the data of the
kernel; the C code sets the fields of a process one after the other there.
-/

namespace OsKernel

variable {L : Layout} {image : Mem} {fails : ℕ → Bool} {d : System.Config K Panic Label}
  {S : Site} {a : Label} {s : K}

/-- The hart is between two programs. -/
def System.Config.AtLabel (d : System.Config K Panic Label) : Prop :=
  ∃ a, d.main = .ret a ∧ d.irqs = []

/-- No critical section is open, or the hart is between two programs. -/
def System.Config.BetweenSections (d : System.Config K Panic Label) : Prop :=
  d.state.hart.noff = 0 ∨ d.AtLabel

/-- The hart is in the switch from a process to the scheduler. -/
def System.Config.Switching (d : System.Config K Panic Label) : Prop :=
  ∃ p, d.main = .ret (.schedulerBack p)

/-- `cpus[0].proc = cp`. -/
def Core.withProc (c : Core) (cp : Option Slot) : Core := { c with cproc := cp }

/-- At a label the data structures are good, in the switch to the scheduler once `cpus[0].proc` is
cleared. -/
theorem Pre.good (hI : (Env.interrupts.discipline L S).Inv L s)
    (h : Pre L S (Env.interrupts.discipline L S) a s) : ∃ cp, Good L S (s.core.withProc cp) ∧
      s.core.Complete ∧ (cp = s.core.cproc ∨ cp = none ∧ ∃ p, a = .schedulerBack p) := by
  have hsame : Good L S s.core → s.core.Complete → ∃ cp, Good L S (s.core.withProc cp) ∧
      s.core.Complete ∧ (cp = s.core.cproc ∨ cp = none ∧ ∃ p, a = .schedulerBack p) :=
    fun hg hc => ⟨s.core.cproc, hg, hc, .inl rfl⟩
  have hborder : ∀ {p : Slot}, Border L s.hart → Ready L S p s.core → _ := fun hb hr =>
    hsame (hI.2 hb.noff) hr.complete
  rcases h with ⟨h₀, μ, -, hμ, hl⟩ | ht
  · have hunlocked : ∀ {b : Bool}, μ = .unlocked b → Good L S s.core := by
      rintro b rfl
      exact hμ.unlocked.good
    cases a with
    | scheduler => exact hsame (hunlocked hl.1.choose_spec) hl.2.2
    | schedulerScan i found => exact hsame (hunlocked hl.1.choose_spec) hl.2.2
    | schedulerBack p => exact ⟨none, hl.2.1, hl.2.2, .inr ⟨rfl, p, rfl⟩⟩
    | forkret =>
      obtain ⟨p, -, hg, hw, -⟩ := hl
      exact hsame hg hw.complete
    | sleepBack p ia k => exact hsame hl.2.1 hl.2.2.1.complete
    | exitBack => exact absurd hl id
    | awake p k => exact hsame (hunlocked hl.1.choose_spec) hl.2.1.complete
    | kwait p addr => exact hsame hl.2.1 hl.2.2.1.complete
    | consoleread p dst n target => exact hsame hl.2.1 hl.2.2.1.complete
    | consolereadWait p dst n target => exact hsame hl.2.1 hl.2.2.1.complete
    | consolewrite p src n i => exact hsame (hunlocked hl.1.choose_spec) hl.2.1.complete
    | sysret p v => exact hsame (hunlocked hl.1.choose_spec) hl.2.1.complete
    | usertrapTail p => exact hsame (hunlocked hl.1.choose_spec) hl.2.1.complete
    | userret satp => exact absurd hl id
    | user => exact absurd hl id
    | vector => exact absurd hl id
    | usertrap => exact absurd hl id
  · cases a with
    | userret satp =>
      obtain ⟨hb, -, -, -, -, p, hr, -⟩ := ht
      exact hborder hb hr
    | user =>
      obtain ⟨hb, -, p, hr, -⟩ := ht
      exact hborder hb hr
    | vector =>
      obtain ⟨hb, p, t, hr, -⟩ := ht
      exact hborder hb hr
    | usertrap =>
      obtain ⟨hb, p, t, hr, -⟩ := ht
      exact hborder hb hr
    | _ => exact absurd ht id

/-- The data structures of the running kernel are good while no lock is held. -/
theorem Reachable.good (hd : Reachable L image fails d) (hnoff : d.state.hart.noff = 0) :
    ∃ kpt, Good L (bootSite image fails kpt) d.state.core := by
  obtain ⟨kpt, hsafe⟩ := hd.safe
  exact ⟨kpt, hsafe.inv.2 hnoff⟩

/-- **The data structures between sections.** -/
theorem Safe.between (hd : Safe L S (kernel L) d) (hb : d.BetweenSections) :
    ∃ cp, Good L S (d.state.core.withProc cp) ∧
      (cp = d.state.core.cproc ∨ cp = none ∧ d.Switching) := by
  rcases hb with hnoff | ⟨a, hmain, hirqs⟩
  · exact ⟨d.state.core.cproc, hd.inv.2 hnoff, .inl rfl⟩
  · obtain ⟨s, main, irqs⟩ := d
    obtain rfl : main = .ret a := hmain
    obtain rfl : irqs = [] := hirqs
    rcases hd with ⟨-, hI, hpre⟩ | ⟨_, hone, -⟩
    · obtain ⟨cp, hg, -, hcp⟩ := hpre.good hI
      refine ⟨cp, hg, hcp.imp_right fun ⟨hnone, p, hp⟩ => ⟨hnone, p, ?_⟩⟩
      rw [hp]
    · cases hone

theorem Reachable.between (hd : Reachable L image fails d) (hb : d.BetweenSections) :
    ∃ kpt cp, Good L (bootSite image fails kpt) (d.state.core.withProc cp) ∧
      (cp = d.state.core.cproc ∨ cp = none ∧ d.Switching) := by
  obtain ⟨kpt, hsafe⟩ := hd.safe
  exact ⟨kpt, hsafe.between hb⟩

/-- **Memory between sections.** -/
theorem Reachable.spaces (hd : Reachable L image fails d) (hb : d.BetweenSections) :
    ∃ (S : Site) (o : Owners), d.state.core.kernelPagetable = S.kpt ∧
      Spaces L S.image S.kpt d.state.core.vm d.state.core.spaces o noRole := by
  obtain ⟨kpt, cp, hg, -⟩ := hd.between hb
  obtain ⟨o, hsp⟩ := hg.spaces
  exact ⟨_, o, hg.kernel, hsp⟩

/-- At labels no process is half made. -/
theorem Reachable.complete (hd : Reachable L image fails d) (hl : d.AtLabel) :
    d.state.core.Complete := by
  obtain ⟨s, main, irqs⟩ := d
  obtain ⟨a, hmain, hirqs⟩ := hl
  obtain rfl : main = .ret a := hmain
  obtain rfl : irqs = [] := hirqs
  obtain ⟨kpt, hI, hpre⟩ := hd.pre
  obtain ⟨-, -, hc, -⟩ := hpre.good hI
  exact hc

end OsKernel
