import OsKernel.Run.Memory
import OsKernel.Run.Zombies

/-!
# Processes in every run

What the invariant of the kernel says about the process table: who runs and who sleeps, who is whose
parent, which pids there are, and how locks and interrupts stand.
-/

namespace OsKernel

variable {L : Layout} {image : Mem} {fails : ℕ → Bool} {d e : System.Config K Panic Label}
  {S : Site} {c : Core} {i j p : Slot} {a : Label} {s : K}

/-! ### Locks and interrupts -/

/-- The panics of `spinlock.c` and of `sched`, and a lock that is never released. -/
def lockPanics : List Panic :=
  [.acquire, .release, .popOff, .popOffInterruptible, .schedLock, .schedLocks, .schedRunning,
    .schedInterruptible, .hang]

/-- **Lock discipline.** In every state, `noff` counts the held locks and the open `push_off`
sections, `SIE` is clear while it is positive, and no panic about locks is reached. -/
theorem lock_discipline (hd : Reachable L image fails d) :
    d.state.hart.noff = d.state.hart.held.card + d.state.hart.opens ∧
    (0 < d.state.hart.noff → d.state.hart.sie = false) ∧
    ∀ e ∈ lockPanics, d.panicked ≠ some e := by
  obtain ⟨kpt, hsafe⟩ := hd.safe
  refine ⟨hsafe.inv.1.count, hsafe.inv.1.masked, fun e he hpanic => ?_⟩
  rcases hsafe.panicked hpanic with rfl | ⟨-, rfl | rfl⟩ <;> simp [lockPanics] at he

/-- A process holds a lock. -/
theorem lock_discipline_virt : ∃ s : K,
    Reachable .virt shImage (fun _ => false) ⟨s, .ret (.kwait 0 8), []⟩ ∧ s.hart.held = {.wait} ∧
    s.hart.noff = s.hart.held.card + s.hart.opens ∧ 0 < s.hart.noff ∧ s.hart.sie = false ∧
    ∀ e ∈ lockPanics,
      (⟨s, .ret (.kwait 0 8), []⟩ : System.Config K Panic Label).panicked ≠ some e := by
  obtain ⟨s, i, hs, -⟩ := exists_zombie_virt
  have hheld : s.hart.held = {.wait} := by
    obtain ⟨_, -, ⟨_, _, -, hμ, ⟨_, rfl⟩, -⟩ | hno⟩ := hs.pre
    · exact hμ.held
    · exact absurd hno id
  obtain ⟨hcount, hmasked, hpanics⟩ := lock_discipline hs
  have hnoff : 0 < s.hart.noff := by
    rw [hcount, hheld]
    exact Nat.lt_add_right _ Nat.one_pos
  exact ⟨s, hs, hheld, hcount, hnoff, hmasked hnoff, hpanics⟩

/-! ### Sleeping for a child -/

/-- **No exit is missed.** A process that sleeps in `kwait` has a child, and none of its children
has terminated. -/
theorem sleeping_parent_misses_no_exit (hd : Reachable L image fails d) (hb : d.BetweenSections) :
    ∀ i, (d.state.core.procs i).state = .sleeping → (d.state.core.procs i).chan = some (.proc i) →
      (∃ j, (d.state.core.procs j).parent = some i) ∧
      ∀ j, (d.state.core.procs j).parent = some i → (d.state.core.procs j).state ≠ .zombie := by
  obtain ⟨kpt, cp, hg, -⟩ := hd.between hb
  intro i _ hchan
  exact (hg.waiting i i hchan).2

/-- The first process sleeps in `kwait`, and its child runs. -/
theorem sleeping_parent_misses_no_exit_virt : ∃ s : K,
    Reachable .virt shImage (fun _ => false) ⟨s, .ret .user, []⟩ ∧
    (s.core.procs 0).state = .sleeping ∧ (s.core.procs 0).chan = some (.proc 0) ∧
    (∃ j, (s.core.procs j).parent = some 0) ∧
    ∀ j, (s.core.procs j).parent = some 0 → (s.core.procs j).state ≠ .zombie := by
  obtain ⟨s, i, hs, -, -, -, hzero⟩ := exists_parent_waits_virt
  exact ⟨s, hs, hzero.state, hzero.chan,
    sleeping_parent_misses_no_exit hs (.inr ⟨.user, rfl, rfl⟩) 0 hzero.state hzero.chan⟩

/-! ### The tree of processes -/

/-- `j` is the parent of `i`. -/
def Core.ParentOf (c : Core) (i j : Slot) : Prop := (c.procs i).parent = some j

/-- Following the links of a process that has a parent leads to `init`. -/
theorem Kin.reaches {init : Slot} {H : Slot → History} (h : Kin init c.procs H)
    (hall : ∀ i, (c.procs i).state ≠ .used) :
    ∀ i, (c.procs i).state ≠ .unused → Relation.ReflTransGen c.ParentOf i init := by
  obtain ⟨rank, -, hrank⟩ := h.rank
  -- the rank falls with every link
  have hclimb : ∀ n i, rank i ≤ n → (c.procs i).state ≠ .unused →
      Relation.ReflTransGen c.ParentOf i init := by
    intro n
    induction n with
    | zero =>
      intro i hi hlive
      cases hpar : (c.procs i).parent with
      | none =>
        obtain rfl := (h.orphan i hpar).resolve_right (not_or.mpr ⟨hlive, hall i⟩)
        exact .refl
      | some j =>
        have := hrank i j hpar
        omega
    | succ n ih =>
      intro i hi hlive
      cases hpar : (c.procs i).parent with
      | none =>
        obtain rfl := (h.orphan i hpar).resolve_right (not_or.mpr ⟨hlive, hall i⟩)
        exact .refl
      | some j =>
        have hlt := hrank i j hpar
        have hstarted := h.parent i j hpar
        exact .head hpar (ih j (by omega) (hstarted.ne (by decide) (by decide) (by decide)))
  exact fun i => hclimb (rank i) i le_rfl

/-- **The processes form a tree.** Between the operations of the kernel `initproc` is there and has
not terminated, every other process has a parent that has not terminated, the links lead to
`initproc`, and an unused slot has no parent. -/
theorem process_tree (hd : Reachable L image fails d) (hl : d.AtLabel) :
    ∃ init, d.state.core.initproc = some init ∧
      (d.state.core.procs init).state ≠ .unused ∧ (d.state.core.procs init).state ≠ .zombie ∧
      (∀ i, i ≠ init → (d.state.core.procs i).state ≠ .unused → ∃ j, d.state.core.ParentOf i j ∧
        (d.state.core.procs j).state ≠ .unused ∧ (d.state.core.procs j).state ≠ .zombie) ∧
      (∀ i, (d.state.core.procs i).state ≠ .unused →
        Relation.ReflTransGen d.state.core.ParentOf i init) ∧
      ∀ i, (d.state.core.procs i).state = .unused → (d.state.core.procs i).parent = none := by
  obtain ⟨kpt, cp, hg, -⟩ := hd.between (.inr hl)
  have hall := hd.complete hl
  have hkin : Kin 0 d.state.core.procs _ := hg.kin
  have hlive : ∀ {j}, (d.state.core.procs j).Started →
      (d.state.core.procs j).state ≠ .unused ∧ (d.state.core.procs j).state ≠ .zombie :=
    fun h => ⟨h.ne (by decide) (by decide) (by decide), h.ne (by decide) (by decide) (by decide)⟩
  obtain ⟨hinit, hinit'⟩ := hlive hkin.init_started
  refine ⟨0, hg.initproc, hinit, hinit', fun i hi hlive' => ?_, hkin.reaches hall, fun i hi => ?_⟩
  · cases hpar : (d.state.core.procs i).parent with
    | none =>
      rcases hkin.orphan i hpar with h | h | h
      · exact absurd h hi
      · exact absurd h hlive'
      · exact absurd h (hall i)
    | some j => exact ⟨j, hpar, hlive (hkin.parent i j hpar)⟩
  · exact ((hg.slot i).blank hi).parent

/-- The first process has forked. -/
theorem process_tree_virt : ∃ (s : K) (i : Slot),
    Reachable .virt shImage (fun _ => false) ⟨s, .ret .user, []⟩ ∧ i ≠ 0 ∧ s.core.ParentOf i 0 ∧
    ∃ init, s.core.initproc = some init ∧
      (s.core.procs init).state ≠ .unused ∧ (s.core.procs init).state ≠ .zombie ∧
      (∀ i, i ≠ init → (s.core.procs i).state ≠ .unused → ∃ j, s.core.ParentOf i j ∧
        (s.core.procs j).state ≠ .unused ∧ (s.core.procs j).state ≠ .zombie) ∧
      (∀ i, (s.core.procs i).state ≠ .unused → Relation.ReflTransGen s.core.ParentOf i init) ∧
      ∀ i, (s.core.procs i).state = .unused → (s.core.procs i).parent = none := by
  obtain ⟨s, i, hs, hpair, -⟩ := exists_forked_virt
  exact ⟨s, i, hs, hpair.ne, hpair.child, process_tree hs ⟨.user, rfl, rfl⟩⟩

/-! ### The states of a process -/

/-- The fields of a slot that `freeproc` clears. -/
structure Proc.Cleared (pr : Proc) : Prop where
  pid : pr.pid = 0
  killed : pr.killed = false
  xstate : pr.xstate = 0
  chan : pr.chan = none
  sz : pr.sz = 0
  pagetable : pr.pagetable = 0
  trapframe : pr.trapframe = 0

theorem Proc.Blank.cleared {pr : Proc} (h : pr.Blank) : pr.Cleared :=
  ⟨h.pid, h.killed, h.xstate, h.chan, h.sz, h.pagetable, h.trapframe⟩

/-- The process table as the scheduler leaves it. -/
structure Core.Scheduled (c : Core) : Prop where
  running : ∀ i, (c.procs i).state = .running → c.cproc = some i
  asleep : ∀ i, (c.procs i).state = .sleeping → (c.procs i).chan ≠ none
  /-- Only between `sleep_prepare` and the end of `sleep` a process has a channel. -/
  window : ∀ i, (c.hist i).window = false → (c.procs i).chan = none
  cleared : ∀ i, (c.procs i).state = .unused → (c.procs i).Cleared

/-- **The states of the processes.** Between sections only the process `cpus[0].proc` points to is
running, and outside the switch to the scheduler it is; a process that sleeps has a channel and has
none outside `sleep`; an unused slot is cleared. Every step of the kernel leaves a zombie alone or
empties its slot inside a call of `kwait` by its parent, and so `zombie exit` is not reached. -/
theorem process_states (hd : Reachable L image fails d) :
    (d.BetweenSections → d.state.core.Scheduled ∧
      (¬d.Switching → ∀ i, d.state.core.cproc = some i → (d.state.core.procs i).state = .running)) ∧
    (∀ e, (kernel L).Micro d e → ZombieStep d.state e.state) ∧
    d.panicked ≠ some .zombieExit := by
  refine ⟨fun hb => ?_, fun e he => hd.zombieStep he, fun hpanic => ?_⟩
  · obtain ⟨kpt, cp, hg, hcp⟩ := hd.between hb
    have hslot : ∀ i, SlotOk cp d.state.core.vm.mem d.state.core.cons (d.state.core.hist i) i
        (d.state.core.procs i) := hg.slot
    refine ⟨⟨fun i hi => ?_, fun i => (hslot i).asleep, fun i hi => ?_, fun i hi => ?_⟩,
      fun hns i hi => ?_⟩
    · have hcp' := (hslot i).running.mp hi
      rcases hcp with rfl | ⟨rfl, -⟩
      · exact hcp'
      · cases hcp'
    · by_contra hchan
      have hopen := ((hslot i).chan hchan).2
      rw [hi] at hopen
      cases hopen
    · exact ((hslot i).blank hi).cleared
    · rcases hcp with rfl | ⟨-, hswitch⟩
      · exact (hslot i).running.mpr hi
      · exact absurd hswitch hns
  · obtain ⟨kpt, hsafe⟩ := hd.safe
    rcases hsafe.panicked hpanic with h | ⟨-, h | h⟩ <;> cases h

/-- The first process runs, and its child is a zombie. -/
theorem process_states_virt : ∃ (s : K) (i : Slot),
    Reachable .virt shImage (fun _ => false) ⟨s, .ret (.kwait 0 8), []⟩ ∧
    s.core.cproc = some 0 ∧ (s.core.procs i).state = .zombie ∧ s.core.Scheduled ∧
    (s.core.procs 0).state = .running ∧
    (∀ e, (kernel .virt).Micro ⟨s, .ret (.kwait 0 8), []⟩ e → ZombieStep s e.state) ∧
    (⟨s, .ret (.kwait 0 8), []⟩ : System.Config K Panic Label).panicked ≠ some .zombieExit := by
  obtain ⟨s, i, hs, -, hcp, -, -, hzombie, -⟩ := exists_zombie_virt
  obtain ⟨hbetween, hstep, hpanic⟩ := process_states hs
  obtain ⟨hscheduled, hrunning⟩ := hbetween (.inr ⟨.kwait 0 8, rfl, rfl⟩)
  refine ⟨s, i, hs, hcp, hzombie, hscheduled, hrunning ?_ 0 hcp, hstep, hpanic⟩
  rintro ⟨p, hp⟩
  cases hp

end OsKernel
