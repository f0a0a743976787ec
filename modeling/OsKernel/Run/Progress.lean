import OsKernel.Boot.FirstProcess
import OsKernel.Run.Sections
import OsKernel.Trap.Dispatch

/-!
# The kernel left alone

What the running kernel does when no interrupt comes: the scheduler finds the process that is
`RUNNABLE`, a process comes to user mode and back with a system call, and each of the calls does
what it is for. All this is about runs: from any state in which the kernel can be at a label, the
program there leads to the next label, with the data structures that are named.

Together these legs make up whole sessions, in which a process forks, waits, exits or reads a line
from the console.
-/

namespace OsKernel

variable {L : Layout} {image : Mem} {fails : ℕ → Bool} {s t : K} {a b : Label} {c : Core}
  {i j p : Slot} {h₀ : Hart} {μ : Mode} {x : KernelM Label} {Q : Label → Mode → Core → Prop}

/-! ### Legs -/

theorem Reachable.next (hs : Reachable L image fails ⟨s, .ret a, []⟩)
    (h : (kernel L).Next (a, s) (b, t)) : Reachable L image fails ⟨t, .ret b, []⟩ :=
  hs.step (System.micro_of_next (.single h))

/-- The program at a label leads to another one. -/
theorem Does.next (h : Does L .solo h₀ x μ s.core Q) (hx : kernelCode L a = some x)
    (hs : μ.At L .solo h₀ s) : ∃ b t μ', (kernel L).Next (a, s) (b, t) ∧ Q b μ' t.core := by
  obtain ⟨b, t, μ', hrun, -, hq⟩ := h.run hs rfl
  exact ⟨b, t, μ', ⟨x, hx, hrun⟩, hq⟩

/-! ### The scheduler -/

/-- A round begins. -/
theorem next_scheduler (s : K) : (kernel L).Next (.scheduler, s)
    (.schedulerScan 0 false, { s with hart := s.hart.intrOn }) := ⟨_, rfl, rfl⟩

/-- A round ends. -/
theorem next_wrap (s : K) {n : ℕ} (hn : nproc ≤ n) (found : Bool) :
    (kernel L).Next (.schedulerScan n found, s) (.scheduler, s) := by
  refine ⟨_, rfl, ?_⟩
  show (schedulerScan n found).run s = _
  rw [schedulerScan, dif_neg (Nat.not_lt.mpr hn)]
  rfl

theorem Reachable.scan {n : ℕ} {found : Bool}
    (hs : Reachable L image fails ⟨s, .ret (.schedulerScan n found), []⟩) :
    ∃ h₀ b, (Mode.unlocked b).At L .solo h₀ s ∧ s.core.cproc = none := by
  obtain ⟨kpt, -, ⟨h₀, μ, -, hμ, ⟨b, rfl⟩, hidle, -⟩ | hno⟩ := hs.pre
  · exact ⟨h₀, b, hμ.solo, hidle⟩
  · exact absurd hno id

/-- The scheduler passes a process that is not `RUNNABLE`. -/
theorem Reachable.next_skip {found : Bool}
    (hs : Reachable L image fails ⟨s, .ret (.schedulerScan i found), []⟩)
    (hi : (s.core.procs i).state ≠ .runnable) :
    ∃ t, (kernel L).Next (.schedulerScan i found, s) (.schedulerScan (i + 1) found, t) ∧
      t.core = s.core := by
  obtain ⟨h₀, b, hμ, -⟩ := hs.scan
  have hdoes : Does L .solo h₀ (schedulerScan i found) (.unlocked b) s.core fun a μ c' =>
      a = .schedulerScan (i + 1) found ∧ c' = s.core := by
    rw [schedulerScan, dif_pos i.isLt]
    refine .bind (Solo.acquire (.bind (Solo.getCore ?_)))
    rw [if_neg hi]
    exact .bind (Solo.release (does_pure ⟨rfl, rfl⟩))
  obtain ⟨_, t, _, hnext, rfl, hcore⟩ := hdoes.next (a := .schedulerScan i found) rfl hμ
  exact ⟨t, hnext, hcore⟩

/-- The scheduler gives the CPU to a process. -/
theorem Reachable.next_dispatch {found : Bool}
    (hs : Reachable L image fails ⟨s, .ret (.schedulerScan i found), []⟩)
    (hi : (s.core.procs i).state = .runnable) (hctx : (s.core.procs i).context = some b) :
    ∃ t, (kernel L).Next (.schedulerScan i found, s) (b, t) ∧ t.core = s.core.dispatch i := by
  obtain ⟨h₀, sie, hμ, -⟩ := hs.scan
  have hdoes : Does L .solo h₀ (schedulerScan i found) (.unlocked sie) s.core fun a μ c' =>
      a = b ∧ c' = s.core.dispatch i := by
    rw [schedulerScan, dif_pos i.isLt]
    refine .bind (Solo.acquire (.bind (Solo.getCore ?_)))
    rw [if_pos hi]
    refine .bind (Solo.modCore ?_)
    rw [hctx]
    exact does_pure ⟨rfl, rfl⟩
  obtain ⟨_, t, _, hnext, rfl, hcore⟩ := hdoes.next (a := .schedulerScan i found) rfl hμ
  exact ⟨t, hnext, hcore⟩

/-- The scheduler passes all processes of a part of the table. -/
theorem Reachable.skips {n : ℕ} {found : Bool}
    (hs : Reachable L image fails ⟨s, .ret (.schedulerScan n found), []⟩) (k : ℕ)
    (hk : n + k ≤ nproc)
    (hno : ∀ i : Slot, n ≤ i → i < n + k → (s.core.procs i).state ≠ .runnable) :
    ∃ t, Reachable L image fails ⟨t, .ret (.schedulerScan (n + k) found), []⟩ ∧
      t.core = s.core := by
  induction k with
  | zero => exact ⟨s, hs, rfl⟩
  | succ k ih =>
    obtain ⟨t, ht, hcore⟩ := ih (by omega) fun i hi hlt => hno i hi (by omega)
    obtain ⟨u, hnext, hcore'⟩ := ht.next_skip (i := ⟨n + k, by omega⟩)
      (by rw [hcore]; exact hno _ (Nat.le_add_right _ _) (Nat.lt_succ_self _))
    exact ⟨u, ht.next hnext, hcore'.trans hcore⟩

/-- **The scheduler finds the process that is `RUNNABLE`**, wherever it is in the table. -/
theorem Reachable.dispatches {n : ℕ} {found : Bool}
    (hs : Reachable L image fails ⟨s, .ret (.schedulerScan n found), []⟩) (hn : n ≤ nproc)
    (hj : (s.core.procs j).state = .runnable) (hctx : (s.core.procs j).context = some b)
    (honly : ∀ i, (s.core.procs i).state = .runnable → i = j) :
    ∃ t, Reachable L image fails ⟨t, .ret b, []⟩ ∧ t.core = s.core.dispatch j := by
  have hjlt := j.isLt
  -- from a position before the process, the scan comes to it
  have hup : ∀ {s' : K} {n : ℕ} {found : Bool},
      Reachable L image fails ⟨s', .ret (.schedulerScan n found), []⟩ → s'.core = s.core → n ≤ j →
      ∃ t, Reachable L image fails ⟨t, .ret b, []⟩ ∧ t.core = s.core.dispatch j := by
    intro s' n found hs' hsame hle
    obtain ⟨u, hu, hcore⟩ := hs'.skips (j - n) (by omega) fun i _ hlt hi => by
      rw [hsame] at hi
      have := congrArg Fin.val (honly i hi)
      omega
    rw [Nat.add_sub_cancel' hle] at hu
    have hcore := hcore.trans hsame
    obtain ⟨t, hnext, hdispatch⟩ := hu.next_dispatch (b := b) (by rw [hcore]; exact hj)
      (by rw [hcore]; exact hctx)
    exact ⟨t, hu.next hnext, by rw [hdispatch, hcore]⟩
  by_cases hle : n ≤ j
  · exact hup hs rfl hle
  · -- the round ends, and the next one begins
    obtain ⟨u, hu, hcore⟩ := hs.skips (nproc - n) (by omega) fun i hi _ hi' => by
      have := congrArg Fin.val (honly i hi')
      omega
    have hwrap := (hu.next (next_wrap u (by omega) found)).next (next_scheduler u)
    exact hup hwrap hcore (Nat.zero_le _)

/-- A process has switched to the scheduler. -/
theorem Reachable.next_back (hs : Reachable L image fails ⟨s, .ret (.schedulerBack p), []⟩) :
    ∃ t, (kernel L).Next (.schedulerBack p, s) (.schedulerScan (p + 1) true, t) ∧
      t.core = s.core.idle := by
  obtain ⟨kpt, -, ⟨h₀, μ, -, hμ, ⟨b, rfl⟩, -⟩ | hno⟩ := hs.pre
  swap
  · exact absurd hno id
  have hdoes : Does L .solo h₀ (schedulerBack p) (.locked {.proc p} b) s.core fun a μ c' =>
      a = .schedulerScan (p + 1) true ∧ c' = s.core.idle :=
    .bind (Solo.modCore (.bind (Solo.release (does_pure ⟨rfl, rfl⟩))))
  obtain ⟨_, t, _, hnext, rfl, hcore⟩ := hdoes.next (a := .schedulerBack p) rfl hμ.solo
  exact ⟨t, hnext, hcore⟩

/-- **The CPU goes from one process to the next.** -/
theorem Reachable.reschedules (hs : Reachable L image fails ⟨s, .ret (.schedulerBack p), []⟩)
    (hj : (s.core.procs j).state = .runnable) (hctx : (s.core.procs j).context = some b)
    (honly : ∀ i, (s.core.procs i).state = .runnable → i = j) :
    ∃ t, Reachable L image fails ⟨t, .ret b, []⟩ ∧ t.core = s.core.dispatch j := by
  obtain ⟨u, hnext, hcore⟩ := hs.next_back
  obtain ⟨t, ht, hdispatch⟩ := (hs.next hnext).dispatches (j := j) (b := b) p.isLt
    (by rw [hcore]; exact hj) (by rw [hcore]; exact hctx) (by rw [hcore]; exact honly)
  exact ⟨t, ht, by rw [hdispatch, hcore]; rfl⟩

/-! ### Sleepers -/

/-- A process that was asleep goes on. -/
theorem Reachable.next_sleepBack {ia : Bool} {k : Resume}
    (hs : Reachable L image fails ⟨s, .ret (.sleepBack p ia k), []⟩) :
    ∃ t, (kernel L).Next (.sleepBack p ia k, s) (.awake p k, t) ∧
      t.core = s.core.emit (.back p ia 0) := by
  obtain ⟨_, -, ⟨h₀, μ, -, hμ, ⟨b, rfl⟩, -⟩ | hno⟩ := hs.pre
  swap
  · exact absurd hno id
  have hdoes : Does L .solo h₀ (sleepBack p ia k) (.locked {.proc p} b) s.core fun a _ c' =>
      a = .awake p k ∧ c' = s.core.emit (.back p ia 0) := by
    refine .bind (Locked.setIntena id (.bind (Solo.release (.bind ?_))))
    refine Unlocked.observeBack fun c' hc _ => ⟨trivial, does_pure ⟨rfl, ?_⟩⟩
    obtain rfl : s.core = c' := hc
    rfl
  obtain ⟨_, t, _, hnext, rfl, hcore⟩ := hdoes.next (a := .sleepBack p ia k) rfl hμ.solo
  exact ⟨t, hnext, hcore⟩

/-- The label at which the caller of `sleep` goes on. -/
def Resume.label (p : Slot) : Resume → Label
  | .kwait addr => .kwait p addr
  | .consoleread dst n target => .consolereadWait p dst n target
  | .usertrap => .usertrapTail p

theorem Reachable.next_awake {k : Resume}
    (hs : Reachable L image fails ⟨s, .ret (.awake p k), []⟩) :
    ∃ t, (kernel L).Next (.awake p k, s) (k.label p, t) ∧ t.core = s.core := by
  obtain ⟨_, -, ⟨h₀, μ, -, hμ, ⟨b, rfl⟩, -⟩ | hno⟩ := hs.pre
  swap
  · exact absurd hno id
  have hdoes : Does L .solo h₀ (awake p k) (.unlocked b) s.core fun a _ c' =>
      a = k.label p ∧ c' = s.core := by
    cases k with
    | kwait addr => exact .bind (Solo.acquire (does_pure ⟨rfl, rfl⟩))
    | consoleread dst n target => exact .bind (Solo.acquire (does_pure ⟨rfl, rfl⟩))
    | usertrap => exact does_pure ⟨rfl, rfl⟩
  obtain ⟨_, t, _, hnext, rfl, hcore⟩ := hdoes.next (a := .awake p k) rfl hμ.solo
  exact ⟨t, hnext, hcore⟩

/-- **A process that was asleep comes back** to the code that called `sleep`. -/
theorem Reachable.wakes {ia : Bool} {k : Resume}
    (hs : Reachable L image fails ⟨s, .ret (.sleepBack p ia k), []⟩) :
    ∃ t, Reachable L image fails ⟨t, .ret (k.label p), []⟩ ∧
      t.core = s.core.emit (.back p ia 0) := by
  obtain ⟨u, hnext, hcore⟩ := hs.next_sleepBack
  obtain ⟨t, hnext', hcore'⟩ := (hs.next hnext).next_awake
  exact ⟨t, (hs.next hnext).next hnext', hcore'.trans hcore⟩

/-! ### To user mode and back -/

/-- A process enters user mode. -/
theorem Reachable.next_user {satp : BitVec 64}
    (hs : Reachable L image fails ⟨s, .ret (.userret satp), []⟩) (hp : s.core.cproc = some p) :
    ∃ t regs pc, (kernel L).Next (.userret satp, s) (.user, t) ∧
      t.core = s.core.emit (.resume p regs pc) := by
  obtain ⟨_, hI, ⟨_, _, -, -, hno⟩ | htrap⟩ := hs.pre
  · exact absurd hno id
  obtain ⟨t, regs, hrun, hcore⟩ := run_userretCode (hI.2 htrap.1.noff) htrap hp
  exact ⟨t, regs, _, ⟨_, rfl, hrun⟩, hcore⟩

/-- **The first process comes to user mode** with the image it has loaded. -/
theorem Reachable.starts (hs : Reachable L image fails ⟨s, .ret .forkret, []⟩)
    (hp : s.core.cproc = some p) (hfirst : s.core.first = true)
    (hload : s.core.Loadable L (cstr "sh")) : ∃ t up size pt name v regs pc,
      Reachable L image fails ⟨t, .ret .user, []⟩ ∧
      s.core.findUprog L (cstr "sh") = .found up ∧
      size = execTotal (execSize (s.core.vm.mem.load64 up) (s.core.vm.mem.load64 (up + 8))) ∧
      t.core = ((((s.core.started.emit (.execed p)).emit (.resume p regs pc)).setProc p
        (Proc.withImage pt size name)).setVm v) ∧
      0 < size ∧ Took L (3 + userPages (size / 4096)) s.core.vm v := by
  obtain ⟨u, up, size, pt, name, v, hrun, hup, hsize, hcore, hpos, htook⟩ :=
    hs.run_forkret hp hfirst hload
  have hu := hs.run rfl hrun
  obtain ⟨t, regs, pc, hnext, ht⟩ := hu.next_user (p := p) (by rw [hcore]; exact hp)
  exact ⟨t, up, size, pt, name, v, regs, pc, hu.next hnext, hup, hsize, by rw [ht, hcore]; rfl,
    hpos, htook⟩

/-- **A new process comes to user mode.** -/
theorem Reachable.born (hs : Reachable L image fails ⟨s, .ret .forkret, []⟩)
    (hp : s.core.cproc = some p) (hlater : s.core.first = false) : ∃ t m regs pc,
      Reachable L image fails ⟨t, .ret .user, []⟩ ∧
      t.core = (s.core.emit (.resume p regs pc)).setMem m := by
  obtain ⟨kpt, q, h₀, b, hq, -, hμ, -⟩ := hs.forkret
  obtain rfl : p = q := Option.some.inj (hp.symm.trans hq)
  obtain ⟨_, s₁, _, hrun₁, hs₁, rfl, rfl, hc₁⟩ := (Solo.myproc hp).run_bind hμ.solo rfl
  have hrelease : Does L .solo h₀ (release (.proc p)) (.locked {.proc p} b) s.core fun _ μ c' =>
    μ = .unlocked b ∧ c' = s.core := Solo.release ⟨rfl, rfl⟩
  obtain ⟨_, s₂, _, hrun₂, -, rfl, hc₂⟩ := hrelease.run_bind hs₁ hc₁
  obtain ⟨u, hleave, satp, sp, trap, hartid, hcore⟩ := run_leave (L := L) (p := p) (s := s₂)
    (by rw [hc₂]; exact hp)
  have hrun : (OsKernel.forkret L).run s =
      .ok (.userret (satpOf (u.core.procs p).pagetable), u) := by
    rw [OsKernel.forkret, hrun₁]
    show (release (.proc p) >>= _ : KernelM Label).run s₁ = _
    rw [hrun₂, getCore, Prog.run_read_bind, hc₂, if_neg (by rw [hlater]; decide)]
    exact hleave
  have hu := hs.run rfl hrun
  obtain ⟨t, regs, pc, hnext, ht⟩ := hu.next_user (p := p) (by rw [hcore, hc₂]; exact hp)
  exact ⟨t, _, regs, pc, hu.next hnext, by rw [ht, hcore, hc₂]; rfl⟩

/-! ### System calls -/

/-- `syscall` has returned. -/
theorem next_sysret (s : K) (p : Slot) (v : BitVec 64) : ∃ t m,
    (kernel L).Next (.sysret p v, s) (.usertrapTail p, t) ∧
      t.core = (s.core.emit (.sysret p v)).setMem m := ⟨_, _, ⟨_, rfl, rfl⟩, rfl⟩

/-- `usertrap` goes on to user mode with a process that is not killed. -/
theorem Reachable.next_tail (hs : Reachable L image fails ⟨s, .ret (.usertrapTail p), []⟩)
    (hkilled : (s.core.procs p).killed = false) : ∃ t satp m,
      (kernel L).Next (.usertrapTail p, s) (.userret satp, t) ∧ t.core = s.core.setMem m := by
  obtain ⟨_, -, ⟨h₀, μ, -, hμ, ⟨b, rfl⟩, hw, -⟩ | hno⟩ := hs.pre
  swap
  · exact absurd hno id
  have hdoes : Does L .solo h₀ (killed p) (.unlocked b) s.core fun k _ c' =>
      k = false ∧ c' = s.core := by
    refine Unlocked.killed fun c' hc _ => ?_
    obtain rfl : s.core = c' := hc
    exact ⟨hkilled, rfl⟩
  obtain ⟨_, u, _, hrun, -, rfl, hc⟩ := hdoes.run_bind hμ.solo rfl
  obtain ⟨t, hleave, satp, sp, trap, hartid, hcore⟩ := run_leave (L := L) (p := p) (s := u)
    (by rw [hc]; exact hw.cproc)
  have htail : (usertrapTail L p).run s =
      .ok (.userret (satpOf (t.core.procs p).pagetable), t) := by
    rw [usertrapTail, hrun, if_neg (by decide)]
    exact hleave
  exact ⟨t, _, _, ⟨_, rfl, htail⟩, by rw [hcore, hc]; rfl⟩

/-- The way out of a system call. -/
theorem Reachable.next_returns {v : BitVec 64}
    (hs : Reachable L image fails ⟨s, .ret (.sysret p v), []⟩) : ∃ s₁ s₂ t satp m regs pc,
      (kernel L).Next (.sysret p v, s) (.usertrapTail p, s₁) ∧ s₁.core.cproc = some p ∧
      (kernel L).Next (.usertrapTail p, s₁) (.userret satp, s₂) ∧ s₂.core.cproc = some p ∧
      (kernel L).Next (.userret satp, s₂) (.user, t) ∧
      t.core = ((s.core.emit (.sysret p v)).emit (.resume p regs pc)).setMem m := by
  obtain ⟨_, -, ⟨_, _, -, hμ, ⟨_, rfl⟩, hw, hcalled⟩ | hno⟩ := hs.pre
  swap
  · exact absurd hno id
  have hkilled := hμ.unlocked.good.not_killed hcalled
  obtain ⟨s₁, m₁, hnext₁, hc₁⟩ := next_sysret (L := L) s p v
  have hs₁ := hs.next hnext₁
  have hp₁ : s₁.core.cproc = some p := by
    rw [hc₁]
    exact hw.cproc
  obtain ⟨s₂, satp, m₂, hnext₂, hc₂⟩ := hs₁.next_tail (by rw [hc₁]; exact hkilled)
  have hs₂ := hs₁.next hnext₂
  have hp₂ : s₂.core.cproc = some p := by
    rw [hc₂]
    exact hp₁
  obtain ⟨t, regs, pc, hnext₃, hc₃⟩ := hs₂.next_user hp₂
  exact ⟨s₁, s₂, t, satp, m₂, regs, pc, hnext₁, hp₁, hnext₂, hp₂, hnext₃,
    by rw [hc₃, hc₂, hc₁]; rfl⟩

/-- **A system call returns** to user mode. -/
theorem Reachable.returns {v : BitVec 64}
    (hs : Reachable L image fails ⟨s, .ret (.sysret p v), []⟩) : ∃ t m regs pc,
      Reachable L image fails ⟨t, .ret .user, []⟩ ∧
      t.core = ((s.core.emit (.sysret p v)).emit (.resume p regs pc)).setMem m := by
  obtain ⟨s₁, s₂, t, satp, m, regs, pc, hnext₁, -, hnext₂, -, hnext₃, hcore⟩ := hs.next_returns
  exact ⟨t, m, regs, pc, ((hs.next hnext₁).next hnext₂).next hnext₃, hcore⟩

/-- A process can trap with any registers. -/
theorem exists_trap (s : K) (hp : s.core.cproc = some p) (regs : Reg → BitVec 64) :
    ∃ r t, UserStep (.user, s) (.user, r) ∧ UserStep (.user, r) (.vector, t) ∧
      r.core = s.core ∧ r.hart.regs = regs ∧ r.hart.pc = 0 ∧
      t.core = s.core.emit (.trap p regs 0 8) ∧ t.hart.scause = 8 := by
  obtain ⟨r, hstep, hcore, hregs, hpc⟩ : ∃ r, UserStep (.user, s) (.user, r) ∧
      r.core = s.core ∧ r.hart.regs = regs ∧ r.hart.pc = 0 :=
    ⟨_, .compute regs 0 fun _ _ => rfl, rfl, rfl, rfl⟩
  refine ⟨r, _, hstep, .trap (by rw [hcore]; exact hp) 8 0 .timer, hcore, hregs, hpc, ?_, rfl⟩
  show r.core.emit (.trap p r.hart.regs r.hart.pc 8) = _
  rw [hcore, hregs, hpc]

/-- The trapframe holds the registers of the process. -/
theorem Reachable.next_vector (hs : Reachable L image fails ⟨s, .ret .vector, []⟩)
    (hp : s.core.cproc = some p) : ∃ t m, (kernel L).Next (.vector, s) (.usertrap, t) ∧
      t.core = s.core.setMem m ∧ t.hart.scause = s.hart.scause ∧
      ∀ x, (s.core.hist p).trap = some x → ∀ r : Reg, t.core.tfLoad p r.offset = x.regs r := by
  obtain ⟨_, hI, ⟨_, _, -, -, hno⟩ | htrap⟩ := hs.pre
  · exact absurd hno id
  obtain ⟨m, regs, hrun⟩ := run_vector (hI.2 htrap.1.noff) htrap
  refine ⟨_, m, ⟨_, rfl, hrun⟩, rfl, rfl, fun x hx => ?_⟩
  obtain ⟨_, -, ⟨_, _, -, -, hno⟩ | ⟨-, q, y, hready, -, -, -, hregs, hy, -⟩⟩ :=
    (hs.run rfl hrun).pre
  · exact absurd hno id
  obtain rfl : p = q := Option.some.inj (hp.symm.trans hready.cproc)
  obtain rfl := Option.some.inj (hx.symm.trans hy)
  exact hregs

/-- The call is carried out. -/
theorem TrapOk.next_call {S : Site} (htrap : TrapOk L S .usertrap s)
    (hI : (Env.interrupts.discipline L S).Inv L s) (hp : s.core.cproc = some p)
    (hcause : s.hart.scause = 8)
    (h : ∀ x h₀ m, Calling L S p x (s.core.setMem m) →
      (∀ r : Reg, s.core.tfLoad p r.offset = x.regs r) →
      Does L .solo h₀ (dispatch L p (x.regs .a7)) (.unlocked true) (s.core.setMem m) Q) :
    ∃ b t μ, (kernel L).Next (.usertrap, s) (b, t) ∧ Q b μ t.core := by
  obtain ⟨q, x, hq, hregs, hcalling⟩ := htrap.calling (hI.2 htrap.1.noff) hcause
  obtain rfl : p = q := Option.some.inj (hp.symm.trans hq)
  obtain ⟨hborder, _, _, -, htrapped, -⟩ := htrap
  have hat : (Mode.unlocked true).At L .solo (s.hart.toKernel L).intrOn
      ⟨s.core.called p s.hart.sepc, (s.hart.toKernel L).intrOn⟩ := by
    refine ⟨⟨⟨hI.1.count, fun hpos => absurd hborder.noff hpos.ne', fun _ => .inl rfl,
      fun hq => absurd hq id⟩, hborder.noff, trivial, rfl⟩, .refl _, rfl⟩
  have hdoes : ∀ h₀, Does L .solo h₀ (syscall L) (.unlocked true)
      (s.core.called p s.hart.sepc) Q := by
    intro h₀
    rw [syscall_eq_dispatch]
    refine Solo.myproc_bind hp (.bind (Solo.getCore ?_))
    rw [hcalling.working.arg hcalling.call]
    exact h x h₀ _ hcalling hregs
  obtain ⟨b, t, μ, hrun, -, hQ⟩ := (hdoes _).run hat rfl
  refine ⟨b, t, μ, ⟨_, rfl, ?_⟩, hQ⟩
  rw [run_usertrap_call hp htrapped.spp htrapped.sie hborder.noff hcause]
  exact hrun

/-- The registers with which a process makes a call. -/
def Sysno.regs (n : Sysno) (a0 a1 a2 : BitVec 64) : Reg → BitVec 64
  | .a0 => a0
  | .a1 => a1
  | .a2 => a2
  | .a7 => BitVec.ofNat 64 n.number
  | _ => 0

theorem Sysno.dispatch_regs (n : Sysno) (a0 a1 a2 : BitVec 64) :
    dispatch L p (n.regs a0 a1 a2 .a7) = sysHandler L p n := by
  have hlookup : lookupSyscall (n.regs a0 a1 a2 .a7) = some n := by
    cases n <;> rfl
  rw [dispatch, hlookup]

/-- **A process traps** with any registers, and they are in its trapframe. -/
theorem Reachable.traps (hs : Reachable L image fails ⟨s, .ret .user, []⟩)
    (hp : s.core.cproc = some p) (regs : Reg → BitVec 64) :
    ∃ t m, Reachable L image fails ⟨t, .ret .usertrap, []⟩ ∧
      t.core = (s.core.emit (.trap p regs 0 8)).setMem m ∧ t.hart.scause = 8 ∧
      ∀ r : Reg, t.core.tfLoad p r.offset = regs r := by
  obtain ⟨_, u, hcompute, htrap, -, -, -, hcore, hcause⟩ := exists_trap s hp regs
  have hu := (hs.step (.single (.env hcompute))).step (.single (.env htrap))
  obtain ⟨t, m, hnext, hcore', hcause', hregs⟩ := hu.next_vector (p := p) (by rw [hcore]; exact hp)
  exact ⟨t, m, hu.next hnext, by rw [hcore', hcore], hcause'.trans hcause, hregs ⟨regs, 0, 8⟩
    (by rw [hcore]; simp [Core.hist, Core.emit, observe])⟩

/-- **A process makes a system call**, and its handler does what it does. -/
theorem Reachable.calls (hs : Reachable L image fails ⟨s, .ret .user, []⟩)
    (hp : s.core.cproc = some p) (n : Sysno) (a0 a1 a2 : BitVec 64)
    (h : ∀ kpt x h₀ m c, c = (s.core.emit (.trap p (n.regs a0 a1 a2) 0 8)).setMem m →
      Calling L (bootSite image fails kpt) p x c → x.regs = n.regs a0 a1 a2 →
      Does L .solo h₀ (sysHandler L p n) (.unlocked true) c Q) :
    ∃ b t μ, Reachable L image fails ⟨t, .ret b, []⟩ ∧ Q b μ t.core := by
  obtain ⟨u, m, hu, hcore, hcause, hframe⟩ := hs.traps hp (n.regs a0 a1 a2)
  obtain ⟨kpt, hI, ⟨_, _, -, -, hno⟩ | htrap⟩ := hu.pre
  · exact absurd hno id
  obtain ⟨b, t, μ, hnext, hQ⟩ := htrap.next_call (p := p) (Q := Q) hI (by rw [hcore]; exact hp)
    hcause fun x h₀ m' hcalling hx => by
      have hregs : x.regs = n.regs a0 a1 a2 := funext fun r => (hx r).symm.trans (hframe r)
      rw [hregs, n.dispatch_regs]
      exact h kpt x h₀ m' _ (by rw [hcore]; rfl) hcalling hregs
  exact ⟨b, t, μ, hu.next hnext, hQ⟩

end OsKernel
