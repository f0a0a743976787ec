import OsKernel.Run.Progress

/-!
# System calls left alone

What the calls do when nothing interrupts them, exactly: `fork` makes a child in a slot that is
free, `wait` sleeps or reaps, `exit` leaves a zombie and wakes the parent, `read` sleeps or takes
what was typed. With interrupts the invariants of the kernel hold all the same; but that something
happens at all, and what, is seen best without them.
-/

namespace OsKernel

variable {L : Layout} {S : Site} {D : Discipline} {h₀ : Hart} {b : Bool} {c : Core} {p i : Slot}
  {t : Trap} {l : Label} {addr dst : ℕ} {n target : BitVec 32}

/-- `argraw`. -/
theorem Solo.argraw {Q : BitVec 64 → Mode → Core → Prop} {μ : Mode} (h : Calling L S p t c)
    (r : Reg) (hQ : Q (t.regs r) μ c) : Does L .solo h₀ (argraw r) μ c Q := by
  refine Solo.myproc_bind h.working.cproc (Solo.getCore ?_)
  rwa [h.working.arg h.call]

/-! ### `fork` -/

/-- A child as `fork` leaves it. -/
structure Proc.ForkedFrom (p : Slot) (pr child : Proc) : Prop where
  state : child.state = .runnable
  parent : child.parent = some p
  context : child.context = some .forkret
  chan : child.chan = none
  sz : child.sz = pr.sz

/-- The loop of `allocproc` finds a slot, for which there are pages or not. -/
theorem Solo.allocprocScan {Q : Option Slot → Mode → Core → Prop} (hg : Good L S c)
    (hmade : ∀ i v tf pt, (c.procs i).state = .unused →
      Made L S.image S.kpt c.spaces i c.vm v tf pt →
      Q (some i) (.locked {.proc i} b) (c.making i v ((c.procs i).fresh c.nextpid tf pt)))
    (hunmade : ∀ c', ¬Supply L c.vm 4 → Q none (.unlocked b) c')
    (ps : List Slot) (hfree : ∃ i ∈ ps, (c.procs i).state = .unused) :
    Does L .solo h₀ (allocprocScan L ps) (.unlocked b) c Q := by
  induction ps with
  | nil =>
    obtain ⟨i, hi, -⟩ := hfree
    exact absurd hi List.not_mem_nil
  | cons j ps ih =>
    refine .bind (Solo.acquire (.bind (Solo.getCore (does_ite (fun hu => ?_) fun hlive =>
      .bind (Solo.release (ih ?_))))))
    · obtain ⟨o, hsp⟩ := hg.spaces
      exact allocprocFound_does ((hg.slot j).blank hu) hsp (Core.spaces_of_unused hu)
        (fun v tf pt => hmade j v tf pt hu) fun _ _ _ _ _ _ hpoor =>
          .bind (Solo.release (does_pure (hunmade _ hpoor)))
    · obtain ⟨i, hi, hu⟩ := hfree
      rcases List.mem_cons.mp hi with rfl | hi
      · exact absurd hu hlive
      · exact ⟨i, hi, hu⟩

/-- **`fork`** makes a child if there are a slot and pages for it. -/
theorem Solo.kfork (hg : Good L S c) (hw : Working p c)
    (hfree : ∃ i, (c.procs i).state = .unused)
    (hroom : Supply L c.vm (forkPages (c.procs p).sz)) :
    Does L .solo h₀ (kfork L) (.unlocked b) c fun v _ c' => v = c.nextpid ∧ ∃ i w child,
      (c.procs i).state = .unused ∧ (c.procs p).ForkedFrom p child ∧
      c' = { c with
        vm := w
        nextpid := c.nextpid + 1
        procs := Function.update c.procs i child
        log := .parentSet (some p) i (some p) :: .forked p i :: c.log } := by
  obtain ⟨i₀, hi₀⟩ := hfree
  refine Solo.myproc_bind hw.cproc (.bind (Solo.allocprocScan hg ?_ (fun _ hpoor =>
    absurd (hroom.mono (Nat.le_add_right _ _)) hpoor) slots ⟨i₀, List.mem_finRange i₀, hi₀⟩))
  intro i v tf pt hu hm
  have hip : i ≠ p := by
    rintro rfl
    rw [hg.state_running hw.cproc] at hu
    cases hu
  have hblank := (hg.slot i).blank hu
  refine .bind (Locked.getCore (.bind (Locked.getCore (.bind ?_))))
  rw [Core.making_self, Core.making_ne _ _ _ hip.symm]
  refine Locked.coreAtomic (returns_liftVm.mpr ((hm.uvmcopy hg hw hu).mono ?_))
  rintro ok v' (⟨-, hpoor, -⟩ | ⟨rfl, -⟩)
  · exact absurd hroom hpoor
  rw [if_neg (by decide)]
  refine .bind (Solo.modCore ?_)
  show Does L .solo h₀ _ _ ((c.making i v' ((c.procs i).fresh c.nextpid tf pt)).forkCopy p i) _
  rw [Core.making_forkCopy _ hip]
  generalize ({ v' with mem := v'.mem.copyFrame _ _ } : Vm) = w
  -- the child is linked to its parent, and then it may run
  refine .bind (Solo.getCore (.bind (Solo.release (.bind (Solo.acquire (.bind (Solo.modCore
    (.bind (Solo.release ?_)))))))))
  refine .bind (Solo.acquire (.bind (Solo.modCore (.bind (Solo.release (does_pure ?_))))))
  refine ⟨congrArg Proc.pid (c.making_self i w _), i, w,
    { (c.procs p).copyOf ((c.procs i).fresh c.nextpid tf pt) with
      parent := some p, state := .runnable },
    hu, ⟨rfl, rfl, rfl, hblank.chan, rfl⟩, ?_⟩
  simp [Core.making, Core.setParent, Core.setProc, Core.emit, hw.cproc]

/-- **`fork`** returns −1 if there are no pages for a process. -/
theorem Solo.kfork_fails (hg : Good L S c) (hw : Working p c)
    (hfree : ∃ i, (c.procs i).state = .unused) (hpoor : ¬Supply L c.vm 4) :
    Does L .solo h₀ (OsKernel.kfork L) (.unlocked b) c fun v _ _ => v = -1 := by
  obtain ⟨i₀, hi₀⟩ := hfree
  refine Solo.myproc_bind hw.cproc (.bind (Solo.allocprocScan hg ?_ (fun _ _ => does_pure rfl) slots
    ⟨i₀, List.mem_finRange i₀, hi₀⟩))
  intro i v tf pt _ hm
  exact absurd hm.took.supply hpoor

/-! ### `sleep` -/

/-- The running process has gone to sleep on a channel. -/
def Core.sleeps (p : Slot) (ch : Chan) (b : Bool) (k : Resume) (c : Core) : Core :=
  { c with
    procs := Function.update c.procs p { c.procs p with
      state := .sleeping
      chan := some ch
      context := some (.sleepBack p b k) }
    log := .pause p b :: .prepare p :: c.log }

theorem Core.sleeps_self (c : Core) (p : Slot) (ch : Chan) (b : Bool) (k : Resume) :
    (c.sleeps p ch b k).procs p = { c.procs p with
      state := .sleeping
      chan := some ch
      context := some (.sleepBack p b k) } := Function.update_self ..

theorem Core.sleeps_ne (c : Core) {p j : Slot} (ch : Chan) (b : Bool) (k : Resume) (h : j ≠ p) :
    (c.sleeps p ch b k).procs j = c.procs j := Function.update_of_ne h ..

/-- **A process goes to sleep**: it registers on the channel, gives up its lock and switches to the
scheduler. -/
theorem Solo.sleepOn {lk : Lock} {ch : Chan} {k : Resume} (hp : c.cproc = some p)
    (hlk : Lock.proc p ≠ lk) (hl : c.ccontext = some l) :
    Does L .solo h₀ (do sleepPrepare ch; OsKernel.release lk; sleep k) (.locked {lk} b) c
      fun a _ c' => a = l ∧ c' = c.sleeps p ch b k := by
  refine .bind (Locked.sleepPrepare hp (by simpa using hlk) (by simp) (.bind (Solo.release ?_)))
  refine Solo.myproc_bind hp (.bind (Unlocked.observePause fun c' hc _ => ⟨trivial, ?_⟩))
  obtain rfl : c.prepare p ch = c' := hc
  refine .bind (Solo.acquire (.bind (Solo.getCore (does_ite (fun _ => ?_) fun hno => ?_))))
  · refine .bind (Solo.modCore (Locked.sched (l := l) hp (by simp) hl ⟨rfl, ?_⟩))
    simp [Core.sleeps, Core.saveContext, Core.prepare, Core.setProc, Core.emit]
  · refine absurd (fun hnone => ?_) hno
    simp [Core.emit, Core.prepare_self] at hnone

/-! ### `wait` -/

/-- The loop of `kwait` over living children. -/
theorem kwaitScan_living (hz : ∀ i, (c.procs i).parent = some p → (c.procs i).state ≠ .zombie) :
    ∀ (ps : List Slot) (havekids : Bool),
      Does L D h₀ (kwaitScan L p addr ps havekids) (.locked {.wait} b) c fun r μ c' =>
        r = .ok (havekids || ps.any fun i => decide ((c.procs i).parent = some p)) ∧
        μ = .locked {.wait} b ∧ c' = c := by
  intro ps
  induction ps with
  | nil => exact fun havekids => does_pure ⟨by simp, rfl, rfl⟩
  | cons i ps ih =>
    refine fun havekids => .bind (Locked.getCore (does_ite (fun hpar => ?_) fun hpar => ?_))
    · refine .bind (Locked.acquire (by simp) (.bind (Locked.getCore ?_)))
      rw [if_neg (hz i hpar)]
      refine .bind (Locked.release_inner (by simp) (by simp) ((ih true).mono ?_))
      rintro _ _ _ ⟨rfl, rfl, rfl⟩
      exact ⟨by simp [hpar], rfl, rfl⟩
    · refine (ih havekids).mono ?_
      rintro _ _ _ ⟨rfl, rfl, rfl⟩
      exact ⟨by simp [hpar], rfl, rfl⟩

/-- **`wait` sleeps** while the children live. -/
theorem Solo.kwaitRound_sleeps (addr : ℕ) (hp : c.cproc = some p) (hl : c.ccontext = some l)
    (hkilled : (c.procs p).killed = false) (hi : (c.procs i).parent = some p)
    (hz : ∀ i, (c.procs i).parent = some p → (c.procs i).state ≠ .zombie) :
    Does L .solo h₀ (kwaitRound L p addr) (.locked {.wait} b) c fun a _ c' =>
      a = l ∧ c' = c.sleeps p (.proc p) b (.kwait addr) := by
  refine .bind ((kwaitScan_living hz slots false).mono ?_)
  rintro _ _ c ⟨rfl, rfl, rfl⟩
  have hkids : (slots.any fun i => decide ((c.procs i).parent = some p)) = true :=
    List.any_eq_true.mpr ⟨i, List.mem_finRange i, by simpa using hi⟩
  show Does L .solo h₀ (do
    let stop ← if (false || slots.any fun i => decide ((c.procs i).parent = some p)) = true then
      killed p else pure true
    if stop = true then _ else _) _ _ _
  rw [Bool.false_or, if_pos hkids]
  refine .bind (Locked.killed (by simp) (by simp) ?_)
  rw [hkilled]
  exact Solo.sleepOn hp (by simp) hl

/-- The loop of `reparent` for a process without children. -/
theorem reparentLoop_childless (hno : ∀ i, (c.procs i).parent ≠ some p) (ps : List Slot) :
    Does L D h₀ (reparentLoop p ps) (.locked {.wait} b) c fun _ μ c' =>
      μ = .locked {.wait} b ∧ c' = c := by
  induction ps with
  | nil => exact does_pure ⟨rfl, rfl⟩
  | cons i ps ih =>
    refine .bind (Locked.getCore ?_)
    rw [if_neg (hno i)]
    exact ih

/-- The process `p` has exited and left a zombie, with its parent `q` awake. -/
def Core.exits (p q : Slot) (status : BitVec 32) (c : Core) : Core :=
  { c with
    procs := Function.update (c.wakeAll (some (.proc q))).procs p
      { (c.procs p).wake (some (.proc q)) with
        xstate := status
        state := .zombie
        context := some .exitBack }
    log := .exited p ((c.procs p).wake (some (.proc q))).pid status :: c.log }

theorem Proc.wake_state_of_ne {pr : Proc} {ch : Option Chan} (h : pr.state ≠ .sleeping) :
    (pr.wake ch).state = pr.state := by
  by_cases hc : pr.chan = ch
  · rw [Proc.wake_self hc]
    exact if_neg h
  · rw [Proc.wake_ne hc]

theorem Core.exits_self (c : Core) (p q : Slot) (status : BitVec 32) :
    (c.exits p q status).procs p = { (c.procs p).wake (some (.proc q)) with
      xstate := status
      state := .zombie
      context := some .exitBack } := Function.update_self ..

theorem Core.exits_ne (c : Core) {p j : Slot} (q : Slot) (status : BitVec 32) (h : j ≠ p) :
    (c.exits p q status).procs j = (c.procs j).wake (some (.proc q)) := Function.update_of_ne h ..

/-- **`exit`** of a process without children. -/
theorem Solo.kexit {q : Slot} {status : BitVec 32} (hp : c.cproc = some p)
    (hl : c.ccontext = some l) (hinit : c.initproc ≠ some p)
    (hno : ∀ i, (c.procs i).parent ≠ some p) (hq : (c.procs p).parent = some q) :
    Does L .solo h₀ (kexit status) (.unlocked b) c fun a _ c' =>
      a = l ∧ c' = c.exits p q status := by
  refine Solo.myproc_bind hp (.bind (Solo.getCore ?_))
  rw [if_neg fun h => hinit h.symm]
  refine .bind (Solo.acquire (.bind ((reparentLoop_childless hno slots).mono ?_)))
  rintro _ _ _ ⟨rfl, rfl⟩
  refine .bind (Locked.getCore ?_)
  rw [hq]
  refine .bind (Locked.wakeup (by simp) (by simp) (.bind (Locked.acquire (by simp) (.bind
    (Locked.modCore (.bind (Locked.release_outer (by simp) ?_)))))))
  refine Locked.sched (l := l) hp ?_ hl ⟨rfl, ?_⟩
  · simp [Core.emit]
  · simp [Core.exits, Core.saveContext, Core.setProc, Core.emit, Core.wakeAll]

/-! ### `read` -/

/-- **`read` sleeps** while there is nothing to read. -/
theorem Solo.consoleread_sleeps (dst : ℕ) (n target : BitVec 32) (hp : c.cproc = some p)
    (hl : c.ccontext = some l)
    (hkilled : (c.procs p).killed = false) (hempty : c.cons.r = c.cons.w) :
    Does L .solo h₀ (consolereadWaitRound L p dst n target) (.locked {.cons} b) c fun a _ c' =>
      a = l ∧ c' = c.sleeps p .consR b (.consoleread dst n target) := by
  refine .bind (Locked.getCore ?_)
  rw [if_pos hempty]
  refine Solo.myproc_bind hp (.bind (Locked.killed (by simp) (by simp) ?_))
  rw [hkilled, if_neg (by decide)]
  exact Solo.sleepOn hp (by simp) hl

/-- **`read` returns** at the end of a line. -/
theorem Solo.consoleread_line (n target : BitVec 32) (hg : Good L S c) (hp : c.cproc = some p)
    (hne : c.cons.r ≠ c.cons.w) (hbyte : c.cons.get c.cons.r = 10)
    (hwritable : c.vm.mem.Writable (c.procs p).pagetable dst) :
    Does L .solo h₀ (consolereadWaitRound L p dst n target) (.locked {.cons} b) c fun a _ c' =>
      a = .sysret p ((target - (n - 1)).signExtend 64) ∧ ∃ v, c' = { c with
        vm := v
        cons := c.cons.pop
        log := .readRet p (target - (n - 1)) :: .handed p 10 :: c.log } := by
  refine .bind (Locked.getCore ?_)
  rw [if_neg hne]
  refine .bind (Locked.modCore (.bind (Locked.eitherCopyout (p := p) hp ?_)))
  refine (hg.copyout hp dst [c.cons.get c.cons.r]).mono ?_
  rintro ok v ⟨-, hok, hbytes⟩
  have hok' : ok = true := hok.mpr fun k hk => by
    rw [List.length_singleton, Nat.lt_one_iff] at hk
    rw [hk, Nat.add_zero]
    exact hwritable
  have hread : v.mem (v.mem.phys (c.procs p).pagetable dst) = 10 := by
    have := hbytes hok'
    rw [hbyte] at this
    simpa [Mem.userBytes] using this
  rw [if_neg (by simp [hok'])]
  refine .bind (Locked.modCore ?_)
  rw [if_pos hbyte]
  refine .bind (Locked.modCore (.bind (Solo.release (does_pure ⟨rfl, v, ?_⟩))))
  show Core.emit (Core.emit _ (.handed p (v.mem (v.mem.phys (c.procs p).pagetable dst)))) _ = _
  rw [hread]
  rfl

/-! ### A line is typed -/

/-- `consoleintr` for a character that ends a line. -/
theorem Solo.consoleintr {ch : UInt8} (hch : ch ≠ 0)
    (hroom : (c.cons.e - c.cons.r).toNat < inputBufSize) (hline : normalize ch = 10) :
    Does L .solo h₀ (consoleintr L ch) (.unlocked b) c fun _ μ c' =>
      μ = .unlocked b ∧ c' = c.typed ch true := by
  refine .bind (Solo.acquire (.bind (.bind (Locked.modCore (.bind (Locked.getCore ?_))))))
  rw [if_pos ⟨hch, hroom⟩]
  refine .bind (Locked.section (.bind (Locked.modCore (.bind (Locked.getCore ?_)))))
  rw [if_pos (.inr (.inl hline))]
  exact .bind (Locked.modCore (Locked.wakeup (by simp) (by simp) (Solo.release ⟨rfl, rfl⟩)))

/-- `uartintr` with one character in the receiver. -/
theorem Solo.uartintr {ch : UInt8} (hrx : c.rx = [ch]) (hch : ch ≠ 0)
    (hroom : (c.cons.e - c.cons.r).toNat < inputBufSize) (hline : normalize ch = 10) :
    Does L .solo h₀ (uartintr L) (.unlocked b) c fun _ _ c' =>
      c' = { c with rx := [] }.typed ch true := by
  refine .bind (Solo.getCore ?_)
  rw [hrx]
  refine .bind (Solo.modCore (.bind ((Solo.consoleintr (c := { c with rx := [] }) hch hroom
    hline).mono ?_)))
  rintro _ _ _ ⟨rfl, rfl⟩
  exact does_pure rfl

/-- The handler of an interrupt of the UART. -/
theorem run_kernelvec_uart {s : K} (ch : UInt8) (hs : (Mode.unlocked false).At L .solo h₀ s)
    (hspp : s.hart.spp = true) (hcause : s.hart.scause = causeExternal)
    (hclaim : s.core.claim = uart0Irq) (hrx : s.core.rx = [ch]) (hch : ch ≠ 0)
    (hroom : (s.core.cons.e - s.core.cons.r).toNat < inputBufSize) (hline : normalize ch = 10) :
    ∃ t, (kernelvec L).run s = .ok ((), t) ∧ t.core = { s.core with rx := [] }.typed ch true := by
  obtain ⟨_, u, _, hrun, -, hcore⟩ := (Solo.uartintr hrx hch hroom hline).run_bind hs rfl
  have hdev : (devintr L).run s = .ok (1, u) := by
    rw [devintr, getHart, Prog.run_read_bind, if_pos hcause, getCore, Prog.run_read_bind,
      if_pos hclaim, hrun]
    rfl
  refine ⟨{ u with hart := { u.hart with
    sepc := s.hart.sepc, sie := s.hart.sie, spp := s.hart.spp, spie := s.hart.spie } }, ?_, hcore⟩
  rw [kernelvec, getHart, Prog.run_read_bind, if_pos hs.unlocked.vector, kerneltrap, getHart,
    Prog.run_read_bind, if_neg (by simp [hspp]), if_neg (by simp [hs.sie]),
    Prog.run_bind_of_ok hdev]
  rfl

/-- **A line is typed** while the scheduler looks for a process: its characters are in the ring, and
the readers are awake. -/
theorem Reachable.types {image : Mem} {fails : ℕ → Bool} {s : K} {k : ℕ} {found : Bool}
    (hs : Reachable L image fails ⟨s, .ret (.schedulerScan k found), []⟩)
    (hsie : s.hart.sie = true) (hrx : s.core.rx = []) (ch : UInt8) (hch : ch ≠ 0)
    (hroom : (s.core.cons.e - s.core.cons.r).toNat < inputBufSize) (hline : normalize ch = 10) :
    ∃ t, Reachable L image fails ⟨t, .ret (.schedulerScan k found), []⟩ ∧
      t.core = { s.core with
        claim := uart0Irq, rx := [], input := s.core.input ++ [ch] }.typed ch true := by
  obtain ⟨_, -, ⟨h₀, μ, hk, hμ, ⟨b, rfl⟩, -⟩ | hno⟩ := hs.pre
  swap
  · exact absurd hno id
  have hsup : s.hart.supervisor = true := hμ.frame.supervisor.trans hk.supervisor
  have henter : (kernel L).enter (.external uart0Irq [ch]) s =
      ⟨{ s.core with claim := uart0Irq, rx := [ch], input := s.core.input ++ [ch] },
        s.hart.trap causeExternal 0⟩ := by
    show (⟨Irq.devices causeExternal (.external uart0Irq [ch]) s.core, _⟩ : K) = _
    rw [Irq.devices, if_pos ⟨rfl, rfl⟩, hrx]
    rfl
  have hat : (Mode.unlocked false).At L .solo (s.hart.trap causeExternal 0)
      ((kernel L).enter (.external uart0Irq [ch]) s) := by
    rw [henter]
    exact ⟨⟨⟨hμ.unlocked.hart.count, fun _ => rfl, fun _ => .inl hμ.unlocked.vector,
      fun h => absurd h id⟩, hμ.unlocked.noff, trivial, hμ.unlocked.vector⟩, .refl _, rfl⟩
  obtain ⟨t, hrun, htyped⟩ := run_kernelvec_uart ch hat (by rw [henter]; exact hsup)
    (by rw [henter]; rfl) (by rw [henter]) (by rw [henter]) hch (by rw [henter]; exact hroom) hline
  refine ⟨(kernel L).leave t, hs.step (System.micro_of_handler ⟨hsie, hsup⟩ hrun), ?_⟩
  rw [henter] at htyped
  exact htyped

end OsKernel
