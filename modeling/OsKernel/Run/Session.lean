import OsKernel.Console.Write
import OsKernel.Kernel.Record
import OsKernel.Run.Alone

/-!
# Sessions

A process forks, waits, exits or reads a line from the console, and the scheduler takes care of the
others. Each step of such a session leads from one state of the running kernel to another, and says
what has become of the processes, of the console and of the log.
-/

namespace OsKernel

variable {L : Layout} {image : Mem} {fails : ℕ → Bool} {s t : K} {i j p : Slot} {c : Core}
  {addr dst : ℕ} {n target : BitVec 32}

/-! ### Steps of a session -/

/-- **A process stores a byte** in its memory. -/
theorem Reachable.stores (hs : Reachable L image fails ⟨s, .ret .user, []⟩)
    (hp : s.core.cproc = some p) (hdst : dst < (s.core.procs p).sz) (x : UInt8) :
    ∃ t, UserStep (.user, s) (.user, t) ∧ t.core = s.core.setMem (Function.update s.core.vm.mem
      (s.core.vm.mem.phys (s.core.procs p).pagetable dst) x) := by
  obtain ⟨_, hI, ⟨_, _, -, -, hno⟩ | ⟨hborder, -, q, hready, hsatp⟩⟩ := hs.pre
  · exact absurd hno id
  obtain rfl : p = q := Option.some.inj (hp.symm.trans hready.cproc)
  have hg := hI.2 hborder.noff
  obtain ⟨o, hsp⟩ := hg.spaces
  obtain ⟨hdvd, -, hlt⟩ := hsp.pagetable_lt (hg.spaces_running hp)
  have hwritable : s.core.vm.mem.Writable (s.core.procs p).pagetable dst :=
    hg.writable hp (by omega)
  have hroot : satpRoot s.hart.satp = (s.core.procs p).pagetable := by
    rw [hsatp]
    exact satpRoot_satpOf hdvd (hlt.trans_le (L.phystop_le.trans (by decide)))
  have hstores : UserStores s.hart.satp s.core.vm.mem (Function.update s.core.vm.mem
      (s.core.vm.mem.phys (s.core.procs p).pagetable dst) x) := by
    intro a ha
    rw [hroot] at ha
    exact Function.update_of_ne (ha dst hwritable) ..
  exact ⟨_, .compute s.hart.regs s.hart.pc hstores, rfl⟩

/-- **A process forks.** -/
theorem Reachable.forks (hs : Reachable L image fails ⟨s, .ret .user, []⟩)
    (hp : s.core.cproc = some p) (hfree : ∃ i, (s.core.procs i).state = .unused)
    (hroom : Supply L s.core.vm (forkPages (s.core.procs p).sz)) :
    ∃ t i v child regs pc, Reachable L image fails ⟨t, .ret .user, []⟩ ∧
      (s.core.procs i).state = .unused ∧ (s.core.procs p).ForkedFrom p child ∧
      t.core = { s.core with
        vm := v
        nextpid := s.core.nextpid + 1
        procs := Function.update s.core.procs i child
        log := .resume p regs pc :: .sysret p (s.core.nextpid.signExtend 64) ::
          .parentSet (some p) i (some p) :: .forked p i :: .trap p (Sysno.fork.regs 0 0 0) 0 8 ::
          s.core.log } := by
  have hcall := hs.calls hp .fork 0 0 0 (Q := fun a _ c' =>
    a = .sysret p (s.core.nextpid.signExtend 64) ∧ ∃ i v child,
      (s.core.procs i).state = .unused ∧ (s.core.procs p).ForkedFrom p child ∧
      c' = { s.core with
        vm := v
        nextpid := s.core.nextpid + 1
        procs := Function.update s.core.procs i child
        log := .parentSet (some p) i (some p) :: .forked p i ::
          .trap p (Sysno.fork.regs 0 0 0) 0 8 :: s.core.log }) ?_
  · obtain ⟨_, u, _, hu, rfl, i, v, child, hi, hchild, hcore⟩ := hcall
    obtain ⟨t, m, regs, pc, ht, hcore'⟩ := hu.returns
    exact ⟨t, i, _, child, regs, pc, ht, hi, hchild, by rw [hcore', hcore]; rfl⟩
  · rintro kpt x h₀ m _ rfl hcalling -
    refine .bind ((Solo.kfork hcalling.good hcalling.working hfree
      ⟨hroom.1, hroom.2⟩).mono ?_)
    rintro _ _ _ ⟨rfl, i, v, child, hi, hchild, rfl⟩
    exact does_pure ⟨rfl, i, v, child, hi, hchild, rfl⟩

/-- **A process waits** for its children, which live. -/
theorem Reachable.waits (hs : Reachable L image fails ⟨s, .ret .user, []⟩)
    (hp : s.core.cproc = some p) (a0 : BitVec 64) (hi : (s.core.procs i).parent = some p)
    (hz : ∀ i, (s.core.procs i).parent = some p → (s.core.procs i).state ≠ .zombie) :
    ∃ t m b, Reachable L image fails ⟨t, .ret (.schedulerBack p), []⟩ ∧
      t.core = ((((s.core.emit (.trap p (Sysno.wait.regs a0 0 0) 0 8)).emit
        (.waitCall p a0.toNat)).sleeps p (.proc p) b (.kwait a0.toNat)).setMem m) := by
  have hcall := hs.calls hp .wait a0 0 0 (Q := fun a _ c' => a = .kwait p a0.toNat ∧ ∃ m,
    c' = ((s.core.emit (.trap p (Sysno.wait.regs a0 0 0) 0 8)).emit
      (.waitCall p a0.toNat)).setMem m) ?_
  · obtain ⟨_, u, _, hu, rfl, m, hcore⟩ := hcall
    obtain ⟨kpt, -, ⟨h₀, μ, -, hμ, ⟨b, rfl⟩, hg, hw, ⟨x, hx⟩, -⟩ | hno⟩ := hu.pre
    swap
    · exact absurd hno id
    obtain ⟨_, t, _, hnext, rfl, ht⟩ := (Solo.kwaitRound_sleeps a0.toNat (i := i)
      hw.cproc (hg.home p hw.cproc) (hg.not_killed hx.called) (by rw [hcore]; exact hi)
      (by rw [hcore]; exact hz)).next (a := .kwait p a0.toNat) rfl hμ.solo
    exact ⟨t, m, b, hu.next hnext, by rw [ht, hcore]; rfl⟩
  · rintro kpt x h₀ m _ rfl hcalling hregs
    refine .bind (Solo.argraw hcalling .a0 ?_)
    rw [hregs]
    exact Solo.myproc_bind hp (.bind (Solo.acquire (.bind (Solo.modCore
      (does_pure ⟨rfl, m, rfl⟩)))))

/-- **A process exits.** -/
theorem Reachable.exits {q : Slot} (hs : Reachable L image fails ⟨s, .ret .user, []⟩)
    (hp : s.core.cproc = some p) (a0 : BitVec 64) (hinit : s.core.initproc ≠ some p)
    (hno : ∀ i, (s.core.procs i).parent ≠ some p) (hq : (s.core.procs p).parent = some q) :
    ∃ t m, Reachable L image fails ⟨t, .ret (.schedulerBack p), []⟩ ∧
      t.core = ((s.core.emit (.trap p (Sysno.exit.regs a0 0 0) 0 8)).exits p q
        (a0.setWidth 32)).setMem m := by
  have hcall := hs.calls hp .exit a0 0 0 (Q := fun a _ c' => a = .schedulerBack p ∧ ∃ m,
    c' = ((s.core.emit (.trap p (Sysno.exit.regs a0 0 0) 0 8)).exits p q
      (a0.setWidth 32)).setMem m) ?_
  · obtain ⟨_, t, _, ht, rfl, m, hcore⟩ := hcall
    exact ⟨t, m, ht, hcore⟩
  · rintro kpt x h₀ m _ rfl hcalling hregs
    refine .bind (Solo.argraw hcalling .a0 ?_)
    rw [hregs]
    refine (Solo.kexit (l := .schedulerBack p) (c := Core.setMem (s.core.emit _) m) hp
      (hcalling.good.home p hp) hinit hno hq).mono ?_
    rintro _ _ _ ⟨rfl, rfl⟩
    exact ⟨rfl, m, rfl⟩

/-- **A process reads** from the console, where nothing is typed. -/
theorem Reachable.reads (hs : Reachable L image fails ⟨s, .ret .user, []⟩)
    (hp : s.core.cproc = some p) (a1 a2 : BitVec 64) (hn : 0 < (a2.setWidth 32).toInt)
    (hbuf : a1.toNat + (a2.setWidth 32).toInt.toNat ≤ (s.core.procs p).sz)
    (hempty : s.core.cons.r = s.core.cons.w) :
    ∃ t m b, Reachable L image fails ⟨t, .ret (.schedulerBack p), []⟩ ∧
      t.core = ((((s.core.emit (.trap p (Sysno.read.regs 0 a1 a2) 0 8)).emit
        (.readCall p a1.toNat (a2.setWidth 32) true)).sleeps p .consR b
          (.consoleread a1.toNat (a2.setWidth 32) (a2.setWidth 32))).setMem m) := by
  have hcall := hs.calls hp .read 0 a1 a2 (Q := fun a _ c' =>
    a = .consoleread p a1.toNat (a2.setWidth 32) (a2.setWidth 32) ∧ ∃ m,
    c' = ((s.core.emit (.trap p (Sysno.read.regs 0 a1 a2) 0 8)).emit
      (.readCall p a1.toNat (a2.setWidth 32) true)).setMem m) ?_
  · obtain ⟨_, u, _, hu, rfl, m, hcore⟩ := hcall
    have hv : (kernel L).Next (.consoleread p a1.toNat (a2.setWidth 32) (a2.setWidth 32), u)
        (.consolereadWait p a1.toNat (a2.setWidth 32) (a2.setWidth 32), u) := by
      refine ⟨_, rfl, ?_⟩
      show (consolereadRound p _ _ _).run u = _
      rw [consolereadRound, if_pos hn]
      rfl
    have hwait := hu.next hv
    obtain ⟨kpt, -, ⟨h₀, μ, -, hμ, ⟨b, rfl⟩, hg, hw, ⟨x, hx⟩, -⟩ | hno⟩ := hwait.pre
    swap
    · exact absurd hno id
    obtain ⟨_, t, _, hnext, rfl, ht⟩ := (Solo.consoleread_sleeps a1.toNat
      (a2.setWidth 32) (a2.setWidth 32) hw.cproc (hg.home p hw.cproc)
      (hg.not_killed hx.called) (by rw [hcore]; exact hempty)).next
      (a := .consolereadWait p a1.toNat (a2.setWidth 32) (a2.setWidth 32)) rfl hμ.solo
    exact ⟨t, m, b, hwait.next hnext, by rw [ht, hcore]; rfl⟩
  · rintro kpt x h₀ m _ rfl hcalling hregs
    refine .bind (Solo.argraw hcalling .a0 (.bind (Solo.argraw hcalling .a1 (.bind
      (Solo.argraw hcalling .a2 ?_)))))
    rw [hregs]
    refine does_ite (fun hfd => absurd rfl hfd) fun _ => ?_
    refine .bind (Solo.acquire (.bind (Solo.modCore (does_pure ⟨rfl, m, ?_⟩))))
    have hwritable : ((s.core.emit (.trap p (Sysno.read.regs 0 a1 a2) 0 8)).setMem m).bufferWritable
        p a1.toNat (a2.setWidth 32) = true :=
      decide_eq_true fun k hk => hcalling.good.writable hp
        (show (a1.toNat + k) / 4096 * 4096 < (s.core.procs p).sz by omega)
    show Core.emit _ (.readCall p a1.toNat (a2.setWidth 32) (Core.bufferWritable _ p a1.toNat
      (a2.setWidth 32))) = _
    rw [hwritable]
    rfl

/-- **A process gets the line** that was typed. -/
theorem Reachable.takes
    (hs : Reachable L image fails ⟨s, .ret (.consolereadWait p dst n target), []⟩)
    (hne : s.core.cons.r ≠ s.core.cons.w) (hbyte : s.core.cons.get s.core.cons.r = 10)
    (hdst : dst < (s.core.procs p).sz) :
    ∃ t v regs pc, Reachable L image fails ⟨t, .ret .user, []⟩ ∧
      t.core = { s.core with
        vm := v
        cons := s.core.cons.pop
        log := .resume p regs pc :: .sysret p ((target - (n - 1)).signExtend 64) ::
          .readRet p (target - (n - 1)) :: .handed p 10 :: s.core.log } := by
  obtain ⟨kpt, -, ⟨h₀, μ, -, hμ, ⟨b, rfl⟩, hg, hw, -⟩ | hno⟩ := hs.pre
  swap
  · exact absurd hno id
  have hwritable : s.core.vm.mem.Writable (s.core.procs p).pagetable dst :=
    hg.writable hw.cproc (by omega)
  obtain ⟨_, u, _, hnext, rfl, v, hcore⟩ :=
    (Solo.consoleread_line n target hg hw.cproc hne hbyte hwritable).next
      (a := .consolereadWait p dst n target) rfl hμ.solo
  obtain ⟨t, m, regs, pc, ht, hcore'⟩ := (hs.next hnext).returns
  exact ⟨t, { v with mem := m }, regs, pc, ht, by rw [hcore', hcore]; rfl⟩

/-- **A process writes** to the console. -/
theorem Reachable.writes (hs : Reachable L image fails ⟨s, .ret .user, []⟩)
    (hp : s.core.cproc = some p) (a1 a2 : BitVec 64) : ∃ t m,
      Reachable L image fails ⟨t, .ret (.consolewrite p a1.toNat (a2.setWidth 32) 0), []⟩ ∧
      t.core = (s.core.emit (.trap p (Sysno.write.regs 1 a1 a2) 0 8)).setMem m := by
  have hcall := hs.calls hp .write 1 a1 a2 (Q := fun a _ c' =>
    a = .consolewrite p a1.toNat (a2.setWidth 32) 0 ∧ ∃ m,
    c' = (s.core.emit (.trap p (Sysno.write.regs 1 a1 a2) 0 8)).setMem m) ?_
  · obtain ⟨_, t, _, ht, rfl, m, hcore⟩ := hcall
    exact ⟨t, m, ht, hcore⟩
  · rintro kpt x h₀ m _ rfl hcalling hregs
    refine .bind (Solo.argraw hcalling .a0 (.bind (Solo.argraw hcalling .a1 (.bind
      (Solo.argraw hcalling .a2 ?_)))))
    rw [hregs]
    exact does_ite (fun hfd => absurd rfl hfd.1) fun _ => does_pure ⟨rfl, m, rfl⟩

/-- **A byte is sent** from the memory of a process. -/
theorem Reachable.next_sends (hs : Reachable L image fails ⟨s, .ret (.consolewrite p dst 1 0), []⟩)
    (hdst : dst < (s.core.procs p).sz) : ∃ t,
      (kernel L).Next (.consolewrite p dst 1 0, s) (.consolewrite p dst 1 1, t) ∧
      t.core = s.core.sent [s.core.vm.mem (s.core.vm.mem.phys (s.core.procs p).pagetable dst)] := by
  obtain ⟨kpt, -, ⟨h₀, μ, -, hμ, ⟨b, rfl⟩, hw, -⟩ | hno⟩ := hs.pre
  swap
  · exact absurd hno id
  have hg := hμ.unlocked.good
  obtain ⟨o, hsp⟩ := hg.spaces
  have hroot := (hsp.owned p _ (hg.spaces_running hw.cproc)).root
  have hwritable : s.core.vm.mem.Writable (s.core.procs p).pagetable dst :=
    hg.writable hw.cproc (by omega)
  have hsize := hg.size_le hw.cproc
  obtain ⟨h, ⟨-, hnext⟩ | ⟨⟨k, hk, hbad⟩, -⟩⟩ := next_consolewrite (L := L) (n := 1) (i := 0)
    hw.cproc (hsp.inv.tables.userTable hroot).toNonNull (by decide)
    (show dst + 0 < wordSize by rw [wordSize]; omega)
  · exact ⟨_, hnext, rfl⟩
  · obtain rfl : k = 0 := Nat.lt_one_iff.mp hk
    exact absurd ((hsp.inv.tables.loadable_iff hroot).mpr hwritable.1) hbad

/-- **A new process gets the CPU.** -/
theorem Reachable.runs_child (hs : Reachable L image fails ⟨s, .ret (.schedulerBack p), []⟩)
    (hbooted : s.core.first = false) (hi : (s.core.procs i).state = .runnable)
    (hctx : (s.core.procs i).context = some .forkret)
    (honly : ∀ j, (s.core.procs j).state = .runnable → j = i) :
    ∃ t m regs pc, Reachable L image fails ⟨t, .ret .user, []⟩ ∧
      t.core = ((s.core.dispatch i).emit (.resume i regs pc)).setMem m := by
  obtain ⟨u, hu, hcore⟩ := hs.reschedules hi hctx honly
  obtain ⟨t, m, regs, pc, ht, hcore'⟩ := hu.born (p := i) (by rw [hcore]; rfl)
    (by rw [hcore]; exact hbooted)
  exact ⟨t, m, regs, pc, ht, by rw [hcore', hcore]⟩

/-- **Nobody can run**: the scheduler goes round with interrupts enabled. -/
theorem Reachable.idles (hs : Reachable L image fails ⟨s, .ret (.schedulerBack p), []⟩)
    (hno : ∀ i, (s.core.procs i).state ≠ .runnable) :
    ∃ t, Reachable L image fails ⟨t, .ret (.schedulerScan 0 false), []⟩ ∧ t.core = s.core.idle ∧
      t.hart.sie = true := by
  obtain ⟨u, hnext, hcore⟩ := hs.next_back
  have hp := p.isLt
  obtain ⟨v, hv, hcore'⟩ := (hs.next hnext).skips (nproc - (p + 1)) (by omega)
    fun i _ _ => by rw [hcore]; exact hno i
  refine ⟨_, (hv.next (next_wrap v (by omega) true)).next (next_scheduler v), ?_, rfl⟩
  exact hcore'.trans hcore

/-! ### One process and two -/

/-- One process, `init`, which runs and has memory; nothing has been typed. -/
structure Core.Single (c : Core) : Prop where
  cproc : c.cproc = some 0
  running : (c.procs 0).state = .running
  size : (c.procs 0).sz = 16384
  init : c.initproc = some 0
  pid : c.nextpid = 2
  booted : c.first = false
  others : ∀ j, j ≠ 0 → (c.procs j).state = .unused
  orphans : ∀ j, (c.procs j).parent = none
  rx : c.rx = []
  input : c.input = []
  read : c.cons.r = c.cons.w
  typed : c.cons.e = c.cons.w
  calls : AllWritable c.log

/-- Two processes, `init` in the first slot and its child in the slot `i`, both with memory; nothing
has been typed. -/
structure Core.Pair (i : Slot) (c : Core) : Prop where
  ne : i ≠ 0
  init : c.initproc = some 0
  booted : c.first = false
  child : (c.procs i).parent = some 0
  parents : ∀ j k, (c.procs j).parent = some k → j = i ∧ k = 0
  others : ∀ j, j ≠ 0 → j ≠ i → (c.procs j).state = .unused
  size : ∀ j, j = 0 ∨ j = i → 4096 ≤ (c.procs j).sz
  rx : c.rx = []
  input : c.input = []
  read : c.cons.r = c.cons.w
  typed : c.cons.e = c.cons.w
  calls : AllWritable c.log

/-- One of the two processes changes, but neither its parent nor its size. -/
theorem Core.Pair.update (h : c.Pair i) (hj : j = 0 ∨ j = i) {pr : Proc} {v : Vm} {cp : Option Slot}
    {cc : Option Label} {l : List Event} (hpar : pr.parent = (c.procs j).parent)
    (hsz : pr.sz = (c.procs j).sz) (hl : AllWritable l) :
    ({ c with
      vm := v
      procs := Function.update c.procs j pr
      cproc := cp
      ccontext := cc
      log := l } : Core).Pair i := by
  have hsame : ∀ k, (Function.update c.procs j pr k).parent = (c.procs k).parent ∧
      (Function.update c.procs j pr k).sz = (c.procs k).sz := fun k => by
    by_cases hk : k = j
    · subst hk
      rw [Function.update_self]
      exact ⟨hpar, hsz⟩
    · rw [Function.update_of_ne hk]
      exact ⟨rfl, rfl⟩
  refine { h with
    child := (hsame i).1.trans h.child
    parents := fun k q hq => h.parents k q ((hsame k).1 ▸ hq)
    others := fun k hk hki => ?_
    size := fun k hk => by rw [(hsame k).2]; exact h.size k hk
    calls := hl }
  have hkj : k ≠ j := by
    rintro rfl
    exact hj.elim hk hki
  show (Function.update c.procs j pr k).state = .unused
  rw [Function.update_of_ne hkj, h.others k hk hki]

/-- Who can run is one of the two. -/
theorem Core.Pair.eq_of_ne (h : c.Pair i) (hj : (c.procs j).state ≠ .unused) : j = 0 ∨ j = i := by
  by_contra hcon
  rw [not_or] at hcon
  exact hj (h.others j hcon.1 hcon.2)

/-- The process sleeps on a channel, and goes on with `k`. -/
structure Proc.SleepsOn (p : Slot) (ch : Chan) (k : Resume) (pr : Proc) : Prop where
  state : pr.state = .sleeping
  chan : pr.chan = some ch
  context : ∃ b, pr.context = some (.sleepBack p b k)

theorem Core.sleepsOn (c : Core) (p : Slot) (ch : Chan) (b : Bool) (k : Resume) :
    ((c.sleeps p ch b k).procs p).SleepsOn p ch k := by
  rw [Core.sleeps_self]
  exact ⟨rfl, rfl, b, rfl⟩

/-- **The first process runs** the first program of the table, and there are pages left. -/
theorem Reachable.runs_first {e : Entry} {es : List Entry} {k : ℕ}
    (hs : Reachable L (.ofTable L (e :: es)) (fun _ => false) ⟨s, .ret .forkret, []⟩)
    (h : FirstRun L s) (hname : e.name = cstr "sh")
    (hfits : L.uprogTable + ((e :: es).flatMap Entry.bytes).length + 16 ≤ L.heap)
    (hle : e.start ≤ e.stop) (hsize : e.stop - e.start ≤ execTotal (e.stop - e.start))
    (hroom : L.heap + (4 + kvmPages L + (3 + userPages (execTotal (e.stop - e.start) / 4096) + k)) *
      4096 ≤ L.phystop) :
    ∃ t pt name v regs pc,
      Reachable L (.ofTable L (e :: es)) (fun _ => false) ⟨t, .ret .user, []⟩ ∧
      t.core = { s.core with
        vm := v
        first := false
        procs := Function.update s.core.procs 0
          ((s.core.procs 0).withImage pt (execTotal (e.stop - e.start)) name)
        log := .resume 0 regs pc :: .execed 0 :: s.core.log } ∧
      Supply L t.core.vm k := by
  have hsupply := h.supply hs hroom
  have hload := hs.loadable hfits hle ⟨hsize, hsupply.mono (Nat.le_add_right _ _)⟩
  rw [hname] at hload
  obtain ⟨t, up, size, pt, name, v, regs, pc, ht, hup, hsz, hcore, -, htook⟩ :=
    hs.starts h.cproc h.first hload
  -- the program that was found is the first one
  obtain ⟨kpt, -, -, -, -, -, -, hg, -⟩ := hs.forkret
  obtain ⟨o, hsp⟩ := hg.spaces
  obtain ⟨hfound, hstart, hstop⟩ := Core.findUprog_ofTable hfits hsp.image
  rw [hname, hup, Lookup.found.injEq] at hfound
  rw [hfound, hstart, hstop, execSize_eq hle e.stop_lt] at hsz
  rw [hsz] at hcore htook
  refine ⟨t, pt, name, v, regs, pc, ht, hcore, ?_⟩
  rw [hcore]
  exact htook.supply_iff.mpr hsupply

/-- On a machine with the program `sh` the first process runs it, and there are pages left. -/
theorem exists_single_virt : ∃ s : K,
    Reachable .virt shImage (fun _ => false) ⟨s, .ret .user, []⟩ ∧ s.core.Single ∧
    Supply .virt s.core.vm (forkPages (s.core.procs 0).sz) := by
  obtain ⟨r, hr, hfirst, -⟩ := exists_firstRun_sh
  obtain ⟨s, pt, name, v, regs, pc, hs, hcore, hroom⟩ := hr.runs_first (e := shEntry)
    (k := forkPages 16384) hfirst rfl (by decide) (by decide) (by decide) (by decide +kernel)
  obtain ⟨hinit, hpid, hlog, hrx, hinput, hread, htyped⟩ := hfirst.quiet
  have hself : s.core.procs 0 = (r.core.procs 0).withImage pt 16384 name := by
    rw [hcore]
    exact Function.update_self (0 : Slot) _ r.core.procs
  have hne : ∀ j, j ≠ 0 → s.core.procs j = r.core.procs j := fun j hj => by
    rw [hcore]
    exact Function.update_of_ne hj ..
  refine ⟨s, hs, ?_, by rw [hself]; exact hroom⟩
  constructor
  case cproc => rw [hcore]; exact hfirst.cproc
  case running => rw [hself]; exact hfirst.running
  case size => rw [hself]; rfl
  case init => rw [hcore]; exact hinit
  case pid => rw [hcore]; exact hpid
  case booted => rw [hcore]
  case others =>
    intro j hj
    rw [hne j hj, hfirst.unused hj]
  case orphans =>
    intro j
    by_cases hj : j = 0
    · rw [hj, hself]
      exact hfirst.parent 0
    · rw [hne j hj, hfirst.parent]
  case rx => rw [hcore]; exact hrx
  case input => rw [hcore]; exact hinput
  case read => rw [hcore]; exact hread
  case typed => rw [hcore]; exact htyped
  case calls =>
    rw [hcore, hlog]
    simp [AllWritable]

/-- **`init` forks.** -/
theorem Core.Single.forks (h : s.core.Single) (hs : Reachable L image fails ⟨s, .ret .user, []⟩)
    (hroom : Supply L s.core.vm (forkPages (s.core.procs 0).sz)) :
    ∃ t i regs pc, Reachable L image fails ⟨t, .ret .user, []⟩ ∧ t.core.Pair i ∧
      t.core.cproc = some 0 ∧ (t.core.procs 0).state = .running ∧
      (t.core.procs i).state = .runnable ∧ (t.core.procs i).context = some .forkret ∧
      t.core.log = .resume 0 regs pc :: .sysret 0 2 :: .parentSet (some 0) i (some 0) ::
        .forked 0 i :: .trap 0 (Sysno.fork.regs 0 0 0) 0 8 :: s.core.log := by
  obtain ⟨t, i, w, child, regs, pc, ht, hi, hchild, hcore⟩ := hs.forks h.cproc
    ⟨1, h.others 1 (by decide)⟩ hroom
  have hi0 : i ≠ 0 := by
    rintro rfl
    rw [h.running] at hi
    cases hi
  have hti : t.core.procs i = child := by
    rw [hcore]
    exact Function.update_self i child s.core.procs
  have htne : ∀ j, j ≠ i → t.core.procs j = s.core.procs j := fun j hj => by
    rw [hcore]
    exact Function.update_of_ne hj ..
  refine ⟨t, i, regs, pc, ht, ?_, by rw [hcore]; exact h.cproc,
    by rw [htne 0 hi0.symm]; exact h.running, by rw [hti]; exact hchild.state,
    by rw [hti]; exact hchild.context, by rw [hcore, h.pid]; rfl⟩
  constructor
  case ne => exact hi0
  case init => rw [hcore]; exact h.init
  case booted => rw [hcore]; exact h.booted
  case child => rw [hti]; exact hchild.parent
  case parents =>
    intro j k hk
    by_cases hj : j = i
    · rw [hj, hti, hchild.parent] at hk
      exact ⟨hj, (Option.some.inj hk).symm⟩
    · rw [htne j hj, h.orphans] at hk
      cases hk
  case others =>
    intro j hj hji
    rw [htne j hji, h.others j hj]
  case size =>
    rintro j (rfl | rfl)
    · rw [htne 0 hi0.symm, h.size]
      decide
    · rw [hti, hchild.sz, h.size]
      decide
  case rx => rw [hcore]; exact h.rx
  case input => rw [hcore]; exact h.input
  case read => rw [hcore]; exact h.read
  case typed => rw [hcore]; exact h.typed
  case calls =>
    rw [hcore]
    simp [h.calls]

/-- The first process has forked. -/
theorem exists_forked_virt : ∃ (s : K) (i : Slot),
    Reachable .virt shImage (fun _ => false) ⟨s, .ret .user, []⟩ ∧ s.core.Pair i ∧
    s.core.cproc = some 0 ∧ (s.core.procs 0).state = .running ∧
    (s.core.procs i).state = .runnable ∧ (s.core.procs i).context = some .forkret ∧
    ∃ regs pc l, s.core.log = .resume 0 regs pc :: .sysret 0 2 :: .parentSet (some 0) i (some 0) ::
      .forked 0 i :: .trap 0 (Sysno.fork.regs 0 0 0) 0 8 :: l := by
  obtain ⟨r, hr, hsingle, hroom⟩ := exists_single_virt
  obtain ⟨s, i, regs, pc, hs, hpair, hcp, hzero, hrun, hctx, hlog⟩ := hsingle.forks hr hroom
  exact ⟨s, i, hs, hpair, hcp, hzero, hrun, hctx, regs, pc, _, hlog⟩

/-- `init` sleeps, and its child runs for the first time. -/
theorem Core.Pair.child_runs {ch : Chan} {k : Resume} (hpair : s.core.Pair i)
    (hs : Reachable L image fails ⟨s, .ret (.schedulerBack 0), []⟩)
    (hzero : (s.core.procs 0).SleepsOn 0 ch k) (hrun : (s.core.procs i).state = .runnable)
    (hctx : (s.core.procs i).context = some .forkret) :
    ∃ t, Reachable L image fails ⟨t, .ret .user, []⟩ ∧ t.core.Pair i ∧ t.core.cproc = some i ∧
      (t.core.procs i).state = .running ∧ (t.core.procs 0).SleepsOn 0 ch k := by
  have honly : ∀ j, (s.core.procs j).state = .runnable → j = i := by
    intro j hj
    rcases hpair.eq_of_ne (j := j) (by rw [hj]; decide) with rfl | rfl
    · rw [hzero.state] at hj
      cases hj
    · rfl
  obtain ⟨t, m, regs, pc, ht, hcore⟩ := hs.runs_child hpair.booted hrun hctx honly
  have hi : t.core.procs i = { s.core.procs i with state := .running } := by
    rw [hcore]
    exact s.core.dispatch_self i
  have h0 : t.core.procs 0 = s.core.procs 0 := by
    rw [hcore]
    exact s.core.dispatch_ne hpair.ne.symm
  refine ⟨t, ht, ?_, by rw [hcore]; rfl, by rw [hi], by rwa [h0]⟩
  rw [hcore]
  refine hpair.update (j := i) (.inr rfl) rfl rfl ?_
  exact allWritable_cons.mpr ⟨by simp, hpair.calls⟩

/-- The first process waits for its child, which runs. -/
theorem exists_parent_waits_virt : ∃ (s : K) (i : Slot),
    Reachable .virt shImage (fun _ => false) ⟨s, .ret .user, []⟩ ∧ s.core.Pair i ∧
    s.core.cproc = some i ∧ (s.core.procs i).state = .running ∧
    (s.core.procs 0).SleepsOn 0 (.proc 0) (.kwait 8) := by
  obtain ⟨r, i, hr, hpair, hcp, -, hrun, hctx, -⟩ := exists_forked_virt
  have hliving : ∀ j, (r.core.procs j).parent = some 0 → (r.core.procs j).state ≠ .zombie := by
    intro j hj
    rw [(hpair.parents j 0 hj).1, hrun]
    decide
  obtain ⟨s, m, b, hs, hcore⟩ := hr.waits hcp 8 hpair.child hliving
  have h0 : (s.core.procs 0).SleepsOn 0 (.proc 0) (.kwait 8) := by
    rw [hcore]
    exact Core.sleepsOn _ _ _ b _
  have hi : s.core.procs i = r.core.procs i := by
    rw [hcore]
    exact Core.sleeps_ne _ _ _ _ hpair.ne
  have hpair' : s.core.Pair i := by
    rw [hcore]
    refine hpair.update (.inl rfl) rfl rfl ?_
    show AllWritable (_ :: _ :: _ :: _ :: r.core.log)
    simp [hpair.calls]
  obtain ⟨t, ht⟩ := hpair'.child_runs hs h0 (by rw [hi]; exact hrun) (by rw [hi]; exact hctx)
  exact ⟨t, i, ht⟩

/-- **The child exits**, and `init` wakes up to reap it. -/
theorem Core.Pair.child_exits (hpair : s.core.Pair i)
    (hs : Reachable L image fails ⟨s, .ret .user, []⟩) (hcp : s.core.cproc = some i)
    (hzero : (s.core.procs 0).SleepsOn 0 (.proc 0) (.kwait addr)) (a0 : BitVec 64) :
    ∃ t, Reachable L image fails ⟨t, .ret (.kwait 0 addr), []⟩ ∧ t.core.cproc = some 0 ∧
      (t.core.procs 0).state = .running ∧ (t.core.procs 0).sz = (s.core.procs 0).sz ∧
      (t.core.procs i).state = .zombie ∧
      (∀ j, (t.core.procs j).parent = (s.core.procs j).parent) ∧
      .exited i (t.core.procs i).pid (a0.setWidth 32) ∈ t.core.log := by
  have hinit : s.core.initproc ≠ some i := by
    rw [hpair.init]
    simpa using hpair.ne.symm
  have hno : ∀ j, (s.core.procs j).parent ≠ some i := fun j hj =>
    hpair.ne (hpair.parents j i hj).2
  obtain ⟨b, hctx⟩ := hzero.context
  obtain ⟨s₁, m₁, hs₁, hcore₁⟩ := hs.exits hcp a0 hinit hno hpair.child
  have hself₁ : s₁.core.procs i = { (s.core.procs i).wake (some (.proc 0)) with
      xstate := a0.setWidth 32, state := .zombie, context := some .exitBack } := by
    rw [hcore₁]
    exact Core.exits_self _ _ _ _
  have hne₁ : ∀ j, j ≠ i → s₁.core.procs j = (s.core.procs j).wake (some (.proc 0)) := by
    intro j hj
    rw [hcore₁]
    exact Core.exits_ne _ _ _ hj
  have hzero₁ : s₁.core.procs 0 = (s.core.procs 0).woken := by
    rw [hne₁ 0 hpair.ne.symm, Proc.wake_self hzero.chan]
  -- `init` is the only process that can run
  have honly₁ : ∀ j, (s₁.core.procs j).state = .runnable → j = 0 := by
    intro j hj
    by_contra hj0
    by_cases hji : j = i
    · rw [hji, hself₁] at hj
      cases hj
    · have hunused := hpair.others j hj0 hji
      rw [hne₁ j hji, Proc.wake_state_of_ne (by rw [hunused]; decide), hunused] at hj
      cases hj
  have hparent₁ : ∀ j, (s₁.core.procs j).parent = (s.core.procs j).parent := by
    intro j
    by_cases hji : j = i
    · rw [hji, hself₁]
      exact (s.core.tame_wakeAll _ i).parent
    · rw [hne₁ j hji]
      exact (s.core.tame_wakeAll _ j).parent
  obtain ⟨s₂, hs₂, hcore₂⟩ := hs₁.reschedules (j := 0) (b := .sleepBack 0 b (.kwait addr))
    (by rw [hzero₁]; exact if_pos hzero.state) (by rw [hzero₁]; exact hctx) honly₁
  obtain ⟨t, ht, hcore⟩ := hs₂.wakes
  have hprocs : t.core.procs = (s₁.core.dispatch 0).procs := by rw [hcore, hcore₂]; rfl
  have hi : t.core.procs i = s₁.core.procs i := by
    rw [hprocs]
    exact s₁.core.dispatch_ne hpair.ne
  refine ⟨t, ht, by rw [hcore, hcore₂]; rfl, ?_, ?_, by rw [hi, hself₁], fun j => ?_, ?_⟩
  · rw [hprocs, Core.dispatch_self]
  · rw [hprocs, Core.dispatch_self, hzero₁]
    rfl
  · rw [← hparent₁, hprocs]
    by_cases hj : j = 0
    · rw [hj, Core.dispatch_self]
    · rw [Core.dispatch_ne _ hj]
  · have hlog : t.core.log = .back 0 b 0 :: .exited i (s₁.core.procs i).pid (a0.setWidth 32) ::
        .trap i (Sysno.exit.regs a0 0 0) 0 8 :: s.core.log := by
      rw [hcore, hself₁, hcore₂, hcore₁]
      rfl
    rw [hlog, hi]
    simp

/-- The child of the first process has exited with the status 7. -/
theorem exists_zombie_virt : ∃ (s : K) (i : Slot),
    Reachable .virt shImage (fun _ => false) ⟨s, .ret (.kwait 0 8), []⟩ ∧ i ≠ 0 ∧
    s.core.cproc = some 0 ∧ (s.core.procs 0).state = .running ∧ 4096 ≤ (s.core.procs 0).sz ∧
    (s.core.procs i).state = .zombie ∧ (∀ j, (s.core.procs j).parent = some 0 ↔ j = i) ∧
    .exited i (s.core.procs i).pid 7 ∈ s.core.log := by
  obtain ⟨r, i, hr, hpair, hcp, -, hzero⟩ := exists_parent_waits_virt
  obtain ⟨s, hs, hcp', hrun, hsz, hzombie, hparent, hexited⟩ := hpair.child_exits hr hcp hzero 7
  refine ⟨s, i, hs, hpair.ne, hcp', hrun, ?_, hzombie, fun j => ?_, hexited⟩
  · rw [hsz]
    exact hpair.size 0 (.inl rfl)
  · rw [hparent]
    refine ⟨fun hj => (hpair.parents j 0 hj).1, ?_⟩
    rintro rfl
    exact hpair.child

/-- **One of the two reads** a byte from the console, where nothing is typed, and sleeps. -/
theorem Core.Pair.sleeps (hpair : s.core.Pair i) (hs : Reachable L image fails ⟨s, .ret .user, []⟩)
    (hcp : s.core.cproc = some p) (hp : p = 0 ∨ p = i) :
    ∃ t, Reachable L image fails ⟨t, .ret (.schedulerBack p), []⟩ ∧ t.core.Pair i ∧
      (t.core.procs p).SleepsOn p .consR (.consoleread 16 1 1) ∧
      ∀ j, j ≠ p → t.core.procs j = s.core.procs j := by
  obtain ⟨t, m, b, ht, hcore⟩ := hs.reads hcp 16 1 (by decide)
    (le_trans (by decide) (hpair.size p hp)) hpair.read
  refine ⟨t, ht, ?_, ?_, fun j hj => ?_⟩
  · rw [hcore]
    refine hpair.update hp rfl rfl ?_
    show AllWritable (_ :: _ :: _ :: _ :: s.core.log)
    simp [hpair.calls]
  · rw [hcore]
    exact Core.sleepsOn _ _ _ b _
  · rw [hcore]
    exact Core.sleeps_ne _ _ _ _ hj

/-- **A line is typed** while both sleep. -/
theorem Core.Pair.hears (hpair : s.core.Pair i)
    (hs : Reachable L image fails ⟨s, .ret (.schedulerScan 0 false), []⟩)
    (hsie : s.hart.sie = true) :
    ∃ t, Reachable L image fails ⟨t, .ret (.schedulerScan 0 false), []⟩ ∧
      (∀ j, t.core.procs j = (s.core.procs j).wake (some .consR)) ∧
      t.core.cons.r ≠ t.core.cons.w ∧ t.core.cons.get t.core.cons.r = 10 ∧ t.core.input = [10] ∧
      t.core.log = .echoed 10 :: .arrived 10 :: s.core.log := by
  have hempty : s.core.cons.e = s.core.cons.r := hpair.typed.trans hpair.read.symm
  obtain ⟨t, ht, hcore⟩ := hs.types hsie hpair.rx 10 (by decide)
    (by rw [hempty, BitVec.sub_self]; decide) (by decide)
  refine ⟨t, ht, fun j => ?_, ?_, ?_, ?_, ?_⟩
  · rw [hcore]
    rfl
  · rw [hcore]
    show s.core.cons.r ≠ s.core.cons.e + 1
    rw [hempty]
    bv_omega
  · rw [hcore]
    show (s.core.cons.push 10).get s.core.cons.r = 10
    rw [← hempty]
    exact Function.update_self ..
  · rw [hcore]
    show s.core.input ++ [10] = [10]
    rw [hpair.input, List.nil_append]
  · rw [hcore]
    rfl

/-- **Nobody runs**: both processes sleep. -/
theorem Core.Pair.idles {ch : Chan} {k k' : Resume} (hpair : s.core.Pair i)
    (hs : Reachable L image fails ⟨s, .ret (.schedulerBack p), []⟩)
    (hzero : (s.core.procs 0).SleepsOn 0 ch k) (hi : (s.core.procs i).SleepsOn i .consR k') :
    ∃ t, Reachable L image fails ⟨t, .ret (.schedulerScan 0 false), []⟩ ∧ t.core.Pair i ∧
      t.hart.sie = true ∧ t.core.procs = s.core.procs := by
  obtain ⟨t, ht, hcore, hsie⟩ := hs.idles fun j hj => by
    rcases hpair.eq_of_ne (j := j) (by rw [hj]; decide) with rfl | rfl
    · rw [hzero.state] at hj
      cases hj
    · rw [hi.state] at hj
      cases hj
  refine ⟨t, ht, ?_, hsie, by rw [hcore]; rfl⟩
  rw [hcore]
  exact { hpair with }

/-- The first process waits for its child, which waits for input. -/
theorem exists_both_asleep_virt : ∃ (s : K) (i : Slot),
    Reachable .virt shImage (fun _ => false) ⟨s, .ret (.schedulerScan 0 false), []⟩ ∧
    s.core.Pair i ∧ s.hart.sie = true ∧ (s.core.procs 0).SleepsOn 0 (.proc 0) (.kwait 8) ∧
    (s.core.procs i).SleepsOn i .consR (.consoleread 16 1 1) := by
  obtain ⟨r, i, hr, hpair, hcp, -, hzero⟩ := exists_parent_waits_virt
  obtain ⟨s, hs, hpair', hi, hne⟩ := hpair.sleeps hr hcp (.inr rfl)
  rw [← hne 0 hpair.ne.symm] at hzero
  obtain ⟨t, ht, hpair'', hsie, hprocs⟩ := hpair'.idles hs hzero hi
  rw [← hprocs] at hzero hi
  exact ⟨t, i, ht, hpair'', hsie, hzero, hi⟩

/-- The child has read the line that was typed. -/
theorem exists_line_read_virt : ∃ (s : K) (i : Slot),
    Reachable .virt shImage (fun _ => false) ⟨s, .ret .user, []⟩ ∧ s.core.input = [10] ∧
    AllWritable s.core.log ∧ .echoed 10 ∈ s.core.log ∧ .handed i 10 ∈ s.core.log ∧
    .readRet i 1 ∈ s.core.log ∧ ∃ b, .back i b 0 ∈ s.core.log := by
  obtain ⟨r, i, hr, hpair, hsie, hzero, hi⟩ := exists_both_asleep_virt
  obtain ⟨b, hctx⟩ := hi.context
  obtain ⟨s₁, hs₁, hprocs₁, hne, hbyte, hinput, hlog⟩ := hpair.hears hr hsie
  have hi₁ : s₁.core.procs i = (r.core.procs i).woken := by
    rw [hprocs₁, Proc.wake_self hi.chan]
  have hzero₁ : s₁.core.procs 0 = r.core.procs 0 := by
    rw [hprocs₁, Proc.wake_ne (by rw [hzero.chan]; decide)]
  -- the child is the only process that can run
  have honly : ∀ j, (s₁.core.procs j).state = .runnable → j = i := by
    intro j hj
    by_contra hji
    by_cases hj0 : j = 0
    · rw [hj0, hzero₁, hzero.state] at hj
      cases hj
    · have hunused := hpair.others j hj0 hji
      rw [hprocs₁, Proc.wake_state_of_ne (by rw [hunused]; decide), hunused] at hj
      cases hj
  obtain ⟨s₂, hs₂, hcore₂⟩ := hs₁.dispatches (j := i) (b := .sleepBack i b (.consoleread 16 1 1))
    (Nat.zero_le _) (by rw [hi₁]; exact if_pos hi.state) (by rw [hi₁]; exact hctx) honly
  obtain ⟨s₃, hs₃, hcore₃⟩ := hs₂.wakes
  have hsz₃ : (s₃.core.procs i).sz = (r.core.procs i).sz := by
    rw [hcore₃, hcore₂]
    show ((s₁.core.dispatch i).procs i).sz = _
    rw [Core.dispatch_self, hi₁]
    rfl
  obtain ⟨t, v, regs, pc, ht, hcore⟩ := hs₃.takes (p := i) (n := 1)
    (by rw [hcore₃, hcore₂]; exact hne) (by rw [hcore₃, hcore₂]; exact hbyte)
    (by rw [hsz₃]; exact lt_of_lt_of_le (by decide) (hpair.size i (.inr rfl)))
  have htlog : t.core.log = .resume i regs pc :: .sysret i 1 :: .readRet i 1 :: .handed i 10 ::
      .back i b 0 :: .echoed 10 :: .arrived 10 :: r.core.log := by
    rw [hcore, hcore₃, hcore₂, ← hlog]
    rfl
  refine ⟨t, i, ht, ?_, ?_, ?_, ?_, ?_, b, ?_⟩
  · rw [hcore, hcore₃, hcore₂]
    exact hinput
  · rw [htlog]
    simp [hpair.calls]
  all_goals
    rw [htlog]
    simp

/-- Both processes wait for the CPU, with input to read. -/
theorem exists_both_ready_virt : ∃ (s : K) (i : Slot),
    Reachable .virt shImage (fun _ => false) ⟨s, .ret (.schedulerScan 0 false), []⟩ ∧ i ≠ 0 ∧
    s.core.cons.r ≠ s.core.cons.w ∧ 4096 ≤ (s.core.procs 0).sz ∧
    (s.core.procs 0).state = .runnable ∧ (s.core.procs i).state = .runnable ∧
    ∃ b, (s.core.procs 0).context = some (.sleepBack 0 b (.consoleread 16 1 1)) := by
  obtain ⟨r, i, hr, hpair, hcp, -, hrun, hctx, -⟩ := exists_forked_virt
  obtain ⟨s₁, hs₁, hpair₁, hzero₁, hne₁⟩ := hpair.sleeps hr hcp (.inl rfl)
  obtain ⟨s₂, hs₂, hpair₂, hcp₂, -, hzero₂⟩ := hpair₁.child_runs hs₁ hzero₁
    (by rw [hne₁ i hpair.ne]; exact hrun) (by rw [hne₁ i hpair.ne]; exact hctx)
  obtain ⟨s₃, hs₃, hpair₃, hi₃, hne₃⟩ := hpair₂.sleeps hs₂ hcp₂ (.inr rfl)
  rw [← hne₃ 0 hpair.ne.symm] at hzero₂
  obtain ⟨s₄, hs₄, hpair₄, hsie, hprocs₄⟩ := hpair₃.idles hs₃ hzero₂ hi₃
  rw [← hprocs₄] at hzero₂ hi₃
  obtain ⟨t, ht, hprocs, hne, -⟩ := hpair₄.hears hs₄ hsie
  have hzero : t.core.procs 0 = (s₄.core.procs 0).woken := by
    rw [hprocs, Proc.wake_self hzero₂.chan]
  have hi : t.core.procs i = (s₄.core.procs i).woken := by
    rw [hprocs, Proc.wake_self hi₃.chan]
  obtain ⟨b, hctx₀⟩ := hzero₂.context
  refine ⟨t, i, ht, hpair.ne, hne, ?_, ?_, ?_, b, ?_⟩
  · rw [hzero]
    exact hpair₄.size 0 (.inl rfl)
  · rw [hzero]
    exact if_pos hzero₂.state
  · rw [hi]
    exact if_pos hi₃.state
  · rw [hzero]
    exact hctx₀

end OsKernel
