import OsKernel.Boot.Main
import OsKernel.Exec.Path

/-!
# The first process

When the first process comes to `forkret` it has no image yet. `forkret` calls `kexec("sh")`, stores
the result in the field `a0` of the trapframe and means to panic if it is negative. The field is an
unsigned word, so the test never holds: the process goes to user mode whether `kexec` has failed or
not. It has an image exactly if `kexec` has returned 0.
-/

namespace OsKernel

variable {L : Layout} {image : Mem} {fails : ℕ → Bool} {s t : K} {p : Slot}

/-! ### From the scheduler to `forkret` -/

/-- The state of the first process when it comes to `forkret`: the one `main` has left, with this
process running. -/
structure FirstRun (L : Layout) (s : K) : Prop where
  core : ∃ kpt v tf pt tx, s.core = (Core.launched kpt v tf pt tx).dispatch 0
  room : s.core.vm.freemem ≤ L.heap + (4 + kvmPages L) * 4096

namespace FirstRun

variable (h : FirstRun L s)

include h

theorem first : s.core.first = true := by
  obtain ⟨_, _, _, _, _, hcore⟩ := h.core
  rw [hcore]
  rfl

theorem cproc : s.core.cproc = some 0 := by
  obtain ⟨_, _, _, _, _, hcore⟩ := h.core
  rw [hcore]
  rfl

theorem sz : (s.core.procs 0).sz = 0 := by
  obtain ⟨_, _, _, _, _, hcore⟩ := h.core
  rw [hcore, Core.dispatch_self]
  rfl

/-- There is no other process. -/
theorem unused {i : Slot} (hi : i ≠ 0) : (s.core.procs i).state = .unused := by
  obtain ⟨kpt, v, tf, pt, tx, hcore⟩ := h.core
  have hzero : (Core.launched kpt v tf pt tx).procs i = Proc.zero i := Function.update_of_ne hi ..
  rw [hcore, Core.dispatch_ne _ hi, hzero]
  rfl

theorem running : (s.core.procs 0).state = .running := by
  obtain ⟨_, _, _, _, _, hcore⟩ := h.core
  rw [hcore, Core.dispatch_self]

theorem parent (i : Slot) : (s.core.procs i).parent = none := by
  obtain ⟨kpt, v, tf, pt, tx, hcore⟩ := h.core
  by_cases hi : i = 0
  · rw [hcore, hi, Core.dispatch_self]
    rfl
  · rw [hcore, Core.dispatch_ne _ hi,
      show (Core.launched kpt v tf pt tx).procs i = Proc.zero i from Function.update_of_ne hi ..]
    rfl

/-- Nothing has happened yet. -/
theorem quiet : s.core.initproc = some 0 ∧ s.core.nextpid = 2 ∧ s.core.log = [] ∧ s.core.rx = [] ∧
    s.core.input = [] ∧ s.core.cons.r = s.core.cons.w ∧ s.core.cons.e = s.core.cons.w := by
  obtain ⟨_, _, _, _, _, hcore⟩ := h.core
  rw [hcore]
  exact ⟨rfl, rfl, rfl, rfl, rfl, rfl, rfl⟩

end FirstRun

/-- The scheduler switches to the first process. -/
theorem Booted.firstRun (hs : Booted L image fails s) :
    ∃ t, Reachable L image fails ⟨t, .ret .forkret, []⟩ ∧ FirstRun L t := by
  obtain ⟨_, hl⟩ := hs.launched
  obtain ⟨h₀, -, hu⟩ := hl.hart
  obtain ⟨kpt, v, tf, pt, tx, hcore⟩ := hl.core
  have hroom := hl.room
  obtain ⟨c, h⟩ := s
  obtain rfl : c = .launched kpt v tf pt tx := hcore
  have hheld : Lock.proc 0 ∉ h.intrOn.held := by
    rw [show h.intrOn.held = ∅ from hu.unlocked.held]
    exact Finset.notMem_empty _
  have hscan : (schedulerScan 0 false).run ⟨.launched kpt v tf pt tx, h.intrOn⟩ =
      .ok (.forkret,
        ⟨(Core.launched kpt v tf pt tx).dispatch 0, h.intrOn.pushed.take (.proc 0)⟩) := by
    rw [schedulerScan, dif_pos (by decide)]
    refine (run_acquire_bind (.proc 0) hheld _).trans ?_
    rfl
  have hon : (kernel L).Next (.scheduler, ⟨.launched kpt v tf pt tx, h⟩)
      (.schedulerScan 0 false, ⟨.launched kpt v tf pt tx, h.intrOn⟩) := ⟨_, rfl, rfl⟩
  have hpath := System.micro_of_next (.tail (.single hon) ⟨_, rfl, hscan⟩)
  exact ⟨_, ⟨_, hs, hpath⟩, ⟨kpt, v, tf, pt, tx, rfl⟩, hroom⟩

/-! ### User memory -/

/-- The page of a virtual address is mapped for user code to execute. -/
def Mem.UserExecutable (m : Mem) (r va : ℕ) : Prop :=
  ∃ pa fl, m.meaning r (va / 4096) = some (pa, fl) ∧ fl &&& pteU ≠ 0 ∧ fl &&& pteX ≠ 0

theorem Good.userExecutable {S : Site} {c : Core} (hg : Good L S c) (hp : c.cproc = some p)
    (hsz : 0 < (c.procs p).sz) : c.vm.mem.UserExecutable (c.procs p).pagetable 0 := by
  have hshape := hg.shape hp
  have hflags := hshape.user 0 (by simpa using hsz)
  have hvalid : c.vm.mem.entry (c.procs p).pagetable 0 &&& pteV ≠ 0 :=
    hshape.user_ne_zero (s := c.vm) (by simpa using hsz) (by decide) (by decide)
  refine ⟨pte2pa (c.vm.mem.entry (c.procs p).pagetable 0), userFlags, ?_, by decide, by decide⟩
  rw [Mem.meaning, leafMeaning, Nat.zero_div, if_neg hvalid, hflags]

/-- A process of size 0 has nothing mapped below its trapframe. -/
theorem Good.meaning_eq_none {S : Site} {c : Core} (hg : Good L S c) (hp : c.cproc = some p)
    (hsz : (c.procs p).sz = 0) {w : ℕ} (hw : w < trapframeVpn) :
    c.vm.mem.meaning (c.procs p).pagetable w = none := by
  have htop : w < 2 ^ 26 - 2 := hw
  have hempty := (hg.shape hp).empty w (by omega) (by omega) hw.ne
    (hw.trans (by decide : trapframeVpn < trampolineVpn)).ne
  rw [Mem.meaning, hempty]
  rfl

/-! ### `forkret` -/

theorem Reachable.forkret (hs : Reachable L image fails ⟨s, .ret .forkret, []⟩) :
    ∃ kpt p h₀ b, s.core.cproc = some p ∧ Kern L (bootSite image fails kpt) h₀ ∧
      Mode.IsLocked L (Env.interrupts.discipline L (bootSite image fails kpt)) h₀ {.proc p} b s ∧
      Good L (bootSite image fails kpt) s.core ∧ Working p s.core ∧
        (s.core.hist p).trap = none := by
  obtain ⟨kpt, -, ⟨h₀, μ, hk, hμ, p, ⟨b, rfl⟩, hg, hw, htrap⟩ | hno⟩ := hs.pre
  · exact ⟨kpt, p, h₀, b, hw.cproc, hk, hμ, hg, hw, htrap⟩
  · exact absurd hno id

/-- By itself `usertrapret` writes the header of the trapframe. -/
theorem run_usertrapret_bind {α : Type} {c : Core} (hp : c.cproc = some p) (h : Hart)
    (k : Unit → KernelM α) : ∃ satp sp trap hartid h', (usertrapret L >>= k).run ⟨c, h⟩ =
      (k ()).run ⟨c.setHeader p satp sp trap hartid, h'⟩ :=
  ⟨_, _, _, _, _, Prog.run_bind_of_ok (run_myproc_bind (s := ⟨c, h⟩) hp _)⟩

/-- The end of `usertrap` and of `forkret`, left alone. -/
theorem run_leave (hp : s.core.cproc = some p) : ∃ t, (do
      usertrapret L
      let pt ← getCore fun c => (c.procs p).pagetable
      return .userret (satpOf pt) : KernelM Label).run s =
        .ok (.userret (satpOf (t.core.procs p).pagetable), t) ∧
      ∃ satp sp trap hartid, t.core = s.core.setHeader p satp sp trap hartid := by
  obtain ⟨c, h⟩ := s
  obtain ⟨satp, sp, trap, hartid, h', hret⟩ := run_usertrapret_bind (L := L) (p := p) (c := c) hp h
    fun _ => do
      let pt ← getCore fun c => (c.procs p).pagetable
      return Label.userret (satpOf pt)
  exact ⟨⟨_, h'⟩, hret, satp, sp, trap, hartid, rfl⟩

/-- `forkret` of the first process, left alone: it goes to user mode with what `kexec` returns in
`a0`. -/
theorem run_forkret_first {h₀ : Hart} {b : Bool} {Q : BitVec 32 → Core → Prop}
    (hs : Mode.At L .solo h₀ (.locked {.proc p} b) s) (hp : s.core.cproc = some p)
    (hfirst : s.core.first = true)
    (hexec : Does L .solo h₀ (kexec L (cstr "sh")) (.unlocked b) s.core.started fun v μ c' =>
      μ = .unlocked b ∧ c'.cproc = some p ∧ Q v c') :
    ∃ v c' t, (forkret L).run s = .ok (.userret (satpOf (t.core.procs p).pagetable), t) ∧
      Q v c' ∧ ∃ satp sp trap hartid, t.core =
        (c'.tfStore p Reg.a0.offset (v.signExtend 64)).setHeader p satp sp trap hartid := by
  obtain ⟨_, s₁, _, hrun₁, hs₁, rfl, rfl, hc₁⟩ := (Solo.myproc hp).run_bind hs rfl
  have hrelease : Does L .solo h₀ (release (.proc p)) (.locked {.proc p} b) s.core fun _ μ c' =>
    μ = .unlocked b ∧ c' = s.core := Solo.release ⟨rfl, rfl⟩
  obtain ⟨_, s₂, _, hrun₂, hs₂, rfl, hc₂⟩ := hrelease.run_bind hs₁ hc₁
  have hstart : Does L .solo h₀ (modCore fun c => { c with first := false }) (.unlocked b) s.core
    fun _ μ c' => μ = .unlocked b ∧ c' = s.core.started := Solo.modCore ⟨rfl, rfl⟩
  obtain ⟨_, s₃, _, hrun₃, hs₃, rfl, hc₃⟩ := hstart.run_bind hs₂ hc₂
  obtain ⟨v, s₄, _, hrun₄, hs₄, rfl, hp₄, hq⟩ := hexec.run_bind hs₃ hc₃
  obtain ⟨t, hleave, hcore⟩ := run_leave (L := L) (p := p)
    (s := { s₄ with core := s₄.core.tfStore p Reg.a0.offset (v.signExtend 64) }) hp₄
  refine ⟨v, s₄.core, t, ?_, hq, hcore⟩
  rw [forkret, hrun₁]
  show (release (.proc p) >>= _ : KernelM Label).run s₁ = _
  rw [hrun₂, getCore, Prog.run_read_bind, hc₂, if_pos hfirst, hrun₃, hrun₄, modCore,
    Prog.run_update_bind, getCore, Prog.run_read_bind, if_neg (Nat.not_lt_zero _)]
  exact hleave

/-- **The first process gets its image** if nothing interrupts and there is one to load. -/
theorem Reachable.run_forkret (hs : Reachable L image fails ⟨s, .ret .forkret, []⟩)
    (hp : s.core.cproc = some p) (hfirst : s.core.first = true)
    (hload : s.core.Loadable L (cstr "sh")) : ∃ t up size pt name v,
      (OsKernel.forkret L).run s = .ok (.userret (satpOf (t.core.procs p).pagetable), t) ∧
      s.core.findUprog L (cstr "sh") = .found up ∧
      size = execTotal (execSize (s.core.vm.mem.load64 up) (s.core.vm.mem.load64 (up + 8))) ∧
      t.core =
        ((s.core.started.emit (.execed p)).setProc p (Proc.withImage pt size name)).setVm v ∧
      0 < size ∧ Took L (3 + userPages (size / 4096)) s.core.vm v := by
  obtain ⟨kpt, q, h₀, b, hq, -, hμ, hg, -⟩ := hs.forkret
  obtain rfl : p = q := Option.some.inj (hp.symm.trans hq)
  obtain ⟨o, hsp⟩ := hg.spaces
  have hlive : (s.core.procs p).state ≠ .unused := by
    rw [hg.state_running hp]
    decide
  have hexec : Does L .solo h₀ (kexec L (cstr "sh")) (.unlocked b) s.core.started fun v μ c' =>
      μ = .unlocked b ∧ c'.cproc = some p ∧ ∃ pt up size name v',
        s.core.findUprog L (cstr "sh") = .found up ∧
        size = execTotal (execSize (s.core.vm.mem.load64 up) (s.core.vm.mem.load64 (up + 8))) ∧
        c' = ((s.core.started.emit (.execed p)).setProc p (Proc.withImage pt size name)).setVm v' ∧
        0 < size ∧ Took L (3 + userPages (size / 4096)) s.core.vm v' := by
    have hname : s.core.started.Loadable L
      ((cstr "sh").take (trimLen (cstr "sh") (cstr "sh").length)) := hload
    refine (Solo.kexec (c := s.core.started) hp hsp hlive (by decide) hname).mono ?_
    rintro _ _ _ ⟨rfl, rfl, pt, up, hup, v₁, v₂, o', rfl, -, -, hloaded, -, htook⟩
    have hpos : 0 < execTotal (execSize (s.core.vm.mem.load64 up)
        (s.core.vm.mem.load64 (up + 8))) := by
      have htotal := hloaded.total
      show 0 < execTotal (execSize (s.core.started.vm.mem.load64 up)
        (s.core.started.vm.mem.load64 (up + 8)))
      omega
    exact ⟨rfl, hp, pt, up, _, _, v₂, hup, rfl, execCommit_setVm .., hpos, htook⟩
  obtain ⟨v, _, t, hrun, ⟨pt, up, size, name, v', hup, hsize, rfl, hpos, htook⟩, satp, sp, trap,
    hartid, hcore⟩ := run_forkret_first hμ.solo hp hfirst hexec
  exact ⟨t, up, size, pt, name, t.core.vm, hrun, hup, hsize, by rw [hcore]; rfl, hpos,
    htook.congr (by rw [hcore]; rfl) (by rw [hcore]; rfl)⟩

/-! ### A machine with one program -/

/-- There are pages left for the first process. -/
theorem FirstRun.supply {n : ℕ} (h : FirstRun L s)
    (hs : Reachable L image (fun _ => false) ⟨s, .ret .forkret, []⟩)
    (hn : L.heap + (4 + kvmPages L + n) * 4096 ≤ L.phystop) : Supply L s.core.vm n := by
  obtain ⟨kpt, -, -, -, -, -, -, hg, -⟩ := hs.forkret
  have hroom := h.room
  exact ⟨fun k _ => hg.fails (fun _ => rfl) k, by omega⟩

/-- The first program of the table can be loaded if there are pages for it. -/
theorem Reachable.loadable {e : Entry} {es : List Entry}
    (hs : Reachable L (.ofTable L (e :: es)) fails ⟨s, .ret .forkret, []⟩)
    (hfits : L.uprogTable + ((e :: es).flatMap Entry.bytes).length + 16 ≤ L.heap)
    (hle : e.start ≤ e.stop) (hroom : ExecFits L s.core.vm (e.stop - e.start)) :
    s.core.Loadable L e.name := by
  obtain ⟨kpt, -, -, -, -, -, -, hg, -⟩ := hs.forkret
  obtain ⟨o, hsp⟩ := hg.spaces
  exact Core.loadable_ofTable hfits hsp.image hle hroom

/-- The image of a kernel with the program `sh`. -/
def shImage : Mem := .ofTable .virt [shEntry]

theorem tableOk_shImage : TableOk .virt shImage := by
  refine tableOk_ofTable (by decide) fun e he => ?_
  obtain rfl := List.mem_singleton.mp he
  exact ⟨by decide, by decide⟩

/-- On a machine with the program `sh` the first process finds it. -/
theorem exists_firstRun_sh : ∃ s : K,
    Reachable .virt shImage (fun _ => false) ⟨s, .ret .forkret, []⟩ ∧ FirstRun .virt s ∧
    s.core.Loadable .virt (cstr "sh") := by
  obtain ⟨_, hboot⟩ := exists_booted_virt shImage
  obtain ⟨s, hs, hfirst⟩ := hboot.firstRun
  exact ⟨s, hs, hfirst, hs.loadable (e := shEntry) (by decide) (by decide)
    ⟨by decide, hfirst.supply hs (by decide +kernel)⟩⟩

/-! ### With an image or without -/

/-- What holds at `userret` holds until it is run. -/
theorem ForkretEnds.interfere {S : Site} {a : Label} {u v : K} (h : ForkretEnds L S p s a u)
    (hi : (Env.interrupts.discipline L S).Interferes u v) : ForkretEnds L S p s a v := by
  rcases hi with rfl | ⟨hen, -⟩
  · exact h
  · exact absurd hen h.2.1.not_enabled

/-- A state in which a process goes to user mode is in order. -/
theorem Reachable.good_of_userret {satp : BitVec 64}
    (hs : Reachable L image fails ⟨s, .ret (.userret satp), []⟩) :
    ∃ kpt, Good L (bootSite image fails kpt) s.core := by
  obtain ⟨kpt, hI, ⟨_, _, -, -, hno⟩ | hok⟩ := hs.pre
  · exact absurd hno id
  · exact ⟨kpt, hI.2 hok.1.noff⟩

/-- The process has the image that a successful `kexec` leaves: `a0` holds 0, and address 0 is
mapped for user code to execute. -/
structure Core.HasImage (c : Core) (p : Slot) : Prop where
  result : c.tfLoad p Reg.a0.offset = 0
  size : 0 < (c.procs p).sz
  mapped : c.vm.mem.UserExecutable (c.procs p).pagetable 0

/-- The process has what it had, −1 in `a0` and no memory: nothing is mapped below the trapframe. -/
structure Core.HasNoImage (c : Core) (p : Slot) (pr : Proc) : Prop where
  result : c.tfLoad p Reg.a0.offset = (-1 : BitVec 32).signExtend 64
  same : c.procs p = pr
  size : (c.procs p).sz = 0
  unmapped : ∀ w, w < trapframeVpn → c.vm.mem.meaning (c.procs p).pagetable w = none

/-- **The first process has an image exactly if there is one to load and memory for it.** Whatever
the program table and whichever calls of `kalloc` fail, `forkret` of the first process does not
panic with `exec sh`, so it goes on to user mode. It has an image there if and only if the table had
a program `sh` before whose pages could all be allocated; if not, it enters user mode without any
memory. -/
theorem forkret_starts_first_process (hs : Reachable L image fails ⟨s, .ret .forkret, []⟩)
    (hfirst : s.core.first = true) : ∃ p, s.core.cproc = some p ∧
      (∀ d, Relation.ReflTransGen (kernel L).segment.Micro ⟨s, forkret L, []⟩ d →
        d.panicked ≠ some .execSh) ∧
      ∀ t a, Relation.ReflTransGen (kernel L).segment.Micro ⟨s, forkret L, []⟩ ⟨t, .ret a, []⟩ →
        a = .userret (satpOf (t.core.procs p).pagetable) ∧
        (t.core.HasImage p ↔ s.core.Loadable L (cstr "sh")) ∧
        (t.core.HasNoImage p (s.core.procs p) ↔ ¬s.core.Loadable L (cstr "sh")) := by
  obtain ⟨kpt, p, h₀, b, hp, hk, hμ, hg, hw, htrap⟩ := hs.forkret
  have hreach : ∀ {d}, Relation.ReflTransGen (kernel L).segment.Micro
      ⟨s, OsKernel.forkret L, []⟩ d →
      Reachable L image fails d := fun hd =>
    hs.step (.head (.jump rfl) (System.micro_of_segment hd))
  refine ⟨p, hp, fun d hd hpanic => ?_, fun t a ht => ?_⟩
  · -- `execSh` is none of the panics that a reachable configuration can have
    obtain ⟨_, hsafe⟩ := (hreach hd).safe
    rcases hsafe.panicked hpanic with h | ⟨-, h | h⟩ <;> cases h
  · obtain ⟨rfl, -, hcp, -, hsh⟩ :=
      segment_ends (forkret_wp hμ hk hg hw htrap) (fun _ _ _ h hi => h.interfere hi) ht
    obtain ⟨v, ha0, hres⟩ := hsh hfirst
    obtain ⟨_, hgood⟩ := (hreach ht).good_of_userret
    refine ⟨rfl, ?_⟩
    rcases hres with ⟨rfl, hsz, hload⟩ | ⟨rfl, hsame, hno⟩
    · have himage : t.core.HasImage p := ⟨ha0, hsz, hgood.userExecutable hcp hsz⟩
      refine ⟨iff_of_true himage hload, iff_of_false (fun hnone => ?_) (not_not.mpr hload)⟩
      exact hsz.ne' hnone.size
    · have hsz : (t.core.procs p).sz = 0 := by rw [hsame, hg.unloaded hfirst p]
      have hnone : t.core.HasNoImage p (s.core.procs p) :=
        ⟨ha0, hsame, hsz, fun _ => hgood.meaning_eq_none hcp hsz⟩
      refine ⟨iff_of_false (fun himage => ?_) hno, iff_of_true hnone hno⟩
      exact himage.size.ne' hsz

theorem forkret_starts_first_process_virt : ∃ s t : K,
    Reachable .virt shImage (fun _ => false) ⟨s, .ret .forkret, []⟩ ∧ s.core.first = true ∧
    s.core.Loadable .virt (cstr "sh") ∧
    Relation.ReflTransGen (kernel .virt).segment.Micro ⟨s, forkret .virt, []⟩
      ⟨t, .ret (.userret (satpOf (t.core.procs 0).pagetable)), []⟩ ∧
    t.core.HasImage 0 := by
  obtain ⟨s, hs, hfirst, hload⟩ := exists_firstRun_sh
  obtain ⟨t, -, -, -, -, -, hrun, -⟩ := hs.run_forkret hfirst.cproc hfirst.first hload
  have hsegment := System.micro_of_run (M := (kernel .virt).segment) hrun
  obtain ⟨p, hp, -, himage⟩ := forkret_starts_first_process hs hfirst.first
  obtain rfl : (0 : Slot) = p := Option.some.inj (hfirst.cproc.symm.trans hp)
  exact ⟨s, t, hs, hfirst.first, hload, hsegment, (himage t _ hsegment).2.1.mpr hload⟩

/-! ### A machine without programs -/

/-- On a machine without programs the first process comes to `userret`. -/
theorem exists_first_userret_virt : ∃ s t : K,
    Reachable .virt (fun _ => 0) (fun _ => false) ⟨s, .ret .forkret, []⟩ ∧ FirstRun .virt s ∧
    Relation.ReflTransGen (kernel .virt).segment.Micro ⟨s, forkret .virt, []⟩
      ⟨t, .ret (.userret (satpOf (t.core.procs 0).pagetable)), []⟩ ∧
    t.core.cproc = some 0 ∧ t.core.procs 0 = s.core.procs 0 ∧
    t.core.tfLoad 0 Reg.a0.offset = (-1 : BitVec 32).signExtend 64 := by
  obtain ⟨_, hboot⟩ := exists_booted_virt fun _ => 0
  obtain ⟨s, hs, hfirst⟩ := hboot.firstRun
  obtain ⟨kpt, p, h₀, b, hp, -, hμ, ⟨-, -, ⟨o, hsp⟩, -⟩, -⟩ := hs.forkret
  obtain rfl : (0 : Slot) = p := Option.some.inj (hfirst.cproc.symm.trans hp)
  have hexec : Does .virt .solo h₀ (kexec .virt (cstr "sh")) (.unlocked b) s.core.started
      fun v μ c' => μ = .unlocked b ∧ c'.cproc = some 0 ∧ v = -1 ∧ c' = s.core.started := by
    have himage : ∀ a, a < Layout.virt.heap → s.core.vm.mem a = Mem.ofTable .virt [] a := by
      intro a ha
      rw [Mem.ofTable, List.flatMap_nil, Mem.writeBytes_nil]
      exact hsp.image a ha
    refine (Solo.kexec_null (c := s.core.started)
      (Core.findUprog_ofTable_eq_null (by decide) himage (by decide) rfl)).mono ?_
    rintro _ _ _ ⟨rfl, rfl, rfl⟩
    exact ⟨rfl, hp, rfl, rfl⟩
  obtain ⟨_, _, t, hrun, ⟨rfl, rfl⟩, satp, sp, trap, hartid, hcore⟩ :=
    run_forkret_first hμ.solo hp hfirst.first hexec
  refine ⟨s, t, hs, hfirst, System.micro_of_run (M := (kernel .virt).segment) hrun, ?_, ?_, ?_⟩
  · rw [hcore]
    exact hp
  · rw [hcore]
    rfl
  · rw [hcore, Core.tfLoad_setHeader, Core.tfLoad_tfStore]

/-- **A failed `kexec` goes unnoticed.** On a machine without programs the first process enters user
mode with −1 in `a0`, without memory, and with nothing mapped at address 0. -/
theorem forkret_ignores_failed_kexec : ∃ (s t : K) (p : Slot),
    Reachable .virt (fun _ => 0) (fun _ => false) ⟨s, .ret .forkret, []⟩ ∧ s.core.first = true ∧
    s.core.cproc = some p ∧ Relation.ReflTransGen (kernel .virt).segment.Micro
      ⟨s, forkret .virt, []⟩
      ⟨t, .ret (.userret (satpOf (t.core.procs p).pagetable)), []⟩ ∧
    t.core.tfLoad p Reg.a0.offset = (-1 : BitVec 32).signExtend 64 ∧ (t.core.procs p).sz = 0 ∧
    t.core.vm.mem.meaning (t.core.procs p).pagetable 0 = none := by
  obtain ⟨s, t, hs, hfirst, hsegment, hcp, hproc, ha0⟩ := exists_first_userret_virt
  obtain ⟨_, hgood⟩ :=
    (hs.step (.head (.jump rfl) (System.micro_of_segment hsegment))).good_of_userret
  have hsz : (t.core.procs 0).sz = 0 := by rw [hproc, hfirst.sz]
  exact ⟨s, t, 0, hs, hfirst.first, hfirst.cproc, hsegment, ha0, hsz,
    hgood.meaning_eq_none hcp hsz (by decide)⟩

end OsKernel
