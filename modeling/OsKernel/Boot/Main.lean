import OsKernel.Boot.KernelMap
import OsKernel.Console.Write
import OsKernel.Kernel.Safety

/-!
# From reset to the scheduler

`main` of `main.c`, with `procinit` and `userinit` of `proc.c`. The hart enters it with interrupts
off, and they stay off until the scheduler runs, so `main` is run to its end with nothing in
between. What it leaves satisfies the invariant of the kernel; `Reachable` are the configurations
of the machine that runs from there, and all of them are safe.
-/

namespace OsKernel

/-! ### The code -/

/-- `COURSE_SID`. -/
def courseSid : ℕ := 2024302111127

/-- `banner_checksum`. -/
def bannerChecksum (body : List UInt8) : BitVec 32 :=
  body.foldl (fun sum c => sum + BitVec.ofNat 32 c.toNat) 0

/-- The text that `snprintf` leaves in the 64 bytes of `body`. -/
def bannerBody : List UInt8 :=
  (vprintfmt (cstr "OSLAB1 sid=%ld mod97=0x%x")
    [.word (BitVec.ofNat 64 courseSid), .word (BitVec.ofNat 64 (courseSid % 97))]).take 63

/-- The banners of `main`. -/
def banner : KernelM Unit := do
  printf "%s\n[chk=%d]" [.string bannerBody, .word ((bannerChecksum bannerBody).signExtend 64)]
  printf "\nOSLAB2: traps, syscalls, interrupt-driven console\n" []

/-- `kvminit` and `kvminithart`. -/
def kvminit (L : Layout) : KernelM Unit := do
  let kpgtbl ← coreAtomic (liftVm (Vm.kvmmake L))
  modCore fun c => { c with kernelPagetable := kpgtbl }
  modHart fun h => { h with satp := satpOf kpgtbl }

/-- `procinit`. -/
def procinit : KernelM Unit :=
  modCore fun c => { c with procs := fun i =>
    { c.procs i with state := .unused, kstack := kstackVa i } }

/-- `userinit`. -/
def userinit (L : Layout) : KernelM Unit := do
  let p ← allocproc L
  modCore fun c => { c with initproc := p }
  let p ← deref p
  modCore fun c => c.setProc p fun pr => { pr with state := .runnable }
  release (.proc p)

/-- `main`, up to the loop of `scheduler`. What it does to the UART and the PLIC leaves no trace in
the state. -/
def main (L : Layout) : KernelM Label := do
  let cpuid ← getHart fun h => h.regs .tp
  if cpuid ≠ 0 then
    kpanic .hang
  else
    banner
    coreAtomic (liftVm (Vm.kinit L))
    kvminit L
    procinit
    -- `trapinithart`
    modHart fun h => { h with stvec := BitVec.ofNat 64 L.kernelvec }
    userinit L
    -- `scheduler`
    modCore fun c => { c with cproc := none }
    return .scheduler

/-! ### The state at reset -/

/-- The data structures before `main`: the variables are zero, except for two that are
initialised. -/
def Core.reset (image : Mem) (fails : ℕ → Bool) : Core where
  vm := ⟨image, 0, fails, []⟩
  kernelPagetable := 0
  procs i := { Proc.zero i with kstack := 0 }
  initproc := none
  nextpid := 1
  first := true
  cons := ⟨fun _ => 0, 0, 0, 0⟩
  ticks := 0
  tx := []
  claim := 0
  rx := []
  input := []
  cproc := none
  ccontext := none
  log := []

/-- Hart 0 as `start` leaves it. -/
structure Hart.Reset (h : Hart) : Prop where
  sie : h.sie = false
  supervisor : h.supervisor = true
  tp : h.regs .tp = 0
  held : h.held = ∅
  noff : h.noff = 0
  opens : h.opens = 0

/-- `s` is what `main` leaves to the scheduler, with the memory `image` at reset and the calls of
`kalloc` that `fails` tells to fail. -/
def Booted (L : Layout) (image : Mem) (fails : ℕ → Bool) (s : K) : Prop :=
  ∃ h, Hart.Reset h ∧ (main L).run ⟨.reset image fails, h⟩ = .ok (.scheduler, s)

/-- **The configurations of the running kernel.** -/
def Reachable (L : Layout) (image : Mem) (fails : ℕ → Bool) (d : System.Config K Panic Label) :
    Prop :=
  ∃ s, Booted L image fails s ∧ Relation.ReflTransGen (kernel L).Micro ⟨s, .ret .scheduler, []⟩ d

variable {L : Layout} {image : Mem} {fails : ℕ → Bool} {kpt : ℕ} {v v' : Vm} {s : K} {h h₀ : Hart}
  {b : Bool} {tx : List UInt8}

/-- The data structures after `procinit`. -/
def Core.set (kpt : ℕ) (v : Vm) (tx : List UInt8) : Core :=
  { Core.reset v.mem v.fails with vm := v, kernelPagetable := kpt, procs := Proc.zero, tx := tx }

/-- The hart after `trapinithart`. -/
def Hart.set (L : Layout) (kpt : ℕ) (b : Bool) (h : Hart) : Hart :=
  { h with intena := b, satp := satpOf kpt, stvec := BitVec.ofNat 64 L.kernelvec }

theorem run_printf (fmt : String) (args : List Arg) (c : Core)
    (hoff : 0 < h.noff → h.sie = false) :
    ∃ tx b, (printf fmt args).run ⟨c, h⟩ = .ok ((), ⟨c.sent tx, { h with intena := b }⟩) := by
  obtain ⟨h', hrun, hsame⟩ := run_putBytes (vprintfmt (cstr fmt) args) ⟨c, h⟩
  obtain ⟨b, rfl⟩ := hsame hoff
  exact ⟨_, b, hrun⟩

theorem run_banner (c : Core) (hoff : 0 < h.noff → h.sie = false) :
    ∃ tx b, banner.run ⟨c, h⟩ = .ok ((), ⟨c.sent tx, { h with intena := b }⟩) := by
  obtain ⟨tx₁, b₁, hrun₁⟩ := run_printf "%s\n[chk=%d]"
    [.string bannerBody, .word ((bannerChecksum bannerBody).signExtend 64)] c hoff
  obtain ⟨tx₂, b₂, hrun₂⟩ := run_printf (h := { h with intena := b₁ })
    "\nOSLAB2: traps, syscalls, interrupt-driven console\n" [] (c.sent tx₁) hoff
  refine ⟨tx₁ ++ tx₂, b₂, ?_⟩
  rw [banner, Prog.run_bind_of_ok hrun₁, hrun₂, Core.sent_sent]

/-- The part of `main` that begins with `userinit`. -/
def mainTail (L : Layout) : KernelM Label := do
  userinit L
  modCore fun c => { c with cproc := none }
  return .scheduler

/-- `main` up to `userinit`. -/
theorem run_main (image : Mem) (fails : ℕ → Bool) (hr : h.Reset) : ∃ tx b,
    (∀ kpt v, Vm.kvmmake L ⟨image, L.heap, fails, []⟩ = .ok (kpt, v) →
      (main L).run ⟨.reset image fails, h⟩ = (mainTail L).run ⟨.set kpt v tx, h.set L kpt b⟩) ∧
    ∀ e, Vm.kvmmake L ⟨image, L.heap, fails, []⟩ = .error e →
      (main L).run ⟨.reset image fails, h⟩ = .error e := by
  obtain ⟨tx, b, hbanner⟩ := run_banner (h := h) (.reset image fails) fun hpos =>
    absurd hr.noff hpos.ne'
  have hkinit : (coreAtomic (liftVm (Vm.kinit L))).run
      ⟨(Core.reset image fails).sent tx, { h with intena := b }⟩ =
      .ok ((), ⟨((Core.reset image fails).sent tx).setVm ⟨image, L.heap, fails, []⟩,
        { h with intena := b }⟩) := run_vmAtomic rfl
  refine ⟨tx, b, fun kpt v hmake => ?_, fun e hmake => ?_⟩
  all_goals
    rw [main, getHart, Prog.run_read_bind, if_neg (not_not.mpr hr.tp), Prog.run_bind_of_ok hbanner,
      Prog.run_bind_of_ok hkinit, kvminit, Prog.bind_assoc]
  · rw [Prog.run_bind_of_ok (run_vmAtomic hmake)]
    rfl
  · rw [Prog.run_bind_of_error]
    rw [coreAtomic, Prog.run_atomic]
    exact PanicM.zoom_eq_error_iff.mpr (liftVm_of_error hmake)

/-! ### The first process -/

/-- The first process, with its trapframe and its page table. -/
def Proc.initial (tf pt : ℕ) : Proc := { (Proc.zero 0).fresh 1 tf pt with state := .runnable }

/-- The data structures after `userinit`. -/
def Core.launched (kpt : ℕ) (v : Vm) (tf pt : ℕ) (tx : List UInt8) : Core :=
  { Core.set kpt v tx with
    nextpid := 2
    initproc := some 0
    procs := Function.update Proc.zero 0 (.initial tf pt) }

/-- The discipline of `main`: nothing is shared yet, and the kernel stops for want of memory
only. -/
def bootDiscipline (L : Layout) (v : Vm) : Discipline where
  Good _ := True
  Drift := Eq
  Stops _ := ¬Supply L v 4
  Quiet := False
  refl _ := rfl
  trans := Eq.trans

theorem Proc.zero_blank (i : Slot) : (Proc.zero i).Blank :=
  ⟨rfl, rfl, rfl, rfl, rfl, rfl, rfl, rfl⟩

/-- **`userinit`** makes the first process in the first slot. -/
theorem userinit_does {o : Owners} (hsp : Spaces L image kpt v (fun _ => none) o noRole) :
    Does L (bootDiscipline L v) h₀ (userinit L) (.unlocked b) (.set kpt v tx) fun _ μ c' =>
      μ = .unlocked b ∧ ∃ v' tf pt, Made L image kpt (fun _ => none) 0 v v' tf pt ∧
        c' = .launched kpt v' tf pt tx := by
  obtain ⟨rest, hslots⟩ : ∃ rest, slots = (0 : Slot) :: rest := ⟨_, List.finRange_succ⟩
  rw [userinit, allocproc, hslots]
  refine .bind (.bind (Unlocked.acquire fun c hc _ => ?_))
  obtain rfl : Core.set kpt v tx = c := hc
  refine .bind (Locked.getCore (does_ite (fun _ => ?_) fun hne => absurd rfl hne))
  refine allocprocFound_does (Proc.zero_blank 0) hsp rfl (fun v' tf pt hm => ?_)
    fun v' pr _ _ _ _ hpoor => ?_
  · refine .bind (Locked.modCore (.bind (does_deref (.bind (Locked.modCore ?_)))))
    refine Locked.release_last trivial ⟨rfl, v', tf, pt, hm, ?_⟩
    simp [Core.making, Core.setProc, Core.launched, Core.set, Core.reset, Proc.fresh,
      Proc.initial]
  · refine .bind (Locked.release_last trivial (does_pure (.bind (Unlocked.modCore fun c _ _ =>
      ⟨trivial, .bind (does_kpanic hpoor)⟩))))

/-! ### The invariant at the start -/

/-- The memory `kvmmake` leaves, with no process yet. -/
theorem Building.spaces {stack : Slot → ℕ} {f : ℕ → ℕ} {o : Owners}
    (h : Building L kpt Set.univ stack f v v' o)
    (hstack : ∀ i, f (kstackVpn i) = pa2pte (stack i) ||| (pteR ||| pteW) ||| pteV)
    (hbase : ∀ w, (∀ i, w ≠ kstackVpn i) → f w = kvmBase L w) :
    Spaces L v.mem kpt v' (fun _ => none) o noRole where
  inv := h.inv
  kernel := h.root
  trampoline := by
    have hne : ∀ i, trampolineVpn ≠ kstackVpn i := fun i => by
      simp only [trampolineVpn, kstackVpn]
      omega
    rw [h.entry _ (by decide), hbase _ hne]
    rfl
  kstack i := ⟨stack i, (h.kstack i _).mpr ⟨trivial, rfl⟩⟩
  image := h.image
  owned := nofun
  exact q ρ hq := by
    refine .inr ?_
    rcases eq_of_mem_kvmRoles (h.roles q ρ hq) with ⟨l, idx, rfl⟩ | ⟨i, rfl⟩
    · exact .inl rfl
    · have hlt : kstackVpn i < 2 ^ 27 := by
        simp only [kstackVpn]
        omega
      rw [Accounted, h.entry _ hlt, hstack i, ((h.kstack i q).mp hq).2]

/-- What stays the same of a kernel that booted with this page table. -/
def bootSite (image : Mem) (fails : ℕ → Bool) (kpt : ℕ) : Site :=
  ⟨image, kpt, 0, ∀ n, fails n = false⟩

/-- What holds of the first process and of an unused slot holds of all slots. -/
theorem Core.forall_launched {tf pt : ℕ} {P : Slot → Proc → Prop} (hinit : P 0 (.initial tf pt))
    (hzero : ∀ i, i ≠ 0 → P i (.zero i)) (i : Slot) :
    P i ((Core.launched kpt v tf pt tx).procs i) := by
  show P i (Function.update Proc.zero 0 (.initial tf pt) i)
  by_cases hi : i = 0
  · rwa [hi, Function.update_self]
  · rw [Function.update_of_ne hi]
    exact hzero i hi

/-- The slot of the first process and those of no process. -/
theorem slotOk_launched (kpt : ℕ) (v : Vm) (tf pt : ℕ) (tx : List UInt8) (i : Slot) :
    let c := Core.launched kpt v tf pt tx
    SlotOk c.cproc c.vm.mem c.cons (c.hist i) i (c.procs i) := by
  intro c
  refine Core.forall_launched (P := fun i => SlotOk c.cproc c.vm.mem c.cons (c.hist i) i) ?_ ?_ i
  · constructor
    case saved => exact fun _ => .inl ⟨rfl, nofun, rfl⟩
    all_goals simp [Proc.initial, Proc.fresh, Proc.zero, IsName, c, Core.launched, Core.set,
      Core.reset, Core.hist, history]
  · intro i _
    constructor
    case blank => exact fun _ => Proc.zero_blank i
    case saved => rintro (h | h | h) <;> cases h
    all_goals simp [Proc.zero, IsName, c, Core.launched, Core.set, Core.reset, Core.hist, history]

theorem spaces_launched (kpt : ℕ) (v : Vm) (tf pt : ℕ) (tx : List UInt8) :
    (Core.launched kpt v tf pt tx).spaces = Function.update (fun _ => none) 0
      (some ⟨tf, pt, 0⟩) := by
  funext i
  refine Core.forall_launched (P := fun i pr => (if pr.state = .unused then none else
    some pr.space) = Function.update (fun _ => none) 0 (some ⟨tf, pt, 0⟩) i) ?_ (fun i hi => ?_) i
  · rw [Function.update_self]
    rfl
  · rw [Function.update_of_ne hi]
    rfl

/-- **The invariant holds when the scheduler begins.** -/
theorem good_launched {tf pt : ℕ} (hmade : Made L image kpt (fun _ => none) 0 v v' tf pt)
    (hheap : L.heap ≤ v.freemem) (hfails : ∀ n, v.fails n = true → ∃ k, fails k = true) :
    Good L (bootSite image fails kpt) (.launched kpt v' tf pt tx) := by
  have hparent : ∀ i, ((Core.launched kpt v' tf pt tx).procs i).parent = none :=
    Core.forall_launched (P := fun _ pr => pr.parent = none) rfl fun _ _ => rfl
  have hchan : ∀ i, ((Core.launched kpt v' tf pt tx).procs i).chan = none :=
    Core.forall_launched (P := fun _ pr => pr.chan = none) rfl fun _ _ => rfl
  have hlive : ∀ i, ((Core.launched kpt v' tf pt tx).procs i).state ≠ .unused →
      i = 0 ∧ ((Core.launched kpt v' tf pt tx).procs i).pid = 1 :=
    Core.forall_launched (P := fun i pr => pr.state ≠ .unused → i = 0 ∧ pr.pid = 1)
      (fun _ => ⟨rfl, rfl⟩) fun _ _ hi => absurd rfl hi
  constructor
  case kernel => rfl
  case initproc => rfl
  case spaces =>
    rw [spaces_launched]
    exact hmade.spaces
  case slot => exact slotOk_launched kpt v' tf pt tx
  case kin =>
    constructor
    case init_started => exact .inl rfl
    case init_parent => exact hparent 0
    case parent => exact fun i j h => absurd (hparent i ▸ h) nofun
    case orphan =>
      intro i _
      by_cases hi : ((Core.launched kpt v' tf pt tx).procs i).state = .unused
      · exact .inr (.inl hi)
      · exact .inl (hlive i hi).1
    case lineage => exact fun i j h => absurd (hparent i ▸ h) nofun
    case rank => exact ⟨fun _ => 0, rfl, fun i j h => absurd (hparent i ▸ h) nofun⟩
  case waiting => exact fun i j h => absurd (hchan i ▸ h) nofun
  case ring =>
    have hring : RingOk ⟨fun _ => 0, 0, 0, 0⟩ [] := ⟨by decide, by decide, by decide, rfl, rfl⟩
    exact hring
  case fails =>
    intro hbump n
    by_contra hn
    obtain ⟨k, hk⟩ := hmade.kept.fails n (Bool.eq_true_of_not_eq_false hn)
    obtain ⟨j, hj⟩ := hfails k hk
    rw [hbump j] at hj
    cases hj
  case pids =>
    intro _
    constructor
    case pos =>
      intro i hi
      rw [(hlive i hi).2]
      decide
    case inj => exact fun i j hi hj _ => (hlive i hi).1.trans (hlive j hj).1.symm
    case next =>
      -- one pid is out, and its process has taken four pages
      have := hmade.took.freemem
      have hnext : (Core.launched kpt v' tf pt tx).nextpid = 2 := rfl
      rw [hnext]
      refine .inr ⟨by decide, ?_, fun i hi => ?_⟩
      · show L.heap + 2 * 4096 ≤ v'.freemem + 4096
        omega
      · rw [(hlive i hi).2]
        decide
  case boot => exact fun _ i => ⟨rfl, rfl⟩
  case unloaded =>
    exact fun _ => Core.forall_launched (P := fun _ pr => pr.sz = 0) rfl fun _ _ => rfl
  case home => nofun
  case legal => trivial
  case exits =>
    intro _ i pid status hmem
    cases hmem

/-- The hart that `main` leaves. -/
theorem Hart.Reset.kern (hr : h.Reset) (L : Layout) (kpt : ℕ) (b : Bool) :
    Kern L (bootSite image fails kpt) (h.set L kpt b) := ⟨hr.supervisor, rfl, rfl, hr.tp⟩

theorem Hart.Reset.unlocked (hr : h.Reset) (D : Discipline) (hq : ¬D.Quiet) {c : Core}
    (hg : D.Good c) : Mode.IsUnlocked L D (h.set L kpt b) false ⟨c, h.set L kpt b⟩ where
  unlocked := {
    hart := ⟨by simp [Hart.set, hr.noff, hr.held, hr.opens], fun _ => hr.sie, fun _ => .inl rfl,
      fun h => absurd h hq⟩
    noff := hr.noff
    good := hg
    vector := rfl }
  frame := .refl _
  sie := hr.sie

/-- What `main` leaves to the scheduler. -/
structure Launched (L : Layout) (S : Site) (s : K) : Prop where
  good : Good L S s.core
  hart : ∃ h₀, Kern L S h₀ ∧ Mode.IsUnlocked L (Env.interrupts.discipline L S) h₀ false s
  idle : s.core.cproc = none
  complete : s.core.Complete
  core : ∃ kpt v tf pt tx, s.core = .launched kpt v tf pt tx
  room : s.core.vm.freemem ≤ L.heap + (4 + kvmPages L) * 4096

/-- `main` from `userinit` on, on the memory that `kvmmake` leaves. -/
theorem run_mainTail {stack : Slot → ℕ} {f : ℕ → ℕ} {o : Owners} (hr : h.Reset)
    (hbuilt : Building L kpt Set.univ stack f ⟨image, L.heap, fails, []⟩ v o)
    (hstack : ∀ i, f (kstackVpn i) = pa2pte (stack i) ||| (pteR ||| pteW) ||| pteV)
    (hbase : ∀ w, (∀ i, w ≠ kstackVpn i) → f w = kvmBase L w) :
    (∃ s, (mainTail L).run ⟨.set kpt v tx, h.set L kpt b⟩ = .ok (.scheduler, s) ∧
      Launched L (bootSite image fails kpt) s) ∨
    ∃ e, (mainTail L).run ⟨.set kpt v tx, h.set L kpt b⟩ = .error e ∧ ¬Supply L v 4 := by
  have hdoes : Does L (bootDiscipline L v) (h.set L kpt b) (mainTail L) (.unlocked false)
      (.set kpt v tx) fun a μ c' => a = .scheduler ∧ μ = .unlocked false ∧ ∃ v' tf pt,
        Made L image kpt (fun _ => none) 0 v v' tf pt ∧ c' = .launched kpt v' tf pt tx := by
    refine .bind ((userinit_does (hbuilt.spaces hstack hbase)).mono ?_)
    rintro _ _ _ ⟨rfl, v', tf, pt, hmade, rfl⟩
    refine .bind (Unlocked.modCore fun c hc _ => ⟨trivial, does_pure ⟨rfl, rfl, v', tf, pt, hmade,
      ?_⟩⟩)
    obtain rfl : Core.launched kpt v' tf pt tx = c := hc
    rfl
  have hwp := hdoes _ (hr.unlocked (bootDiscipline L v) id trivial) rfl
  rcases Prog.wp_run Discipline.interferes_refl hwp with
    ⟨a, s, hrun, -, μ, hμ, rfl, rfl, v', tf, pt, hmade, hcore⟩ | hpanic
  · refine .inl ⟨s, hrun, ?_⟩
    have hg : Good L (bootSite image fails kpt) s.core :=
      hcore ▸ good_launched hmade hbuilt.inv.heap_le hbuilt.fails
    refine ⟨hg, ⟨h.set L kpt b, hr.kern L kpt b, ⟨⟨hμ.unlocked.hart, hμ.unlocked.noff, hg,
      hμ.unlocked.vector⟩, hμ.frame, hμ.sie⟩⟩, hcore ▸ rfl, ?_, ⟨kpt, v', tf, pt, tx, hcore⟩, ?_⟩
    · rw [hcore]
      exact Core.forall_launched (P := fun _ pr => pr.state ≠ .used) nofun fun _ _ => nofun
    · rw [hcore]
      have hle : v.freemem ≤ L.heap + kvmPages L * 4096 := hbuilt.freemem_le
      have htook := hmade.took.freemem
      show v'.freemem ≤ _
      omega
  · exact .inr hpanic

/-- **`main`** leaves a kernel in order to the scheduler. -/
theorem Booted.launched (hs : Booted L image fails s) :
    ∃ kpt, Launched L (bootSite image fails kpt) s := by
  obtain ⟨h, hr, hrun⟩ := hs
  obtain ⟨tx, b, hmain, hfail⟩ := run_main (L := L) image fails hr
  have hends := kvmmake_ends (L := L) (s := ⟨image, L.heap, fails, []⟩) rfl rfl
  cases hmake : Vm.kvmmake L ⟨image, L.heap, fails, []⟩ with
  | error e =>
    rw [hfail e hmake] at hrun
    cases hrun
  | ok r =>
    obtain ⟨kpt, v⟩ := r
    obtain ⟨stack, f, o, hbuilt, hstack, hbase⟩ := (PanicM.ends_of_ok hmake).mp hends
    rw [hmain kpt v hmake] at hrun
    rcases run_mainTail hr hbuilt hstack hbase with ⟨t, htail, ht⟩ | ⟨e, htail, -⟩
    · rw [hrun] at htail
      cases htail
      exact ⟨kpt, ht⟩
    · rw [hrun] at htail
      cases htail

/-- With enough memory the kernel boots. -/
theorem exists_booted (image : Mem) (hr : h.Reset)
    (hroom : Roomy L ⟨image, L.heap, fails, []⟩ (4 + kvmPages L)) : ∃ s,
      Booted L image fails s := by
  obtain ⟨tx, b, hmain, -⟩ := run_main (L := L) image fails hr
  have hless : Roomy L ⟨image, L.heap, fails, []⟩ (kvmPages L) := ⟨hroom.1,
    (Nat.add_le_add_left (Nat.mul_le_mul_right 4096 (Nat.le_add_left _ _)) _).trans hroom.2⟩
  obtain ⟨kpt, v, hmake, stack, f, o, hbuilt, hstack, hbase⟩ :=
    (kvmmake_ends (L := L) (s := ⟨image, L.heap, fails, []⟩) rfl rfl).returns fun _ =>
      not_not.mpr hless
  have hleft : Roomy L v 4 := by
    have hle : v.freemem ≤ L.heap + kvmPages L * 4096 := hbuilt.freemem_le
    have hfit : L.heap + (4 + kvmPages L) * 4096 ≤ L.phystop := hroom.2
    refine ⟨fun n => ?_, by omega⟩
    by_contra hn
    obtain ⟨k, hk⟩ := hbuilt.fails n (Bool.eq_true_of_not_eq_false hn)
    exact absurd hk (by rw [hroom.1 k]; decide)
  rcases run_mainTail hr hbuilt hstack hbase with ⟨s, htail, -⟩ | ⟨e, -, hpoor⟩
  · exact ⟨s, h, hr, by rw [hmain kpt v hmake, htail]⟩
  · exact absurd hleft.supply hpoor

/-! ### The running kernel -/

theorem Reachable.step {c d : System.Config K Panic Label} (hc : Reachable L image fails c)
    (hcd : Relation.ReflTransGen (kernel L).Micro c d) : Reachable L image fails d := by
  obtain ⟨s, hs, hrun⟩ := hc
  exact ⟨s, hs, hrun.trans hcd⟩

/-- The program at a label, left alone. -/
theorem Reachable.run {a b : Label} {x : KernelM Label} {t : K}
    (hs : Reachable L image fails ⟨s, .ret a, []⟩)
    (hx : kernelCode L a = some x) (hrun : x.run s = .ok (b, t)) :
    Reachable L image fails ⟨t, .ret b, []⟩ := hs.step (.head (.jump hx) (System.micro_of_run hrun))

/-- **Every configuration of the running kernel is safe.** -/
theorem Reachable.safe {d : System.Config K Panic Label} (hd : Reachable L image fails d) :
    ∃ kpt, Safe L (bootSite image fails kpt) (kernel L) d := by
  obtain ⟨s, hs, hrun⟩ := hd
  obtain ⟨kpt, hl⟩ := hs.launched
  obtain ⟨h₀, hk, hu⟩ := hl.hart
  refine ⟨kpt, kernel_safe (.inl ⟨rfl, Prog.wp_pure hu.unlocked.inv (.inl ?_)⟩) hrun⟩
  exact ⟨h₀, .unlocked false, hk, hu, ⟨false, rfl⟩, hl.idle, hl.complete⟩

/-- What holds at the labels of the running kernel. -/
theorem Reachable.pre {a : Label} (hd : Reachable L image fails ⟨s, .ret a, []⟩) :
    ∃ kpt, (Env.interrupts.discipline L (bootSite image fails kpt)).Inv L s ∧
      Pre L (bootSite image fails kpt) (Env.interrupts.discipline L (bootSite image fails kpt)) a
        s := by
  obtain ⟨kpt, ⟨-, hwp⟩ | ⟨_, hone, -⟩⟩ := hd.safe
  · exact ⟨kpt, hwp⟩
  · cases hone

/-- On a machine with 128 MiB the kernel boots, whatever image it has. -/
theorem exists_booted_virt (image : Mem) : ∃ s, Booted .virt image (fun _ => false) s := by
  refine exists_booted (h := { Hart.plain .virt with sie := false }) image
    ⟨rfl, rfl, rfl, rfl, rfl, rfl⟩ ⟨fun _ => rfl, ?_⟩
  show Layout.virt.heap + (4 + kvmPages .virt) * 4096 ≤ Layout.virt.phystop
  decide +kernel

end OsKernel
