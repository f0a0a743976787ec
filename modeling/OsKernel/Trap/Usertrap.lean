import OsKernel.Console.Interrupt
import OsKernel.Trap.Syscall

/-!
# Between the trampoline and the kernel

`usertrap` is entered from the trampoline with interrupts off, saves the `pc` of the process and
deals with the trap; `usertrapret` prepares the trapframe and the hart for the way back. Here the
registers of the hart matter, so these proofs step below the modes of the hart; in between they use
what is known about the system calls and about `devintr`.
-/

namespace OsKernel

variable {L : Layout} {S : Site} {N : Env} {h₀ : Hart} {b : Bool} {c c₀ c' : Core} {p : Slot}
  {s : K}

/-! ### Arriving at a label -/

/-- A program that began on `s` has come to the label `a`: what holds there, and what it has left
to the other processes. -/
def Arrives (L : Layout) (S : Site) (D : Discipline) (s : K) (a : Label) (t : K) : Prop :=
  Pre L S D a t ∧ ∀ p, s.core.cproc = some p → Spares (Reaps p s.core t.core) s.core t.core

/-- The running process has left alone the others. -/
theorem Arrives.of_spares {D : Discipline} {a : Label} {t : K} (hpre : Pre L S D a t)
    (hp : s.core.cproc = some p) (hsp : Spares (· = p) s.core t.core) : Arrives L S D s a t := by
  refine ⟨hpre, fun q hq => hsp.mono fun i hi => .inl ?_⟩
  rw [hp, Option.some.injEq] at hq
  exact hi.trans hq

/-- From a specification in terms of modes. -/
theorem arrives_of_ends {x : KernelM Label} {μ : Mode} {t : K}
    (hx : Runs L S N h₀ x μ t.core (Ends L S (· = p) s.core)) (hk : Kern L S h₀)
    (hp : s.core.cproc = some p) (ht : μ.At L (N.discipline L S) h₀ t) :
    (N.discipline L S).wp L x (Arrives L S (N.discipline L S) s) t := by
  refine Discipline.wp_mono ?_ (hx t ht rfl)
  rintro a u - ⟨μ', hμ', hlabel, hsp⟩
  exact .of_spares (.inl ⟨h₀, μ', hk, hμ', hlabel⟩) hp hsp

/-! ### The way back -/

/-- The fields `usertrapret` writes to the trapframe. -/
def Core.setHeader (p : Slot) (satp sp trap hartid : BitVec 64) (c : Core) : Core :=
  (((c.tfStore p tfKernelSatp satp).tfStore p tfKernelSp sp).tfStore p tfKernelTrap trap).tfStore p
    tfKernelHartid hartid

theorem Header.setHeader (c : Core) (p : Slot) :
    Header L S (c.setHeader p (satpOf S.kpt) (BitVec.ofNat 64 (kstackVa p + pgsize))
      (BitVec.ofNat 64 L.usertrap) 0) p := by
  have hapart : ∀ {off off' : ℕ} {c : Core} {v : BitVec 64}, off + 8 ≤ off' ∨ off' + 8 ≤ off →
      (c.tfStore p off v).tfLoad p off' = c.tfLoad p off' := fun h =>
    Core.tfLoad_tfStore_of_apart _ _ _ h
  constructor
  · rw [Core.setHeader, hapart (by decide), hapart (by decide), hapart (by decide),
      Core.tfLoad_tfStore]
  · rw [Core.setHeader, hapart (by decide), hapart (by decide), Core.tfLoad_tfStore]
  · rw [Core.setHeader, hapart (by decide), Core.tfLoad_tfStore]
  · rw [Core.setHeader, Core.tfLoad_tfStore]

/-- The header lies apart from the registers. -/
theorem Core.tfLoad_setHeader (c : Core) (p : Slot) (satp sp trap hartid : BitVec 64) (r : Reg) :
    (c.setHeader p satp sp trap hartid).tfLoad p r.offset = c.tfLoad p r.offset := by
  have hapart : ∀ {off : ℕ} {c : Core} {v : BitVec 64}, off + 8 ≤ 40 →
      (c.tfStore p off v).tfLoad p r.offset = c.tfLoad p r.offset := fun h =>
    Core.tfLoad_tfStore_of_apart _ _ _ (.inl (h.trans r.offset_le.1))
  rw [Core.setHeader, hapart (by decide), hapart (by decide), hapart (by decide),
    hapart (by decide)]

/-- The process and its registers in the trapframe are as they were. -/
structure SameProcess (p : Slot) (c c' : Core) : Prop where
  cproc : c'.cproc = c.cproc
  proc : c'.procs p = c.procs p
  regs : ∀ r : Reg, c'.tfLoad p r.offset = c.tfLoad p r.offset

theorem SameProcess.trans {c'' : Core} (h : SameProcess p c c') (h' : SameProcess p c' c'') :
    SameProcess p c c'' :=
  ⟨h'.cproc.trans h.cproc, h'.proc.trans h.proc, fun r => (h'.regs r).trans (h.regs r)⟩

theorem Working.same (hw : Working p c) (hd : Drift c c') : SameProcess p c c' := by
  have hproc := hd.proc_eq hw.chan
  exact ⟨hd.cproc, hproc, fun r => by rw [Core.tfLoad, Core.tfLoad, hproc, hd.vm]⟩

/-- An assignment to the trapframe commutes with interrupts. -/
theorem Working.same_tfStore (hw : Working p c) (hd : Drift c c') (off : ℕ) (v : BitVec 64) :
    SameProcess p (c.tfStore p off v) (c'.tfStore p off v) := by
  have hproc := hd.proc_eq hw.chan
  exact ⟨hd.cproc, hproc, fun r => by
    simp only [Core.tfLoad, Core.tfStore, Core.setMem, Core.setVm, hproc, hd.vm]⟩

/-- What a process needs to return to user mode. -/
structure Leaving (p : Slot) (c : Core) : Prop where
  working : Working p c
  killed : (c.procs p).killed = false
  booted : c.first = false
  settled : (c.hist p).Settled

theorem Leaving.drift (h : Leaving p c) (hd : Drift c c') : Leaving p c' where
  working := h.working.drift hd
  killed := by rw [hd.proc_eq h.working.chan, h.killed]
  booted := hd.first.trans h.booted
  settled := by rw [hd.hist]; exact h.settled

/-- **`usertrapret`**: the trapframe leads back into the kernel, the hart into user mode. -/
theorem usertrapret_wp (hs : Mode.IsUnlocked L (N.discipline L S) h₀ b s) (hk : Kern L S h₀)
    (hl : Leaving p s.core) :
    (N.discipline L S).wp L (usertrapret L) (fun _ t => Discipline.Still (N.discipline L S) t ∧
      TrapOk L S (.userret (satpOf (t.core.procs p).pagetable)) t ∧
      Spares (· = p) s.core t.core ∧ SameProcess p s.core t.core) s := by
  refine Discipline.wp_bind (hs.unlocked.myproc fun t ht hu => ?_)
  have hd₁ := N.drift ht.drift
  rw [(hl.drift hd₁).working.cproc]
  refine Discipline.wp_bind (Discipline.wp_pure hu.inv (Discipline.wp_bind
    (Discipline.wp_modHart hu.inv fun u hint => ?_)))
  -- interrupts are off from here on
  have hu₂ := hint.unlocked hu
  have hd₂ := hd₁.trans (N.drift hint.after.drift)
  have hframe : h₀.Frame u.hart := (hs.frame.trans ht.1.frame).trans hint.after.1.frame
  have hstill : Discipline.Still (N.discipline L S) { u with hart := u.hart.intrOff } :=
    ⟨rfl, hu₂.noff, hu₂.held, hu₂.opens, hu₂.good⟩
  have hl₂ := hl.drift hd₂
  have hcp := hl₂.working.cproc
  have hg : Good L S u.core := hu₂.good
  have hsatp : u.hart.satp = satpOf S.kpt := hframe.satp.trans hk.satp
  have htp : u.hart.regs .tp = 0 := by rw [hframe.regs, hk.tp]
  have hstack : (u.core.procs p).kstack = kstackVa p := (hg.slot p).kstack
  obtain ⟨hg₁, hsp₁⟩ := hg.tfStore hcp (k := tfKernelSatp) (by decide) (satpOf S.kpt)
  obtain ⟨hg₂, hsp₂⟩ := hg₁.tfStore hcp (k := tfKernelSp) (by decide)
    (BitVec.ofNat 64 (kstackVa p + pgsize))
  obtain ⟨hg₃, hsp₃⟩ := hg₂.tfStore hcp (k := tfKernelTrap) (by decide) (BitVec.ofNat 64 L.usertrap)
  obtain ⟨hg₄, hsp₄⟩ := hg₃.tfStore hcp (k := tfKernelHartid) (by decide) 0
  refine ⟨hstill.inv, Discipline.wp_bind (hstill.modHart (hstill.hart rfl rfl rfl rfl) ?_)⟩
  replace hstill := hstill.hart (x := { u.hart.intrOff with stvec := uservecVa L }) rfl rfl rfl rfl
  refine Discipline.wp_bind (hstill.getHart ?_)
  show Discipline.wp L _ ((modCore (Core.tfStore p tfKernelSatp u.hart.satp)) >>= _) _ _
  rw [hsatp]
  refine Discipline.wp_bind
    (hstill.modCore hg₁ (Discipline.wp_bind ((hstill.core hg₁).modCore ?_ ?_)))
  all_goals
    rw [show ((u.core.tfStore p tfKernelSatp (satpOf S.kpt)).procs p).kstack =
      kstackVa p from hstack]
  · exact hg₂
  refine Discipline.wp_bind ((hstill.core hg₂).modCore hg₃ (Discipline.wp_bind
    ((hstill.core hg₃).getHart ?_)))
  show Discipline.wp L _ ((modCore (Core.tfStore p tfKernelHartid (u.hart.regs .tp))) >>= _) _ _
  rw [htp]
  refine Discipline.wp_bind ((hstill.core hg₃).modCore hg₄ (Discipline.wp_bind
    ((hstill.core hg₄).modHart ((hstill.core hg₄).hart rfl rfl rfl rfl) ?_)))
  replace hstill := (hstill.core hg₄).hart
    (x := { u.hart.intrOff with stvec := uservecVa L, spp := false, spie := true }) rfl rfl rfl rfl
  refine Discipline.wp_bind (hstill.getCore (hstill.modHart (hstill.hart rfl rfl rfl rfl) ?_))
  have hw := (((hl₂.working.tfStore (k := tfKernelSatp) (.inl (by decide))
    (satpOf S.kpt)).tfStore (k := tfKernelSp) (.inl (by decide))
    (BitVec.ofNat 64 (kstackVa p + pgsize))).tfStore (k := tfKernelTrap) (.inl (by decide))
    (BitVec.ofNat 64 L.usertrap)).tfStore (k := tfKernelHartid) (.inr (by decide)) 0
  refine ⟨hstill.hart rfl rfl rfl rfl, ?_, ?_, ?_⟩
  · refine ⟨⟨hu₂.noff, rfl⟩, hframe.supervisor.trans hk.supervisor, rfl, hsatp, rfl, p, ?_, hw,
      hl₂.settled, rfl, rfl⟩
    exact ⟨hcp, hw.chan, hw.complete, hl₂.killed, hl₂.booted, .setHeader u.core p⟩
  · exact hd₂.spares.trans (hsp₁.trans (hsp₂.trans (hsp₃.trans hsp₄)))
  · exact (hl.working.same hd₂).trans ⟨rfl, rfl, fun r => Core.tfLoad_setHeader (r := r) ..⟩

/-- The end of `usertrap` and of `forkret`. -/
theorem leave_wp (hs : Mode.IsUnlocked L (N.discipline L S) h₀ b s) (hk : Kern L S h₀)
    (hl : Leaving p s.core) (hsp : Spares (· = p) c₀ s.core) :
    (N.discipline L S).wp L (do
      usertrapret L
      let pt ← getCore fun c => (c.procs p).pagetable
      return .userret (satpOf pt)) (fun a t =>
        a = .userret (satpOf (t.core.procs p).pagetable) ∧ TrapOk L S a t ∧
        Spares (· = p) c₀ t.core ∧ SameProcess p s.core t.core) s := by
  refine Discipline.wp_bind (Discipline.wp_mono ?_ (usertrapret_wp hs hk hl))
  rintro _ t - ⟨hstill, hok, hsp', hsame⟩
  exact Discipline.wp_bind (hstill.getCore (Discipline.wp_pure hstill.inv
    ⟨rfl, hok, hsp.trans hsp', hsame⟩))

/-- A process that has not trapped, or that is in no call, has not been killed. -/
theorem Good.not_killed_of_trap (hg : Good L S c)
    (ht : ∀ t, (c.hist p).trap = some t → ¬t.Unhandled) : (c.procs p).killed = false := by
  by_contra hk
  obtain ⟨t, htrap, hu⟩ := (hg.slot p).killed (Bool.eq_true_of_not_eq_false hk)
  exact ht t htrap hu

/-- **`usertrap`, from the check for `killed` on.** -/
theorem usertrapTail_wp (hs : Mode.IsUnlocked L (N.discipline L S) h₀ b s) (hk : Kern L S h₀)
    (hw : Working p s.core) (htrap : ∃ t, (s.core.hist p).trap = some t)
    (hset : (s.core.hist p).Settled) :
    (N.discipline L S).wp L (usertrapTail L p) (Arrives L S (N.discipline L S) s) s := by
  have hkilled : Runs L S N h₀ (killed p) (.unlocked b) s.core fun k μ c' =>
      μ = .unlocked b ∧ k = (c'.procs p).killed ∧ Drift s.core c' ∧ Good L S c' :=
    Unlocked.killed fun c' hd hg => ⟨rfl, rfl, N.drift hd, hg⟩
  refine Discipline.wp_bind (Discipline.wp_mono ?_ (hkilled s hs rfl))
  rintro _ t - ⟨_, ht, rfl, rfl, hd, hg⟩
  have hw' := hw.drift hd
  rw [← hd.hist] at htrap hset
  by_cases hkill : (t.core.procs p).killed = true
  · rw [if_pos hkill]
    obtain ⟨t', ht', hunhandled⟩ := (hg.slot p).killed hkill
    exact arrives_of_ends (kexit_ends hw' ⟨t', ht', .inr ⟨hunhandled, rfl⟩⟩ hd.spares)
      hk hw.cproc ht
  · rw [if_neg hkill]
    have hl : Leaving p t.core :=
      ⟨hw', Bool.eq_false_of_not_eq_true hkill, hg.booted htrap, hset⟩
    refine Discipline.wp_mono (fun a u _ hu => ?_) (leave_wp ht hk hl hd.spares)
    exact .of_spares (.inr hu.2.1) hw.cproc hu.2.2.1

/-! ### The first time -/

/-- `first = 0`. -/
def Core.started (c : Core) : Core := { c with first := false }

theorem Good.start_user (hg : Good L S c) : Good L S c.started :=
  ⟨hg.kernel, hg.initproc, hg.spaces, hg.slot, hg.kin, hg.waiting, hg.ring, hg.fails, hg.pids,
    fun h => (by cases h), fun h => (by cases h), hg.home, hg.legal, hg.exits⟩

/-- A process that has never been in user mode, and of which the log does not know the registers. -/
structure Virgin (p : Slot) (c : Core) : Prop where
  working : Working p c
  trap : (c.hist p).trap = none
  ctx : (c.hist p).ctx = none

theorem Virgin.drift (h : Virgin p c) (hd : Drift c c') : Virgin p c' :=
  ⟨h.working.drift hd, by rw [hd.hist, h.trap], by rw [hd.hist, h.ctx]⟩

theorem Virgin.tfStore (h : Virgin p c) (off : ℕ) (v : BitVec 64) :
    Virgin p (c.tfStore p off v) := by
  refine ⟨⟨⟨h.working.cproc, fun x hx => ?_, h.working.complete⟩, h.working.chan⟩, h.trap, h.ctx⟩
  exact absurd (h.ctx.symm.trans hx) (by simp)

/-- What a process has that never was in user mode. -/
theorem Leaving.of_untrapped (hw : Working p c) (ht : (c.hist p).trap = none) (hg : Good L S c)
    (hf : c.first = false) : Leaving p c := by
  have hno : ∀ t, (c.hist p).trap ≠ some t := fun t h => by
    rw [ht] at h
    cases h
  exact ⟨hw, hg.not_killed_of_trap fun t h => absurd h (hno t), hf, fun t h => absurd h (hno t)⟩

/-- What comes of the `kexec("sh")` of `forkret`, whose result is in `a0`: an image, or nothing. -/
def ExecSh (L : Layout) (p : Slot) (c c' : Core) : Prop :=
  ∃ v : BitVec 32, c'.tfLoad p Reg.a0.offset = v.signExtend 64 ∧
    (v = 0 ∧ 0 < (c'.procs p).sz ∧ c.Loadable L (cstr "sh") ∨
      v = -1 ∧ c'.procs p = c.procs p ∧ ¬c.Loadable L (cstr "sh"))

theorem ExecSh.same {c'' : Core} (h : ExecSh L p c c') (hs : SameProcess p c' c'') :
    ExecSh L p c c'' := by
  obtain ⟨v, ha0, hres⟩ := h
  refine ⟨v, (hs.regs .a0).trans ha0, ?_⟩
  rwa [hs.proc]

theorem ExecSh.of_drift {c₁ : Core} (hw : Working p c) (hd : Drift c c₁) (h : ExecSh L p c₁ c') :
    ExecSh L p c c' := by
  obtain ⟨v, ha0, hres⟩ := h
  refine ⟨v, ha0, ?_⟩
  rwa [← hd.proc_eq hw.chan, ← Core.loadable_congr hd.vm]

/-- The result of `kexec` is stored in `a0`. -/
theorem ExecEnds.execSh {v : BitVec 32} (hw : Working p c)
    (h : ExecEnds L S N p (cstr "sh") c v c') :
    ExecSh L p c (c'.tfStore p Reg.a0.offset (v.signExtend 64)) := by
  refine ⟨v, Core.tfLoad_tfStore .., ?_⟩
  rcases h with ⟨rfl, ⟨c₁, hd, s', o', rfl, -⟩, hno⟩ |
    ⟨rfl, hload, c₁, up, pt, start, size, hd, -, -, -, s₁, s₂, o', rfl, -, -, hloaded, -⟩
  · exact .inr ⟨rfl, (N.drift hd).proc_eq hw.chan, hno (by decide)⟩
  · refine .inl ⟨rfl, ?_, hload⟩
    show 0 < ((((c₁.setVm s₁).execCommit p pt (execTotal size) _).setVm s₂).procs p).sz
    rw [execCommit_setVm]
    show 0 < (((c₁.emit (.execed p)).setProc p _).procs p).sz
    rw [Core.setProc_self]
    show 0 < execTotal size
    rw [hloaded.total]
    omega

/-- The part of `forkret` that is run once: init gets its image. -/
theorem forkretFirst_runs (hv : Virgin p c) (hsp : Spares (· = p) c₀ c) :
    Runs L S N h₀ (do
      modCore fun c => { c with first := false }
      let v ← kexec L (cstr "sh")
      modCore (Core.tfStore p Reg.a0.offset (v.signExtend 64))
      getCore fun c => c.tfLoad p Reg.a0.offset) (.unlocked b) c fun _ μ c' =>
        μ = .unlocked b ∧ Leaving p c' ∧ Spares (· = p) c₀ c' ∧ ExecSh L p c c' := by
  refine .bind (Unlocked.modCore fun c₁ hd₁ hg₁ => ⟨Good.start_user hg₁, ?_⟩)
  have hv₁ := hv.drift (N.drift hd₁)
  have hw₁ : Working p c₁.started := ⟨⟨hv₁.working.cproc, hv₁.working.frame, hv₁.working.complete⟩,
    hv₁.working.chan⟩
  have hsp₁ : Spares (· = p) c₁ c₁.started := .of_eq rfl rfl
  refine .bind ((kexec_runs (Good.start_user hg₁) hw₁ rfl (.inr hv₁.ctx) (by decide)).mono ?_)
  rintro v _ c₂ ⟨rfl, hk₂, hends⟩
  have hv₂ : Virgin p c₂ := by
    refine ⟨hk₂.working, hk₂.trap.trans hv₁.trap, ?_⟩
    rcases hk₂.ctx with h | h
    · exact h.trans hv₁.ctx
    · exact h
  refine .bind (Unlocked.modCore fun c₃ hd₃ hg₃ => ?_)
  have hv₃ := hv₂.drift (N.drift hd₃)
  obtain ⟨hg₄, hsp₄⟩ := Good.tfStore hg₃ hv₃.working.cproc (k := Reg.a0.offset) (by decide)
    (v.signExtend 64)
  have hv₄ := hv₃.tfStore Reg.a0.offset (v.signExtend 64)
  refine ⟨hg₄, Unlocked.getCore fun c₅ hd₅ hg₅ => ⟨rfl, ?_, ?_, ?_⟩⟩
  · exact (Leaving.of_untrapped hv₄.working hv₄.trap hg₄
      ((N.drift hd₃).first.trans hk₂.first)).drift (N.drift hd₅)
  · exact hsp.trans ((N.drift hd₁).spares.trans (hsp₁.trans (hk₂.spares.trans
      ((N.drift hd₃).spares.trans (hsp₄.trans (N.drift hd₅).spares)))))
  · have hstored := (hends.execSh hw₁).same (hv₂.working.same_tfStore (N.drift hd₃) _ _)
    exact .of_drift hv.working (N.drift hd₁) (hstored.same (hv₄.working.same (N.drift hd₅)))

/-- What `forkret` of the process `p` leaves at the label `a`. -/
def ForkretEnds (L : Layout) (S : Site) (p : Slot) (s : K) (a : Label) (t : K) : Prop :=
  a = .userret (satpOf (t.core.procs p).pagetable) ∧ TrapOk L S a t ∧ t.core.cproc = some p ∧
    Spares (· = p) s.core t.core ∧ (s.core.first = true → ExecSh L p s.core t.core)

/-- **`forkret`**: a new process goes to user mode, the first one with the image of `sh`. -/
theorem forkret_wp (hs : Mode.IsLocked L (N.discipline L S) h₀ {.proc p} b s) (hk : Kern L S h₀)
    (hg : Good L S s.core) (hw : Working p s.core) (htrap : (s.core.hist p).trap = none) :
    (N.discipline L S).wp L (forkret L) (ForkretEnds L S p s) s := by
  refine Discipline.wp_bind (hs.masked.myproc ?_)
  rw [hw.cproc]
  have hrelease : Runs L S N h₀ (release (.proc p)) (.locked {.proc p} b) s.core fun _ μ c' =>
    μ = .unlocked b ∧ c' = s.core := Locked.release_last hg ⟨rfl, rfl⟩
  refine Discipline.wp_bind (Discipline.wp_pure hs.masked.inv (Discipline.wp_bind
    (Discipline.wp_mono ?_ (hrelease s hs rfl))))
  rintro _ t - ⟨_, ht, rfl, hcore⟩
  refine Discipline.wp_bind (ht.unlocked.getCore fun u hu hunl => ?_)
  have hd : Drift s.core u.core := by
    rw [← hcore]
    exact N.drift hu.drift
  have hw' := hw.drift hd
  have htrap' : (u.core.hist p).trap = none := by rw [hd.hist, htrap]
  have hu' := ht.after hu hunl
  by_cases hfirst : u.core.first = true
  · rw [if_pos hfirst]
    have hv : Virgin p u.core := ⟨hw', htrap', (hunl.good.boot hfirst p).1⟩
    have hx : Runs L S N h₀ _ (.unlocked b) u.core _ := forkretFirst_runs hv hd.spares
    rw [← Prog.bind_assoc, ← Prog.bind_assoc] at hx
    rw [← Prog.bind_assoc, ← Prog.bind_assoc, ← Prog.bind_assoc]
    refine Discipline.wp_bind (Discipline.wp_mono ?_ (hx u hu' rfl))
    rintro a0 v - ⟨_, hv', rfl, hl, hsp, hsh⟩
    -- no unsigned word is below 0
    rw [if_neg (Nat.not_lt_zero _)]
    refine Discipline.wp_mono (fun a w _ hend => ?_) (leave_wp hv' hk hl hsp)
    obtain ⟨hlabel, hok, hspared, hsame⟩ := hend
    exact ⟨hlabel, hok, hsame.cproc.trans hl.working.cproc, hspared, fun _ =>
      .of_drift hw hd (hsh.same hsame)⟩
  · rw [if_neg hfirst]
    have hl := Leaving.of_untrapped hw' htrap' hunl.good (Bool.eq_false_of_not_eq_true hfirst)
    refine Discipline.wp_mono (fun a v _ hend => ?_) (leave_wp hu' hk hl hd.spares)
    obtain ⟨hlabel, hok, hspared, hsame⟩ := hend
    exact ⟨hlabel, hok, hsame.cproc.trans hl.working.cproc, hspared, fun h =>
      absurd (hd.first.trans h) hfirst⟩

/-! ### The way in -/

/-- A trap that is not handled leads to the end of the process. -/
theorem Good.kill (hg : Good L S c) (hw : Working p c) {t : Trap} (ht : (c.hist p).trap = some t)
    (hu : t.Unhandled) : Good L S (c.kill p) ∧ Working p (c.kill p) ∧ (c.kill p).spaces =
      c.spaces := by
  have hrun := hg.state_running hw.cproc
  have hself := c.setProc_self p fun pr => { pr with killed := true }
  refine ⟨?_, ⟨⟨hw.cproc, fun x hx => ?_, ?_⟩, ?_⟩, Core.spaces_setProc Iff.rfl rfl⟩
  · refine hg.setProc (f := fun pr => { pr with killed := true }) ?_ (fun i _ => Iff.rfl) ?_ hg.home
    · exact .of_started (.inr (.inr hrun)) (.inr (.inr hrun)) rfl rfl rfl fun j => id
    · exact { hg.slot p with
        blank := fun hun => absurd (hrun.symm.trans hun) (by decide)
        killed := fun _ => ⟨t, ht, hu⟩
        saved := fun hpark => absurd hrun hpark.not_running
        frame := fun hpark => absurd hrun hpark.not_running }
  · show Framed c.vm.mem ((c.setProc p _).procs p).trapframe x
    rw [hself]
    exact hw.frame x hx
  · exact Core.forall_setProc (P := fun _ pr => pr.state ≠ .used) (hw.complete p)
      fun i _ => hw.complete i
  · show ((c.setProc p _).procs p).chan = none
    rw [hself]
    exact hw.chan

/-- The trapframe once `usertrap` has saved the `pc`. -/
theorem framed_epc {x : Ctx} (hregs : ∀ r : Reg, c.tfLoad p r.offset = x.regs r) :
    Framed (c.tfStore p tfEpc x.pc).vm.mem (c.procs p).trapframe x := by
  refine framed_iff (c := c.tfStore p tfEpc x.pc).mpr ⟨fun r => ?_, Core.tfLoad_tfStore ..⟩
  have := r.offset_le.1
  rw [Core.tfLoad_tfStore_of_apart _ _ _ (.inl (by simp only [tfEpc]; omega)), hregs]

/-- A trap that is no system call, once the registers are saved. -/
theorem usertrapOther_wp {t : Trap} (hs : Mode.IsUnlocked L (N.discipline L S) h₀ false s)
    (hk : Kern L S h₀) (hw : Working p s.core) (htrap : (s.core.hist p).trap = some t)
    (hcause : s.hart.scause = t.scause) (hno : ¬t.IsCall) {s₀ : K} (hp : s₀.core.cproc = some p)
    (hsp : Spares (· = p) s₀.core s.core) :
    (N.discipline L S).wp L (usertrapOther L p) (Arrives L S (N.discipline L S) s₀) s := by
  have hsettled : ∀ {c' : Core}, (c'.hist p).trap = some t → (c'.hist p).Settled := by
    intro c' ht t' ht' hcall
    rw [ht, Option.some.injEq] at ht'
    exact absurd (ht' ▸ hcall) hno
  refine Discipline.wp_bind (Discipline.wp_mono ?_ (devintr_wp hs))
  rintro dev u - ⟨hu, hd, hdev⟩
  have hw' := hw.drift hd
  rw [← hd.hist] at htrap
  have hsp' := hsp.trans (Drift.spares (X := (· = p)) hd)
  by_cases hdev0 : dev ≠ 0
  · rw [if_pos hdev0]
    exact Discipline.wp_pure hu.unlocked.inv
      (.of_spares (.inl ⟨h₀, .unlocked false, hk, hu, ⟨false, rfl⟩, hw',
      ⟨t, htrap⟩, hsettled htrap⟩) hp hsp')
  · rw [if_neg hdev0]
    -- neither a call nor a device: the process is going to be killed
    have hunhandled : t.Unhandled := by
      have hnot : ¬IsDevice t.scause := by rwa [← hcause, ← hdev]
      rw [IsDevice, not_or] at hnot
      exact ⟨hno, hnot.1, hnot.2⟩
    refine arrives_of_ends (μ := .unlocked false) ?_ hk hp hu
    refine .bind (Unlocked.getHart fun c₁ h₁ hd₁ hg₁ _ => .bind (Unlocked.getCore
      fun c₂ hd₂ hg₂ => .bind ?_))
    refine printf_runs hg₂ _ _ ?_
    intro c₃ hd₃ hg₃
    refine .bind ?_
    refine printf_runs hg₃ _ _ ?_
    intro c₄ hd₄ hg₄
    refine .bind (Unlocked.setkilled fun c₅ hd₅ hg₅ => ?_)
    have hd' := (N.drift hd₁).trans ((N.drift hd₂).trans (hd₃.trans (hd₄.trans (N.drift hd₅))))
    have htrap₅ : (c₅.hist p).trap = some t := by rw [hd'.hist, htrap]
    obtain ⟨hg₆, hw₆, hspaces⟩ := Good.kill hg₅ (hw'.drift hd') htrap₅ hunhandled
    exact ⟨hg₆, does_pure ⟨⟨⟨false, rfl⟩, hw₆, ⟨t, htrap₅⟩, hsettled htrap₅⟩,
      hsp'.trans (hd'.spares.trans (.of_eq rfl hspaces))⟩⟩

/-- The hart once it runs the kernel. -/
def Hart.toKernel (L : Layout) (h : Hart) : Hart :=
  { h with stvec := BitVec.ofNat 64 L.kernelvec, intena := false }

/-- The data structures when `syscall` is called: the process is to go on behind its `ecall`. -/
def Core.called (c : Core) (p : Slot) (pc : BitVec 64) : Core :=
  (c.tfStore p tfEpc pc).tfStore p tfEpc (pc + 4)

theorem Good.called (hg : Good L S c) (hp : c.cproc = some p) (pc : BitVec 64) :
    Good L S (c.called p pc) ∧ Spares (· = p) c (c.called p pc) := by
  obtain ⟨hg₁, hsp₁⟩ := hg.tfStore hp (k := tfEpc) (by decide) pc
  obtain ⟨hg₂, hsp₂⟩ := hg₁.tfStore hp (k := tfEpc) (by decide) (pc + 4)
  exact ⟨hg₂, hsp₁.trans hsp₂⟩

/-- By itself `usertrap` saves the `pc` and looks at the cause. -/
theorem run_usertrap (hp : s.core.cproc = some p) (hspp : s.hart.spp = false)
    (hsie : s.hart.sie = false) (hnoff : s.hart.noff = 0) : (usertrap L).run s =
      (if s.hart.scause = 8 then do
        modCore fun c => c.tfStore p tfEpc (c.tfLoad p tfEpc + 4)
        modHart Hart.intrOn
        syscall L
      else usertrapOther L p : KernelM Label).run
        ⟨s.core.tfStore p tfEpc s.hart.sepc, s.hart.toKernel L⟩ := by
  obtain ⟨core, hart⟩ := s
  obtain ⟨h₁, hh₁⟩ : ∃ h : Hart, h = { hart with stvec := BitVec.ofNat 64 L.kernelvec } := ⟨_, rfl⟩
  have hvisited : h₁.visited = hart.toKernel L := by
    replace hsie : hart.sie = false := hsie
    rw [Hart.visited_of_unlocked (by rw [hh₁]; exact hnoff), hh₁, Hart.toKernel]
    simp only [hsie]
  rw [usertrap, getHart, Prog.run_read_bind, if_neg (Bool.eq_false_iff.mp hspp), modHart,
    Prog.run_update_bind, ← hh₁]
  refine (run_myproc_bind (s := ⟨core, h₁⟩) hp _).trans ?_
  rw [hvisited]
  rfl

/-- A system call by itself. -/
theorem run_usertrap_call (hp : s.core.cproc = some p) (hspp : s.hart.spp = false)
    (hsie : s.hart.sie = false) (hnoff : s.hart.noff = 0) (hcause : s.hart.scause = 8) :
    (usertrap L).run s =
      (syscall L).run ⟨s.core.called p s.hart.sepc, (s.hart.toKernel L).intrOn⟩ := by
  rw [run_usertrap hp hspp hsie hnoff, if_pos hcause, modCore, Prog.run_update_bind, modHart,
    Prog.run_update_bind, Core.called]
  show (syscall L).run ⟨(s.core.tfStore p tfEpc s.hart.sepc).tfStore p tfEpc
    ((s.core.tfStore p tfEpc s.hart.sepc).tfLoad p tfEpc + 4), _⟩ = _
  rw [Core.tfLoad_tfStore]

/-- Another trap by itself. -/
theorem run_usertrap_other (hp : s.core.cproc = some p) (hspp : s.hart.spp = false)
    (hsie : s.hart.sie = false) (hnoff : s.hart.noff = 0) (hcause : s.hart.scause ≠ 8) :
    (usertrap L).run s =
      (usertrapOther L p).run ⟨s.core.tfStore p tfEpc s.hart.sepc, s.hart.toKernel L⟩ := by
  rw [run_usertrap hp hspp hsie hnoff, if_neg hcause]

/-- What `syscall` finds when it is called. -/
theorem TrapOk.calling (h : TrapOk L S .usertrap s) (hg : Good L S s.core)
    (hcause : s.hart.scause = 8) : ∃ p t, s.core.cproc = some p ∧
      (∀ r : Reg, s.core.tfLoad p r.offset = t.regs r) ∧
      Calling L S p t (s.core.called p s.hart.sepc) := by
  obtain ⟨-, p, t, hready, htrapped, -, -, hregs, htrap, hctx⟩ := h
  have hicall : t.IsCall := htrapped.scause.symm.trans hcause
  have hpc : t.resume.pc = s.hart.sepc + 4 := by rw [Trap.resume, if_pos hicall, htrapped.sepc]
  have hframe : Framed (s.core.called p s.hart.sepc).vm.mem (s.core.procs p).trapframe
      t.resume := by
    rw [Core.called, ← hpc]
    refine framed_epc (c := s.core.tfStore p tfEpc s.hart.sepc) fun r => ?_
    have := r.offset_le.1
    rw [Core.tfLoad_tfStore_of_apart _ _ _ (.inl (by simp only [tfEpc]; omega)), hregs]
    rfl
  refine ⟨p, t, hready.cproc, hregs, (hg.called hready.cproc s.hart.sepc).1,
    ⟨⟨hready.cproc, fun x hx => ?_, hready.complete⟩, hready.chan⟩, htrap, hicall, hctx⟩
  obtain rfl : t.resume = x := Option.some.inj (hctx.symm.trans hx)
  exact hframe

/-- `usertrap`, where the system call is left open. -/
theorem usertrap_wp_of {Q : Label → K → Prop} (hquiet : s.hart.scause = 8 → ¬N.Quiet)
    (hI : (N.discipline L S).Inv L s) (h : TrapOk L S .usertrap s)
    (hcall : s.hart.scause = 8 → ∀ p t c, s.core.cproc = some p →
      (∀ r : Reg, s.core.tfLoad p r.offset = t.regs r) → N.Rel (s.core.called p s.hart.sepc) c →
      Calling L S p t c → Kern L S (s.hart.toKernel L) →
      Runs L S N (s.hart.toKernel L) (syscall L) (.unlocked true) c fun a μ c' => ∀ u : K,
        μ.At L (N.discipline L S) (s.hart.toKernel L) u → u.core = c' → Q a u)
    (hother : s.hart.scause ≠ 8 → ∀ a u, Arrives L S (N.discipline L S) s a u → Q a u) :
    (N.discipline L S).wp L (usertrap L) Q s := by
  have hcalling := h.calling (hI.2 h.1.noff)
  obtain ⟨hborder, p, t, hready, htrapped, hsatp, htp, hregs, htrap, hctx⟩ := h
  have hcp := hready.cproc
  have hstill := Discipline.Still.of_inv hI htrapped.sie hborder.noff
  refine Discipline.wp_bind (hstill.getHart ?_)
  rw [if_neg (by rw [htrapped.spp]; decide)]
  refine Discipline.wp_bind (hstill.modHart (hstill.hart rfl rfl rfl rfl) ?_)
  replace hstill := hstill.hart (x := { s.hart with stvec := BitVec.ofNat 64 L.kernelvec }) rfl rfl
    rfl rfl
  refine Discipline.wp_bind (hstill.myproc rfl ?_)
  rw [hcp]
  replace hstill := hstill.hart (x := s.hart.toKernel L) rfl rfl rfl rfl
  refine Discipline.wp_bind (Discipline.wp_pure hstill.inv (Discipline.wp_bind (hstill.getHart ?_)))
  -- `p->trapframe->epc = r_sepc()`
  have hg : Good L S s.core := hstill.good
  obtain ⟨hg₁, hsp₁⟩ := hg.tfStore hcp (k := tfEpc) (by decide) s.hart.sepc
  refine Discipline.wp_bind (hstill.modCore hg₁ (Discipline.wp_bind ((hstill.core hg₁).getHart ?_)))
  show Discipline.wp L _ (if s.hart.scause = 8 then _ else _) _ _
  have hkern : Kern L S (s.hart.toKernel L) := ⟨htrapped.supervisor, rfl, hsatp, htp⟩
  by_cases hcause : s.hart.scause = 8
  · rw [if_pos hcause]
    obtain ⟨q, t', hq, hregs', hcalling⟩ := hcalling hcause
    obtain rfl : p = q := Option.some.inj (hcp.symm.trans hq)
    have hg₂ := hcalling.good
    have hload : (s.core.tfStore p tfEpc s.hart.sepc).tfLoad p tfEpc = s.hart.sepc :=
      Core.tfLoad_tfStore ..
    refine Discipline.wp_bind ((hstill.core hg₁).modCore (by rw [hload]; exact hg₂) ?_)
    show Discipline.wp L _ _ _ ⟨(s.core.tfStore p tfEpc s.hart.sepc).tfStore p tfEpc
      ((s.core.tfStore p tfEpc s.hart.sepc).tfLoad p tfEpc + 4), s.hart.toKernel L⟩
    rw [hload]
    have hruns : Runs L S N (s.hart.toKernel L) (modHart Hart.intrOn >>= fun _ => syscall L)
        (.unlocked false) (s.core.called p s.hart.sepc) _ := .bind (Unlocked.intrOn (hquiet hcause)
      fun c' hd' hg' => hcall hcause p t' c' hcp hregs' hd' (hcalling.drift (N.drift hd') hg')
        hkern)
    refine Discipline.wp_mono ?_ (hruns _ ⟨(hstill.core hg₂).unlocked rfl, .refl _, hstill.sie⟩ rfl)
    rintro a u - ⟨μ, hμ, hu⟩
    exact hu u hμ rfl
  · rw [if_neg hcause]
    have hicall : ¬t.IsCall := fun h => hcause (htrapped.scause.trans h)
    have hpc : s.hart.sepc = t.resume.pc := by rw [Trap.resume, if_neg hicall, htrapped.sepc]
    refine Discipline.wp_mono (fun a u _ => hother hcause a u) (usertrapOther_wp (t := t)
      ⟨(hstill.core hg₁).unlocked rfl, .refl _, hstill.sie⟩ hkern ⟨⟨hcp, fun x hx => ?_,
        hready.complete⟩, hready.chan⟩ htrap htrapped.scause hicall hcp hsp₁)
    obtain rfl : t.resume = x := Option.some.inj (hctx.symm.trans hx)
    show Framed (s.core.tfStore p tfEpc s.hart.sepc).vm.mem _ _
    rw [hpc]
    exact framed_epc hregs

/-- **`usertrap`**: from the trampoline to the end of the system call, or to the check for
`killed`. -/
theorem usertrap_wp (hq : ¬N.Quiet) (hI : (N.discipline L S).Inv L s)
    (h : TrapOk L S .usertrap s) :
    (N.discipline L S).wp L (usertrap L) (Arrives L S (N.discipline L S) s) s := by
  have hg : Good L S s.core := hI.2 h.1.noff
  refine usertrap_wp_of (fun _ => hq) hI h (fun _ p t c hcp _ hd hcalling hkern => ?_)
    fun _ _ _ => id
  have hsp : Spares (· = p) s.core c :=
    (hg.called hcp s.hart.sepc).2.trans (N.drift hd).spares
  refine (syscall_ends hcalling hsp).mono fun a μ c' hend u hμ hu => ?_
  subst hu
  exact .of_spares (.inl ⟨_, μ, hkern, hμ, hend.1⟩) hcp hend.2

end OsKernel
