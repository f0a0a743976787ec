import OsKernel.Kernel.Record
import OsKernel.Run.Processes

/-!
# What processes are promised

`wait` returns each child once, with its status, and to its parent; and whatever a process is
interrupted by and whatever it calls, it goes on with the registers it left and in its own address
space. Both are properties of the record of a run, which the invariant of the kernel says is legal.
-/

namespace OsKernel

variable {L : Layout} {image : Mem} {fails : ℕ → Bool} {d : System.Config K Panic Label}

/-- **The record of a run is legal**, and with the allocator of the kernel the pids in it are
positive. -/
theorem Reachable.legal (hd : Reachable L image fails d) (hb : d.BetweenSections) :
    d.state.core.initproc = some 0 ∧ Legal 0 d.state.core.log ∧
      ((∀ n, fails n = false) → PositiveExits d.state.core.log) := by
  obtain ⟨kpt, cp, hg, -⟩ := hd.between hb
  exact ⟨hg.initproc, hg.legal, hg.exits⟩

/-! ### Exit and wait -/

/-- The trapframe of the process in slot `p` leads into the kernel, on the kernel stack of the
process. -/
structure Core.FrameEnters (L : Layout) (c : Core) (p : Slot) : Prop where
  satp : c.tfLoad p tfKernelSatp = satpOf c.kernelPagetable
  sp : c.tfLoad p tfKernelSp = BitVec.ofNat 64 (kstackVa p + pgsize)
  trap : c.tfLoad p tfKernelTrap = BitVec.ofNat 64 L.usertrap
  hartid : c.tfLoad p tfKernelHartid = 0

theorem Header.enters {S : Site} {c : Core} {p : Slot} (h : Header L S c p)
    (hk : c.kernelPagetable = S.kpt) : c.FrameEnters L p :=
  ⟨by rw [hk]; exact h.satp, h.sp, h.trap, h.hartid⟩

/-- **Trap transparency.** A process resumes with the registers of its trap, after a system call
with the return value; a new process with those of its parent. `userret` is entered with `SPP` clear
and with the page table of the process that is to run, and in user mode this page table is
active; the trapframe of the process leads back into the kernel. -/
theorem trap_transparency (hd : Reachable L image fails d) :
    (d.BetweenSections → TrapProtocol d.state.core.log) ∧
    (∀ s satp, d = ⟨s, .ret (.userret satp), []⟩ → s.hart.spp = false ∧ ∃ p,
      s.core.cproc = some p ∧ satp = satpOf (s.core.procs p).pagetable ∧
        s.core.FrameEnters L p) ∧
    (∀ s, d = ⟨s, .ret .user, []⟩ → s.hart.supervisor = false ∧ ∃ p,
      s.core.cproc = some p ∧ s.hart.satp = satpOf (s.core.procs p).pagetable ∧
        s.core.FrameEnters L p) := by
  refine ⟨fun hb => (hd.legal hb).2.1.trapProtocol, ?_, ?_⟩
  · rintro s satp rfl
    obtain ⟨kpt, hI, ⟨_, _, -, -, hl⟩ | ⟨hb, -, -, -, hspp, p, hr, -, -, -, hsatp⟩⟩ := hd.pre
    · exact absurd hl id
    · exact ⟨hspp, p, hr.cproc, hsatp, hr.header.enters (hI.2 hb.noff).kernel⟩
  · rintro s rfl
    obtain ⟨kpt, hI, ⟨_, _, -, -, hl⟩ | ⟨hb, hsup, p, hr, hsatp⟩⟩ := hd.pre
    · exact absurd hl id
    · exact ⟨hsup, p, hr.cproc, hsatp, hr.header.enters (hI.2 hb.noff).kernel⟩

/-- The first process comes to `userret`, and later returns from `fork` with its registers and the
pid of its child. -/
theorem trap_transparency_virt :
    (∃ (s : K) (satp : BitVec 64),
      Reachable .virt shImage (fun _ => false) ⟨s, .ret (.userret satp), []⟩ ∧
      s.hart.spp = false ∧ ∃ p, s.core.cproc = some p ∧
        satp = satpOf (s.core.procs p).pagetable ∧ s.core.FrameEnters .virt p) ∧
    ∃ (s : K) (l : List Event), Reachable .virt shImage (fun _ => false) ⟨s, .ret .user, []⟩ ∧
      TrapProtocol s.core.log ∧
      s.core.log = .resume 0 (Function.update (Sysno.fork.regs 0 0 0) .a0 2) 4 :: l ∧
      s.hart.supervisor = false ∧ ∃ p, s.core.cproc = some p ∧
        s.hart.satp = satpOf (s.core.procs p).pagetable ∧ s.core.FrameEnters .virt p := by
  constructor
  · obtain ⟨r, hr, hfirst, hload⟩ := exists_firstRun_sh
    obtain ⟨s, _, _, _, _, _, hrun, -⟩ := hr.run_forkret hfirst.cproc hfirst.first hload
    have hs := hr.run rfl hrun
    exact ⟨s, _, hs, (trap_transparency hs).2.1 s _ rfl⟩
  · obtain ⟨s, i, hs, hpair, -, -, -, -, regs, pc, l, hlog⟩ := exists_forked_virt
    obtain ⟨hprotocol, -, huser⟩ := trap_transparency hs
    have htraps := hprotocol (.inr ⟨.user, rfl, rfl⟩)
    -- what the process resumes with after its call
    obtain ⟨v, later, earlier, hlast, hregs, hpc⟩ := htraps.call [] 0 regs pc _ hlog
      [.sysret 0 2, .parentSet (some 0) i (some 0), .forked 0 i] _ _ l
      ⟨rfl, by simp [Event.Enters], by simp [Event.Enters, hpair.ne]⟩ (by simp)
    obtain rfl : v = 2 := by
      have hmem : Event.sysret 0 v ∈
          [.sysret 0 2, .parentSet (some 0) i (some 0), .forked 0 i] := by
        rw [hlast.eq]
        simp
      simpa using hmem
    rw [hregs, hpc] at hlog
    exact ⟨s, _, hs, htraps, hlog, huser s rfl⟩

end OsKernel
