import OsKernel.Lib.StraightLine
import OsKernel.Run.Isolation

/-!
# `swtch.S`

In the model of the kernel a saved context is the label at which its owner goes on, and `swtch`
jumps to such a label. The code in `swtch.S` stores fourteen registers in the one `struct context`
and loads them from the other. This module relates the two.

There are `NPROC + 1` threads: one for each slot, and the scheduler, whose context is in `cpus[0]`.
`K.coroutines` reads off a state of the kernel at which labels those threads go on that do not run.
How compiled code represents a label by the fourteen registers is left open, `enc`. Next to a run of
the kernel from label to label there is a machine with registers and memory, which saves and
restores them by `swtch.S` wherever the kernel goes from one thread to another. In such a run the
`struct context` of every thread that does not run represents the label the kernel has for it, and
`swtch` returns to the registers of the label where the kernel goes on.
-/

namespace OsKernel

variable {L : Layout} {image : Mem} {fails : ℕ → Bool} {a b : Label} {s t : K} {i j p : Slot}

/-! ### The code -/

/-- `swtch` up to `ret`. -/
def swtchAsm : List (Asm Reg) :=
  [.sd .ra 0 .a0, .sd .sp 8 .a0, .sd .s0 16 .a0, .sd .s1 24 .a0, .sd .s2 32 .a0, .sd .s3 40 .a0,
    .sd .s4 48 .a0, .sd .s5 56 .a0, .sd .s6 64 .a0, .sd .s7 72 .a0, .sd .s8 80 .a0,
    .sd .s9 88 .a0, .sd .s10 96 .a0, .sd .s11 104 .a0,
    .ld .ra 0 .a1, .ld .sp 8 .a1, .ld .s0 16 .a1, .ld .s1 24 .a1, .ld .s2 32 .a1, .ld .s3 40 .a1,
    .ld .s4 48 .a1, .ld .s5 56 .a1, .ld .s6 64 .a1, .ld .s7 72 .a1, .ld .s8 80 .a1,
    .ld .s9 88 .a1, .ld .s10 96 .a1, .ld .s11 104 .a1]

/-- `sizeof(struct context)`. -/
def contextSize : ℕ := 112

/-- The fields of `struct context`. -/
def contextSlots : List (Reg × ℕ) :=
  [(.ra, 0), (.sp, 8), (.s0, 16), (.s1, 24), (.s2, 32), (.s3, 40), (.s4, 48), (.s5, 56), (.s6, 64),
    (.s7, 72), (.s8, 80), (.s9, 88), (.s10, 96), (.s11, 104)]

theorem contextSlots_ascending : contextSlots.Pairwise fun x y => x.2 + 8 ≤ y.2 := by decide

theorem contextSlots_within : ∀ x ∈ contextSlots, x.2 + 8 ≤ contextSize := by decide

theorem contextSlots_nodup : (contextSlots.map Prod.fst).Nodup := by decide

/-- `struct context`. -/
def contextFrame : RegFrame Reg contextSize :=
  ⟨contextSlots, contextSlots_ascending, contextSlots_within, contextSlots_nodup⟩

theorem swtchAsm_eq : swtchAsm = contextFrame.save .a0 ++ contextFrame.restore .a1 := rfl

/-! ### The threads of the kernel -/

/-- The thread that runs: a process, or the scheduler. In the switch to the scheduler `cpus[0].proc`
is still set. -/
def K.thread (s : K) : Label → Option Slot
  | .schedulerBack _ => none
  | _ => s.core.cproc

/-- Where the threads of the kernel go on. -/
def K.coroutines (s : K) (a : Label) : Coroutines (Option Slot) Label where
  current := s.thread a
  context o := o.elim s.core.ccontext fun i => (s.core.procs i).context

theorem thread_eq (hb : ∀ p, b ≠ .schedulerBack p) : t.thread b = t.core.cproc := by
  cases b with
  | schedulerBack p => exact absurd rfl (hb p)
  | _ => rfl

/-- A label at which a process runs is not the switch to the scheduler. -/
theorem Reachable.thread_running (ht : Reachable L image fails ⟨t, .ret b, []⟩)
    (hp : t.core.cproc = some p) (hst : (t.core.procs p).state = .running) :
    t.thread b = some p := by
  rw [thread_eq, hp]
  rintro q rfl
  obtain rfl : p = q := Option.some.inj (hp.symm.trans ht.atPlace)
  exact ht.not_running hst

/-- A leg stays in one thread, or it ends in the switch to another one: the thread that is left has
saved its context, and the kernel goes on at the label in the context of the other one. -/
theorem LegEnds.switches (h : LegEnds a s b t) (hs : Reachable L image fails ⟨s, .ret a, []⟩)
    (ht : Reachable L image fails ⟨t, .ret b, []⟩) (hne : t.thread b ≠ s.thread a) :
    (t.coroutines b).context (t.thread b) = some b ∧
      ∃ k, (t.coroutines b).context (s.thread a) = some k := by
  cases h with
  | rest hb h =>
    subst hb
    refine absurd ?_ hne
    cases b with
    | schedulerBack p => rfl
    | _ => exact h.cproc
  | user h =>
    have hcproc := h.steady.cproc
    cases h with
    | compute regs pc hm => exact absurd hcproc hne
    | trap hi scause stval irq => exact absurd hcproc hne
  | round ha hb h =>
    subst ha hb
    exact absurd h.cproc hne
  | process ha h hb =>
    obtain ⟨p, hp⟩ := hs.busy ha
    have hthread : s.thread a = some p := by
      rw [thread_eq, hp]
      rintro q rfl
      exact ha trivial
    have hp' : t.core.cproc = some p := by
      clear hb hne ht
      induction h with
      | refl => exact hp
      | tail _ hstep ih => exact hstep.cproc.trans ih
    -- a process leaves the CPU only through `sched`, with its own context saved
    cases b with
    | schedulerBack q =>
      obtain ⟨hq, hctx, hsaved⟩ : Returning q t := hb
      obtain rfl : p = q := Option.some.inj (hp'.symm.trans hq)
      refine ⟨hctx, ?_⟩
      rw [hthread]
      exact Option.ne_none_iff_exists'.mp hsaved
    | _ => exact absurd (hp'.trans hthread.symm) hne
  | scan ha hidle h =>
    have hthread : s.thread a = none := by
      rw [ha]
      exact hidle
    cases h with
    | skip hi hst hidle' hb hrest =>
      rw [hb, hthread] at hne
      exact absurd hidle' hne
    | turn hi hp hst _ hctx hrest =>
      have ht' := ht.thread_running hp hst
      have hb : ¬b.IsScheduler := by
        cases b with
        | scheduler => exact fun _ => absurd (ht.idle_scheduler.symm.trans hp) (by simp)
        | schedulerScan j found => exact fun _ => absurd (ht.idle.symm.trans hp) (by simp)
        | schedulerBack q => exact absurd ht' (by simp [K.thread])
        | _ => exact id
      rw [ht', hthread]
      exact ⟨hctx, _, (ht.engaged hb _ hp).2⟩
    | wrap hi hidle' hb hrest =>
      rw [hb, hthread] at hne
      exact absurd hidle' hne
  | back ha hp h =>
    rw [ha, h.2.1] at hne
    exact absurd h.1 hne

/-! ### The machine -/

section Machine

variable (L) (A : ContextAreas (Option Slot) contextSize) (enc : Label → Reg → BitVec 64)

/-- A leg of the kernel and what the machine does meanwhile. The thread that runs leaves alone the
contexts of the others; if the kernel has saved another context for one of them, as `allocproc` does
for a new process, then so has the machine. If the leg ends in another thread, the machine ends with
a call of `swtch`, from registers that represent the label at which the thread is to go on. -/
inductive SwitchStep : (Label × K) × Machine Reg → (Label × K) × Machine Reg → Prop
  | stay {a b : Label} {s t : K} {m m' : Machine Reg} (hleg : (kernel L).Leg (a, s) (b, t))
      (hkeep : ∀ o k, o ≠ s.thread a → (t.coroutines b).context o = some k →
        (s.coroutines a).context o = some k ∧ m.mem.AgreeOn m'.mem (A.addr o) contextSize ∨
          contextFrame.Holds m'.mem (A.addr o) (enc k))
      (hstay : t.thread b = s.thread a) : SwitchStep ((a, s), m) ((b, t), m')
  | switch {a b : Label} {s t : K} {m m' : Machine Reg} (hleg : (kernel L).Leg (a, s) (b, t))
      (hkeep : ∀ o k, o ≠ s.thread a → (t.coroutines b).context o = some k →
        (s.coroutines a).context o = some k ∧ m.mem.AgreeOn m'.mem (A.addr o) contextSize ∨
          contextFrame.Holds m'.mem (A.addr o) (enc k))
      (hne : t.thread b ≠ s.thread a)
      (hsaved : ∀ k, (t.coroutines b).context (s.thread a) = some k →
        ∀ r ∈ contextFrame.regs, m'.regs r = enc k r)
      (ha0 : (m'.regs .a0).toNat = A.addr (s.thread a))
      (ha1 : (m'.regs .a1).toNat = A.addr (t.thread b)) :
      SwitchStep ((a, s), m) ((b, t), m'.run swtchAsm)

/-- The contexts of the threads that do not run represent the labels the kernel has for them. -/
def Represents (x : (Label × K) × Machine Reg) : Prop :=
  (x.1.2.coroutines x.1.1).Refined contextFrame A enc x.2

variable {L A enc}

theorem SwitchStep.leg {x y : (Label × K) × Machine Reg} (h : SwitchStep L A enc x y) :
    (kernel L).Leg x.1 y.1 := by
  cases h with
  | stay hleg => exact hleg
  | switch hleg => exact hleg

/-- The contexts before a switch, as they will be after it. -/
theorem refined_of_keep {m m' : Machine Reg}
    (h : (s.coroutines a).Refined contextFrame A enc m)
    (hkeep : ∀ o k, o ≠ s.thread a → (t.coroutines b).context o = some k →
      (s.coroutines a).context o = some k ∧ m.mem.AgreeOn m'.mem (A.addr o) contextSize ∨
        contextFrame.Holds m'.mem (A.addr o) (enc k)) :
    (Coroutines.mk (s.thread a) (t.coroutines b).context).Refined contextFrame A enc m' := by
  intro o k ho hk
  rcases hkeep o k ho hk with ⟨hk', hagree⟩ | hnew
  · exact (h o k ho hk').agree hagree
  · exact hnew

/-- **One leg.** -/
theorem SwitchStep.represents {x y : (Label × K) × Machine Reg} (h : SwitchStep L A enc x y)
    (hs : Reachable L image fails ⟨x.1.2, .ret x.1.1, []⟩) (hx : Represents A enc x) :
    Represents A enc y ∧ (y.1.2.thread y.1.1 ≠ x.1.2.thread x.1.1 →
      ∀ r ∈ contextFrame.regs, y.2.regs r = enc y.1.1 r) := by
  have ht := hs.step h.leg.micro
  cases h with
  | @stay a b s t m m' hleg hkeep hstay =>
    refine ⟨?_, fun hne => absurd hstay hne⟩
    have hrefined := refined_of_keep hx hkeep
    rw [← hstay] at hrefined
    exact hrefined
  | @switch a b s t m m' hleg hkeep hne hsaved ha0 ha1 =>
    obtain ⟨hb, k, hk⟩ := (leg_ends hs hs.atPlace hleg).switches hs ht hne
    obtain ⟨hrefined, hregs, -⟩ := (refined_of_keep hx hkeep).switch hne hb (hsaved k hk) ha0 ha1
      (by decide)
    rw [← swtchAsm_eq] at hrefined hregs
    refine ⟨?_, fun _ => hregs⟩
    have hsame : (Coroutines.mk (s.thread a) (t.coroutines b).context).switch k (t.thread b) =
        t.coroutines b := by
      rw [Coroutines.switch]
      refine congrArg (Coroutines.mk _) ?_
      rw [← hk]
      exact Function.update_eq_self ..
    rw [hsame] at hrefined
    exact hrefined

theorem represents_run {x y : (Label × K) × Machine Reg}
    (hrun : Relation.ReflTransGen (SwitchStep L A enc) x y)
    (hs : Reachable L image fails ⟨x.1.2, .ret x.1.1, []⟩) (hx : Represents A enc x) :
    Reachable L image fails ⟨y.1.2, .ret y.1.1, []⟩ ∧ Represents A enc y := by
  induction hrun with
  | refl => exact ⟨hs, hx⟩
  | tail _ hstep ih => exact ⟨ih.1.step hstep.leg.micro, (hstep.represents ih.1 ih.2).1⟩

/-- **`swtch.S` implements the switches of the kernel.** Let the contexts represent the labels of
the threads that do not run, and let the kernel and the machine go on in step for any number of
legs. Then the contexts still do, and whenever the kernel has gone to another thread, the return
address, the stack pointer and the callee-saved registers are those of the label at which it goes
on. -/
theorem swtch_resumes {x y z : (Label × K) × Machine Reg}
    (hs : Reachable L image fails ⟨x.1.2, .ret x.1.1, []⟩) (hx : Represents A enc x)
    (hrun : Relation.ReflTransGen (SwitchStep L A enc) x y) (hstep : SwitchStep L A enc y z) :
    Represents A enc z ∧ (z.1.2.thread z.1.1 ≠ y.1.2.thread y.1.1 →
      ∀ r ∈ contextFrame.regs, z.2.regs r = enc z.1.1 r) := by
  obtain ⟨hy, hrep⟩ := represents_run hrun hs hx
  exact hstep.represents hy hrep

end Machine

/-! ### An instance -/

/-- Contexts one after the other. -/
def contextAddr (o : Option Slot) : ℕ := 0x80010000 + contextSize * o.elim nproc Fin.val

theorem contextAddr_bound (o : Option Slot) : contextAddr o + contextSize ≤ 2 ^ 64 := by
  have hlt : o.elim nproc Fin.val ≤ nproc := by
    cases o with
    | none => exact le_rfl
    | some i => exact i.isLt.le
  simp only [contextAddr, contextSize, nproc] at hlt ⊢
  omega

theorem contextAddr_disjoint (o o' : Option Slot) (h : o ≠ o') :
    contextAddr o + contextSize ≤ contextAddr o' ∨
      contextAddr o' + contextSize ≤ contextAddr o := by
  have hne : o.elim nproc Fin.val ≠ o'.elim nproc Fin.val := by
    intro he
    cases o with
    | none =>
      cases o' with
      | none => exact h rfl
      | some j => exact absurd he.symm (Nat.ne_of_lt j.isLt)
    | some i =>
      cases o' with
      | none => exact absurd he (Nat.ne_of_lt i.isLt)
      | some j => exact h (congrArg some (Fin.ext he))
  simp only [contextAddr, contextSize]
  omega

/-- The areas of the contexts. -/
def contextAreas : ContextAreas (Option Slot) contextSize :=
  ⟨contextAddr, contextAddr_bound, contextAddr_disjoint⟩

/-- Some memory represents the contexts of a state. -/
theorem exists_represents (A : ContextAreas (Option Slot) contextSize)
    (enc : Label → Reg → BitVec 64) (a : Label) (s : K) :
    ∃ mem, ∀ regs, Represents A enc ((a, s), ⟨regs, mem⟩) := by
  have hbase : Reg.a0 ∉ contextFrame.regs := by decide
  obtain ⟨mem, hmem⟩ := A.exists_holds contextFrame hbase (by decide)
    (fun o => ((s.coroutines a).context o).elim (fun _ => 0) enc) (none :: slots.map some)
  refine ⟨mem, fun regs o k _ hk => ?_⟩
  have hheld := hmem o (by cases o <;> simp [slots])
  rwa [hk] at hheld

/-- A label is known by the return address: that of the calls of `swtch` in `scheduler` and in
`sched`, or the address of `forkret`. -/
def returnRegs : Label → Reg → BitVec 64
  | .schedulerBack _, .ra => 0x80001000
  | .sleepBack _ _ _, .ra => 0x80002000
  | .exitBack, .ra => 0x80002000
  | .forkret, .ra => 0x80003000
  | _, _ => 0

/-- The registers with which the scheduler calls `swtch` to switch to the first process. -/
def callingRegs (r : Reg) : BitVec 64 :=
  if r = .a0 then .ofNat 64 (contextAddr none)
  else if r = .a1 then .ofNat 64 (contextAddr (some 0))
  else returnRegs (.schedulerBack 0) r

theorem callingRegs_a0 : (callingRegs .a0).toNat = contextAddr none := by decide

theorem callingRegs_a1 : (callingRegs .a1).toNat = contextAddr (some 0) := by decide

theorem callingRegs_saved : ∀ r ∈ contextFrame.regs,
    callingRegs r = returnRegs (.schedulerBack 0) r := by decide

/-- The scheduler switches to a process that was asleep. -/
theorem swtch_resumes_virt : ∃ (s t : K) (b : Label) (m m' : Machine Reg),
    Reachable .virt shImage (fun _ => false) ⟨s, .ret (.schedulerScan 0 false), []⟩ ∧
    Represents contextAreas returnRegs ((.schedulerScan 0 false, s), m) ∧
    SwitchStep .virt contextAreas returnRegs ((.schedulerScan 0 false, s), m) ((b, t), m') ∧
    s.thread (.schedulerScan 0 false) = none ∧ t.thread b = some 0 ∧
    Represents contextAreas returnRegs ((b, t), m') ∧
    (∀ r ∈ contextFrame.regs, m'.regs r = returnRegs b r) ∧
    m.regs .ra = 0x80001000 ∧ m'.regs .ra = 0x80002000 := by
  obtain ⟨s, i, hs, -, -, -, hzero, -, ia, hctx⟩ := exists_both_ready_virt
  obtain ⟨t, hnext, hcore⟩ := hs.next_dispatch (i := 0) hzero hctx
  have hthread : s.thread (.schedulerScan 0 false) = none := hs.idle
  have hthread' : t.thread (.sleepBack 0 ia (.consoleread 16 1 1)) = some 0 := by
    show t.core.cproc = some 0
    rw [hcore]
    rfl
  have hne : t.thread (.sleepBack 0 ia (.consoleread 16 1 1)) ≠
      s.thread (.schedulerScan 0 false) := by
    rw [hthread, hthread']
    simp
  obtain ⟨mem, hmem⟩ := exists_represents contextAreas returnRegs (.schedulerScan 0 false) s
  have hstep : SwitchStep .virt contextAreas returnRegs
      ((.schedulerScan 0 false, s), ⟨callingRegs, mem⟩)
      ((.sleepBack 0 ia (.consoleread 16 1 1), t), Machine.run ⟨callingRegs, mem⟩ swtchAsm) := by
    refine .switch (System.leg_of_next hnext) (fun o k ho hk => .inl ⟨?_, fun _ _ => rfl⟩) hne
      (fun k hk => ?_) ?_ ?_
    · cases o with
      | none => exact absurd hthread.symm ho
      | some j =>
        replace hk : (t.core.procs j).context = some k := hk
        rw [hcore, Core.dispatch_context] at hk
        exact hk
    · -- what the scheduler leaves in its own context
      rw [hthread] at hk
      replace hk : t.core.ccontext = some k := hk
      rw [hcore] at hk
      cases hk
      exact callingRegs_saved
    · rw [hthread]
      exact callingRegs_a0
    · rw [hthread']
      exact callingRegs_a1
  obtain ⟨hrep, hregs⟩ := swtch_resumes hs (hmem callingRegs) .refl hstep
  exact ⟨s, t, _, _, _, hs, hmem callingRegs, hstep, hthread, hthread', hrep, hregs hne, rfl,
    hregs hne .ra (by decide)⟩

end OsKernel
