import OsKernel.Run.OwnMemory

/-!
# Traps and the memory of the process that traps

A process that has left user mode finds its memory again when it is back. On the way the kernel
saves its registers, makes the system call or handles the interrupt, possibly sleeps while other
processes run, and restores the registers. The bytes it may have changed are known when the trap is
taken: `Trap.window` reads them off the registers of the process. Only `exec` does more, and then
the memory is the image of a program.

`Handles` is what holds at each label from the trap to the return, `Handles.leg` takes a leg and
`trap_transparent` a run. While the process is away, `leg_resumes` speaks of it. Before that, code
that runs with interrupts disabled is looked at exactly: `uservec` and the beginning of `usertrap`
are the only places where the kernel relies on it to keep the trap apart from interrupts.
-/

namespace OsKernel

variable {L : Layout} {S : Site} {c c₀ c' c'' : Core} {r s t u : K} {p i j : Slot} {W W' : Set ℕ}
  {α β : Type} {image : Mem} {fails : ℕ → Bool} {a b : Label}

/-! ### Back to user mode -/

theorem leads_syscallReturn (v : BitVec 64) (h : Holds L S p W c₀ s.core) :
    Leads L (syscallReturn p v) (Leaves p W c₀) s :=
  .bind (leads_modCore fun _ ht => leads_pure ((((h.passive ht).tfStore (k := Reg.a0.offset)
    (by decide) v).passive (Passive.emit _ _)).leaves rfl))

theorem leads_tfStore {k : ℕ} {v : Core → BitVec 64} {f : Unit → KernelM α} {Q : α → K → Prop}
    (h : Holds L S p W c₀ s.core) (hk : k + 8 ≤ 4096)
    (hf : ∀ t, Holds L S p W c₀ t.core → Leads L (f ()) Q t) :
    Leads L ((modCore fun c => c.tfStore p k (v c)) >>= f) Q s :=
  .bind (leads_modCore fun _ ht => hf _ ((h.passive ht).tfStore hk _))

theorem leads_usertrapret (h : Holds L S p W c₀ s.core) :
    Leads L (usertrapret L) (fun _ t => Holds L S p W c₀ t.core) s := by
  refine leads_myproc_bind h.cproc fun t ht => Passive.coarse.modHart.leads_bind fun _ u hu =>
    Passive.coarse.modHart.leads_bind fun _ v hv => Passive.coarse.getHart.leads_bind
    fun satp w hw => ?_
  refine leads_tfStore (v := fun _ => satp) (h.passive (((ht.trans hu).trans hv).trans hw))
    (by decide) fun x₁ h₁ => ?_
  refine leads_tfStore h₁ (by decide) fun x₂ h₂ => ?_
  refine leads_tfStore (v := fun _ => BitVec.ofNat 64 L.usertrap) h₂ (by decide) fun x₃ h₃ => ?_
  refine Passive.coarse.getHart.leads_bind fun tp x₄ h₄ => ?_
  refine leads_tfStore (v := fun _ => tp) (h₃.passive h₄) (by decide) fun x₅ h₅ => ?_
  refine Passive.coarse.modHart.leads_bind fun _ x₆ h₆ => Passive.coarse.getCore.leads_bind
    fun _ x₇ h₇ => Passive.coarse.modHart.leads fun _ x₈ h₈ => ?_
  exact h₅.passive ((h₆.trans h₇).trans h₈)

theorem leads_usertrapTail (h : Holds L S p W c₀ s.core) :
    Leads L (usertrapTail L p) (Leaves p W c₀) s := by
  refine (Passive.coarse.killed p).leads_bind fun _ t ht => leads_ite
    (fun _ => leads_kexit _ (h.passive ht)) fun _ => ?_
  refine .bind ((leads_usertrapret (h.passive ht)).mono fun _ u hu => ?_)
  exact Passive.coarse.getCore.leads_bind fun _ v hv => leads_pure ((hu.passive hv).leaves trivial)

/-- The instruction stores to memory. -/
def Instr.IsStore : Instr → Bool
  | .sd _ _ _ => true
  | _ => false

theorem Instr.exec_core {x : Instr} (h : x.exec L s = .ok t) (hx : x.IsStore = false) :
    t.core = s.core := by
  cases x with
  | sd rs off base => cases hx
  | ld rd off base =>
    rw [Instr.exec] at h
    split at h
    · cases h
      rfl
    · cases h
  | csrwSatp rs =>
    rw [Instr.exec] at h
    split_ifs at h
    cases h
    rfl
  | _ =>
    cases h
    rfl

theorem execAll_core : ∀ {xs : List Instr} {s : K}, execAll L xs s = .ok t →
    (∀ x ∈ xs, x.IsStore = false) → t.core = s.core := by
  intro xs
  induction xs with
  | nil =>
    rintro s ⟨⟩ -
    rfl
  | cons x xs ih =>
    intro s h hxs
    cases hx : x.exec L s with
    | ok u =>
      rw [execAll, hx] at h
      exact (ih h fun y hy => hxs y (.tail _ hy)).trans (Instr.exec_core hx (hxs x (.head _)))
    | error e =>
      rw [execAll, hx] at h
      cases h

theorem execAll_of_trampolineCode {xs : List Instr} {r : Unit}
    (h : trampolineCode L xs s = .ok (r, t)) : execAll L xs s = .ok t := by
  rw [trampolineCode] at h
  cases hx : execAll L xs s with
  | ok u =>
    rw [hx] at h
    cases h
    rfl
  | error e =>
    rw [hx] at h
    cases h

theorem leads_userretCode (satp : BitVec 64) (h : Holds L S p W c₀ s.core) :
    Leads L (userretCode L satp) (Leaves p W c₀) s := by
  have htramp : Keeps Passive (Prog.atomic (trampolineCode L userret)) := by
    refine ⟨Prog.within_atomic (fun s => Passive.refl s.core) fun s r t hx => ?_⟩
    rw [execAll_core (execAll_of_trampolineCode hx) (by decide)]
    exact .refl _
  refine Passive.coarse.modHart.leads_bind fun _ t ht => ?_
  refine htramp.leads_bind fun _ u hu => ?_
  refine Passive.coarse.getHart.leads_bind fun _ v hv => ?_
  refine Passive.coarse.getCore.leads_bind fun q w hw => ?_
  refine (keeps_deref q).leads_bind fun _ x hx => leads_ite (fun _ => leads_kpanic) fun _ => ?_
  refine (keeps_update fun s => Passive.emit s.core _).leads_bind fun _ y hy => leads_pure ?_
  exact (h.passive (((((ht.trans hu).trans hv).trans hw).trans hx).trans hy)).leaves trivial

/-! ### Out of user mode -/

section Masked

variable {Q : α → K → Prop} (hsie : s.hart.sie = false)

include hsie

theorem leads_read_masked {g : K → α} (h : Q (g s) s) : Leads L (Prog.read g : KernelM α) Q s :=
  ⟨Prog.guarantees_read (fun _ => trivial) fun t ht => by
    rw [Meddles.eq_of_masked ht hsie]
    exact h⟩

theorem leads_update_masked {g : K → K} {Q : Unit → K → Prop} (h : Q () (g s)) :
    Leads L (Prog.update g : KernelM Unit) Q s :=
  ⟨Prog.guarantees_update fun t ht => by
    rw [Meddles.eq_of_masked ht hsie]
    exact ⟨trivial, h⟩⟩

theorem leads_atomic_masked {y : PanicM K Panic α}
    (h : ∀ a t, y s = .ok (a, t) → Q a t) : Leads L (Prog.atomic y) Q s :=
  ⟨Prog.guarantees_atomic (fun _ => trivial) fun t ht a u hx => by
    rw [Meddles.eq_of_masked ht hsie] at hx
    exact ⟨trivial, h a u hx⟩⟩

theorem leads_pushOff_masked {Q : Unit → K → Prop} (h : Q () { s with hart := s.hart.pushed }) :
    Leads L pushOff Q s := by
  refine .bind (leads_read_masked hsie (.bind (leads_update_masked hsie (.bind
    (leads_update_masked rfl (leads_update_masked ?_ h))))))
  show (s.hart.intrOff.saveIntena s.hart.sie).sie = false
  rw [Hart.saveIntena]
  split_ifs <;> rfl

theorem leads_popOff_masked {Q : Unit → K → Prop}
    (h : Q () { s with hart := s.hart.pop.restore }) : Leads L popOff Q s := by
  refine .bind (leads_read_masked hsie (leads_ite (fun _ => leads_kpanic) fun _ => ?_))
  refine .bind (leads_read_masked hsie (leads_ite (fun _ => leads_kpanic) fun _ => ?_))
  exact .bind (leads_update_masked hsie (leads_update_masked (s := { s with hart := s.hart.pop })
    hsie h))

/-- With interrupts off `myproc` has an exact effect. -/
theorem leads_myproc_masked {Q : Option Slot → K → Prop}
    (h : Q s.core.cproc { s with hart := s.hart.visited }) : Leads L myproc Q s := by
  have hpushed := s.hart.sie_pushed
  exact .bind (leads_pushOff_masked hsie (.bind (leads_read_masked hpushed (.bind
    (leads_popOff_masked hpushed (leads_pure h))))))

end Masked

/-- **`uservec`** saves the registers in the trapframe of the process, and nothing else happens. -/
theorem leads_vector (hg : Good L S s.core) (h : TrapOk L S .vector s)
    (hp : s.core.cproc = some p) :
    Leads L (vector L) (fun a t => a = .usertrap ∧ t.hart.sie = false ∧ ∃ m,
      (∀ a, a / 4096 * 4096 ≠ (s.core.procs p).trapframe → m a = s.core.vm.mem a) ∧
        t.core = s.core.setMem m) s := by
  obtain ⟨-, q, t, hready, htrapped, hsatp, -⟩ := h
  obtain rfl : q = p := Option.some.inj (hready.cproc.symm.trans hp)
  refine .bind (leads_read_masked htrapped.sie (leads_ite (fun _ => leads_kpanic) fun _ => ?_))
  refine .bind (leads_atomic_masked htrapped.sie fun r u hx => ?_)
  obtain ⟨m, regs, hx', -, -, hout, -⟩ := uservec_ok (L := L) (s := s)
    (hg.trapframe_lt hp).1 (hsatp ▸ hg.mapsFrame hp) hready.header.satp
    fun m' hm' => (hg.setFrame hp hm').1.translate_kernel
  obtain rfl := Except.ok.inj ((execAll_of_trampolineCode hx).symm.trans hx')
  obtain ⟨h, hh⟩ : ∃ h : Hart, h = { s.hart with
    regs := regs, sscratch := s.hart.regs .a0, satp := satpOf S.kpt } := ⟨_, rfl⟩
  have hsie : h.sie = false := by
    rw [hh]
    exact htrapped.sie
  rw [← hh]
  refine .bind (leads_read_masked hsie (.bind (leads_read_masked hsie ?_)))
  show Leads L (deref s.core.cproc >>= _) _ _
  rw [hp]
  refine .bind (leads_pure (.bind (leads_read_masked hsie (.bind (leads_read_masked hsie ?_)))))
  exact leads_ite (fun _ => leads_pure ⟨rfl, hsie, m, hout, rfl⟩) fun _ => leads_kpanic

/-! ### System calls -/

/-- The addresses the kernel may store to on behalf of a trap: the buffer of a read, and the status
of a wait. -/
def Trap.window (t : Trap) : Set ℕ := {va | t.IsCall ∧
  (t.number = 3 ∧ t.regs .a0 ≠ 0 ∧ (∃ k, k < 4 ∧ va = (t.regs .a0).toNat + k) ∨
    t.number = 5 ∧ ∃ k, k < ((t.regs .a2).setWidth 32 : BitVec 32).toInt.toNat ∧
      va = ((t.regs .a1).toNat + k) % wordSize)}

/-- The trap is a call of exec. -/
def Trap.IsExec (t : Trap) : Prop := t.IsCall ∧ t.number = 7

theorem Trap.serves_wait {x : Trap} (hcall : x.IsCall) (hnum : x.number = 3) :
    (Resume.kwait (x.regs .a0).toNat).Serves x.window := fun h0 k hk =>
  ⟨hcall, .inl ⟨hnum, fun hz => h0 (by rw [hz]; rfl), k, hk, rfl⟩⟩

theorem Trap.serves_read {x : Trap} (hcall : x.IsCall) (hnum : x.number = 5) :
    (Resume.consoleread (x.regs .a1).toNat ((x.regs .a2).setWidth 32)
      ((x.regs .a2).setWidth 32)).Serves x.window := fun k hk =>
  ⟨hcall, .inr ⟨hnum, k, hk, rfl⟩⟩

theorem Passive.tfLoad (h : Passive c c') (k : ℕ) : c'.tfLoad p k = c.tfLoad p k := by
  have htf : (c'.procs p).trapframe = (c.procs p).trapframe :=
    congrArg Space.trapframe (h.space p)
  rw [Core.tfLoad, Core.tfLoad, h.vm, htf]

theorem Trap.IsExec.window_eq {x : Trap} (h : x.IsExec) : x.window = ∅ := by
  ext va
  simp [Trap.window, h.2]

/-- The process has the image of a program instead of what it had. -/
def Core.Replaced (L : Layout) (image : Mem) (c c' : Core) (p : Slot) : Prop :=
  ∃ c₁ c₂ path start size, c.Retains c₁ p ∅ ∧ c₁.Program L path start size ∧
    ExecLoads L image p start size c₁ c₂ ∧ c₂.Retains c' p ∅

/-- What the trap `x` has done to the memory of the process. -/
def Trap.Effect (L : Layout) (image : Mem) (x : Trap) (p : Slot) (c c' : Core) : Prop :=
  c.Retains c' p x.window ∨ x.IsExec ∧ c.Replaced L image c' p

/-- How the piece of the kernel that deals with the trap `x` of `p` ends. -/
structure Answered (L : Layout) (image : Mem) (x : Trap) (p : Slot) (c₀ : Core) (a : Label)
    (t : K) : Prop where
  cproc : t.core.cproc = some p
  effect : x.Effect L image p c₀ t.core
  continues : Continues p x.window a t

theorem Leaves.answered {x : Trap} (h : Leaves p x.window c₀ a t) : Answered L image x p c₀ a t :=
  ⟨h.cproc, .inl h.retains, h.continues⟩

/-- The kernel works for the call `x` of the process. -/
structure Serving (L : Layout) (S : Site) (x : Trap) (p : Slot) (c₀ c : Core) : Prop where
  holds : Holds L S p x.window c₀ c
  regs : ∀ r : Reg, c.tfLoad p r.offset = x.regs r

section Calls

variable {x : Trap} {Q : α → K → Prop}

theorem Serving.passive (h : Serving L S x p c₀ c) (hc : Passive c c') : Serving L S x p c₀ c' :=
  ⟨h.holds.passive hc, fun r => (hc.tfLoad _).trans (h.regs r)⟩

theorem leads_argraw {f : BitVec 64 → KernelM α} (h : Serving L S x p c₀ s.core) (r : Reg)
    (hf : ∀ t, Serving L S x p c₀ t.core → Leads L (f (x.regs r)) Q t) :
    Leads L (argraw r >>= f) Q s := by
  refine .bind (leads_myproc_bind h.holds.cproc fun t ht => leads_getCore fun u hu => ?_)
  have hu' := h.passive (ht.trans hu)
  rw [hu'.regs]
  exact hf u hu'

theorem leads_fetchstr {addr max : ℕ} {f : Option (List UInt8) → KernelM α}
    (h : Serving L S x p c₀ s.core)
    (hf : ∀ str t, Serving L S x p c₀ t.core → Leads L (f str) Q t) :
    Leads L (fetchstr L addr max >>= f) Q s := by
  refine .bind (leads_myproc_bind h.holds.cproc fun t ht => .bind (leads_getCore fun u hu =>
    leads_vm fun v res m hv hx => ?_))
  have hv' := h.passive ((ht.trans hu).trans hv)
  obtain ⟨o, hsp⟩ := hv'.holds.spaces
  rw [show (u.core.procs p).pagetable = (v.core.procs p).pagetable from
    (congrArg Space.pagetable (hv.space p)).symm] at hx
  obtain ⟨_, m', hx', rfl, -⟩ := copyinstr_spec (L := L) hsp.inv.tables
    (hsp.owned p _ hv'.holds.space).root addr max
  obtain ⟨-, rfl⟩ := Prod.mk.inj (Except.ok.inj (hx.symm.trans hx'))
  exact hf res _ hv'

/-- **`kexec`** leaves the process what it has, or replaces it. -/
theorem leads_kexec {path : List UInt8} {Q : BitVec 32 → K → Prop} (h : Holds L S p ∅ c₀ s.core)
    (hQ : ∀ v t, t.core.cproc = some p →
      c₀.Retains t.core p ∅ ∨ c₀.Replaced L S.image t.core p → Q v t) :
    Leads L (kexec L path) Q s := by
  refine leads_ite (fun _ => leads_pure (hQ _ _ h.cproc (.inl h.retains))) fun _ => ?_
  refine .bind (leads_getCore fun t ht => ?_)
  have ht' := h.passive ht
  cases hup : t.core.findUprog L (path.take (trimLen path path.length)) with
  | fault => exact leads_kpanic
  | null => exact leads_pure (hQ _ _ ht'.cproc (.inl ht'.retains))
  | found up =>
    refine leads_myproc_bind ht'.cproc fun u hu => leads_coreAtomic fun v r c' hv hx => ?_
    have hall := hu.trans hv
    have hv' := ht'.passive hall
    obtain ⟨o, hsp⟩ := hv'.spaces
    have hfound : v.core.findUprog L (path.take (trimLen path path.length)) = .found up := by
      rw [← hup, Core.findUprog, Core.findUprog, hall.vm]
    rcases execLoad_spec hsp hv'.space up _ rfl rfl with ⟨herr, -⟩ | ⟨r', c'', hx', hres⟩
    · rw [herr] at hx
      cases hx
    obtain ⟨rfl, rfl⟩ := Prod.mk.inj (Except.ok.inj (hx.symm.trans hx'))
    rcases hres with ⟨-, ⟨s', o', rfl, hkept, -⟩, -⟩ | ⟨-, ⟨pt, hexeced⟩, -⟩
    · refine hQ _ _ hv'.cproc (.inl (hv'.retains.trans (.of_sameSpace rfl ?_)))
      exact hkept.space p _ hv'.space
    · have hcproc : c'.cproc = some p := by
        obtain ⟨s₁, s₂, o', hc', -⟩ := hexeced
        rw [hc']
        exact hv'.cproc
      exact hQ _ _ hcproc (.inr ⟨v.core, c', path, _, _, hv'.retains, ⟨up, hfound, rfl, rfl⟩,
        hexeced.loads hsp, .refl c'⟩)

/-- **System calls** but for fork. -/
theorem leads_syscall (h : Serving L S x p c₀ s.core) (hcall : x.IsCall) (hfork : x.number ≠ 1) :
    Leads L (syscall L) (Answered L S.image x p c₀) s := by
  refine leads_myproc_bind h.holds.cproc fun t ht => .bind (leads_getCore fun u hu => ?_)
  have hu' := h.passive (ht.trans hu)
  rw [hu'.regs]
  change Leads L (if x.number = 1 then _ else _) _ _
  rw [if_neg hfork]
  refine leads_ite (fun _ => ?exit) fun _ => leads_ite (fun hnum => ?wait) fun _ =>
    leads_ite (fun hnum => ?read) fun _ => leads_ite (fun hnum => ?exec) fun _ =>
    leads_ite (fun _ => ?getpid) fun _ => leads_ite (fun _ => ?write) fun _ =>
    leads_pure (hu'.holds.leaves (a := .sysret p _) rfl).answered
  case exit =>
    exact leads_argraw hu' .a0 fun v hv => (leads_kexit _ hv.holds).mono fun _ _ h => h.answered
  case wait =>
    refine leads_argraw hu' .a0 fun v hv => leads_myproc_bind hv.holds.cproc fun w hw => ?_
    refine (Passive.coarse.acquire _).leads_bind fun _ y hy => ?_
    refine Passive.modEmit.leads_bind fun _ z hz => leads_pure ?_
    exact ((hv.passive ((hw.trans hy).trans hz)).holds.leaves (a := .kwait p _)
      ⟨rfl, Trap.serves_wait hcall hnum⟩).answered
  case read =>
    refine leads_argraw hu' .a0 fun v hv => leads_argraw hv .a1 fun w hw => ?_
    refine leads_argraw hw .a2 fun y hy => leads_ite (fun _ => ?_) fun _ => ?_
    · exact leads_pure (hy.holds.leaves (a := .sysret p _) rfl).answered
    · refine (Passive.coarse.acquire _).leads_bind fun _ z hz => ?_
      refine Passive.modEmit.leads_bind fun _ z' hz' => leads_pure ?_
      exact ((hy.passive (hz.trans hz')).holds.leaves (a := .consoleread p _ _ _)
        ⟨rfl, Trap.serves_read hcall hnum⟩).answered
  case exec =>
    have hexec : x.IsExec := ⟨hcall, hnum⟩
    refine .bind (leads_argraw hu' .a1 fun v hv => leads_argraw hv .a0 fun w hw =>
      leads_fetchstr hw fun str y hy => ?_)
    cases str with
    | none => exact leads_pure (leads_pure (hy.holds.leaves (a := .sysret p _) rfl).answered)
    | some path =>
      have hholds := hy.holds
      rw [hexec.window_eq] at hholds
      refine leads_kexec hholds fun r z hcproc hres => leads_pure ⟨hcproc, ?_, rfl⟩
      rw [Trap.Effect, hexec.window_eq]
      exact hres.imp_right fun h => ⟨hexec, h⟩
  case getpid =>
    refine .bind (leads_myproc_bind hu'.holds.cproc fun v hv => leads_getCore fun w hw =>
      leads_pure ?_)
    exact ((hu'.passive (hv.trans hw)).holds.leaves (a := .sysret p _) rfl).answered
  case write =>
    refine leads_argraw hu' .a0 fun v hv => leads_argraw hv .a1 fun w hw => ?_
    refine leads_argraw hw .a2 fun y hy => leads_ite (fun _ => ?_) fun _ => ?_
    · exact leads_pure (hy.holds.leaves (a := .sysret p _) rfl).answered
    · exact leads_pure (hy.holds.leaves (a := .consolewrite p _ _ _) rfl).answered

/-- **`usertrap`** but for fork. -/
theorem leads_usertrap (h : TrapOk L S .usertrap s) (hh : Holds L S p x.window c₀ s.core)
    (hx : (s.core.hist p).trap = some x) (hfork : ¬(x.IsCall ∧ x.number = 1)) :
    Leads L (usertrap L) (Answered L S.image x p c₀) s := by
  obtain ⟨core, hart⟩ := s
  obtain ⟨hborder, q, x', hready, htrapped, -, -, hregs, htrap, -⟩ := h
  obtain rfl : q = p := Option.some.inj (hready.cproc.symm.trans hh.cproc)
  obtain rfl : x' = x := Option.some.inj (htrap.symm.trans hx)
  have hsie : hart.sie = false := htrapped.sie
  refine .bind (leads_read_masked hsie (leads_ite (fun _ => leads_kpanic) fun _ => ?_))
  refine .bind (leads_update_masked hsie (.bind (leads_myproc_masked (by exact hsie) ?_)))
  obtain ⟨b, hvisited⟩ := Hart.visited_eq
    (h := { hart with stvec := BitVec.ofNat 64 L.kernelvec }) fun _ => hsie
  show Leads L (deref core.cproc >>= _) _ ⟨core, Hart.visited _⟩
  rw [show core.cproc = some q from hh.cproc, hvisited]
  refine .bind (leads_pure (.bind (leads_read_masked (by exact hsie) (.bind
    (leads_update_masked (by exact hsie) (.bind (leads_read_masked (by exact hsie) ?_)))))))
  have hstored := hh.tfStore (k := tfEpc) (by decide) hart.sepc
  have hregs₁ : ∀ r : Reg, (core.tfStore q tfEpc hart.sepc).tfLoad q r.offset = x'.regs r := by
    intro r
    have := r.offset_le.1
    rw [Core.tfLoad_tfStore_of_apart _ _ _ (.inl (by simp only [tfEpc]; omega))]
    exact hregs r
  refine leads_ite (fun hcause => ?_) fun _ => ?_
  · have hcall : x'.IsCall := htrapped.scause.symm.trans hcause
    refine .bind (leads_modCore fun t ht => Passive.coarse.modHart.leads_bind fun _ u hu => ?_)
    have hserving : Serving L S x' q c₀ (t.core.tfStore q tfEpc (t.core.tfLoad q tfEpc + 4)) := by
      refine ⟨(hstored.passive ht).tfStore (by decide) _, fun r => ?_⟩
      have := r.offset_le.1
      rw [Core.tfLoad_tfStore_of_apart _ _ _ (.inl (by simp only [tfEpc]; omega)), ht.tfLoad]
      exact hregs₁ r
    exact leads_syscall (hserving.passive hu) hcall fun hnum => hfork ⟨hcall, hnum⟩
  · refine (Passive.tolerant.devintr L).leads_bind fun _ t ht => leads_ite (fun _ => ?_) fun _ => ?_
    · exact leads_pure ((hstored.passive ht).leaves (a := .usertrapTail q) rfl).answered
    -- an exception: the kernel prints what it knows and marks the process
    · refine Passive.coarse.getHart.leads_bind fun _ u hu => ?_
      refine Passive.coarse.getCore.leads_bind fun _ v hv => ?_
      refine (Passive.coarse.printf _ _).leads_bind fun _ w hw => ?_
      refine (Passive.coarse.printf _ _).leads_bind fun _ y hy => ?_
      refine (Passive.coarse.setkilled q).leads_bind fun _ z hz => leads_pure ?_
      exact ((hstored.passive (((((ht.trans hu).trans hv).trans hw).trans hy).trans hz)).leaves
        (a := .usertrapTail q) rfl).answered

end Calls

/-! ### Fork -/

theorem Drift.retains (h : Drift c c') : c.Retains c' p W := .of_eq (h.space p) h.vm

/-- `fork` from the trap on. -/
theorem fork_retains_wp (hI : (Env.interrupts.discipline L S).Inv L s)
    (h : TrapOk L S .usertrap s) (hf : s.CallsFork p) :
    (Env.interrupts.discipline L S).wp L (usertrap L) (fun a t => (∃ v, a = .sysret p v) ∧
      t.core.cproc = some p ∧ (s.core.called p s.hart.sepc).Retains t.core p ∅) s := by
  refine usertrap_wp_of (N := .interrupts) (fun _ => id) hI h ?_ fun hno => absurd hf.scause hno
  intro _ q t c hq' hregs hd hcalling _
  obtain rfl : q = p := Option.some.inj (hq'.symm.trans hf.cproc)
  refine (syscall_fork_runs hcalling ?_).mono ?_
  · rw [Trap.number, ← hregs]
    exact hf.number
  · rintro a μ c' ⟨-, v, c₁, rfl, hd₁, hcalling₁, hk, -⟩ u - rfl
    have hlive : (c₁.procs q).state ≠ .unused := by
      simp [hcalling₁.good.state_running hcalling₁.working.cproc]
    have hdrift : Drift (s.core.called q s.hart.sepc) c₁ := Drift.trans hd hd₁
    exact ⟨⟨_, rfl⟩, hk.working.cproc, hdrift.retains.trans (hk.spares.retains id hlive)⟩

/-! ### Legs -/

/-- A program of the kernel on the machine. -/
theorem segment_leads {x : KernelM Label} {Q : Label → K → Prop} (hx : Leads L x Q s)
    (hstable : ∀ a u v, Q a u → Meddles L u v → Q a v)
    (hrun : Relation.ReflTransGen (kernel L).segment.Micro ⟨s, x, []⟩ ⟨t, .ret b, []⟩) : Q b t :=
  System.segment_guarantees_enabled (M := kernel L) (H := fun s t => Passive s.core t.core)
    Passive.trans (fun irq s => Passive.tolerant.irqDevices irq _ s.core)
    (fun s => Passive.refl s.core)
    (fun _ => (Passive.tolerant.kernelvec L).within) hstable hx.guarantees hrun

theorem Reachable.holds (hs : Reachable L image fails ⟨s, .ret a, []⟩) (ha : ¬a.IsScheduler)
    (hp : s.core.cproc = some p) : ∃ kpt, (Env.interrupts.discipline L
      (bootSite image fails kpt)).Inv L s ∧ Pre L (bootSite image fails kpt)
        (Env.interrupts.discipline L (bootSite image fails kpt)) a s ∧
      Holds L (bootSite image fails kpt) p W s.core s.core := by
  obtain ⟨kpt, hI, hpre⟩ := hs.pre
  obtain ⟨hst, hctx⟩ := hs.engaged ha p hp
  obtain ⟨cp, hg, -, -⟩ := hpre.good hI
  exact ⟨kpt, hI, hpre, hp, hctx, hst, hg.spaces, .refl _⟩

/-- **The programs at the labels of a process** in the kernel. -/
theorem kernelCode_leads {x : KernelM Label} (hcode : kernelCode L a = some x)
    (hpre : Pre L S (Env.interrupts.discipline L S) a s) (h : Holds L S p W c₀ s.core)
    (ha : a.Serves p W) : Leads L x (Leaves p W c₀) s := by
  cases a with
  | sleepBack q ia k =>
    obtain ⟨rfl, hk⟩ := ha
    cases hcode
    refine Passive.coarse.modHart.leads_bind fun _ t ht => (Passive.coarse.release _).leads_bind
      fun _ u hu => (Passive.coarse.observeBack q).leads_bind fun _ v hv => leads_pure ?_
    exact (h.passive ((ht.trans hu).trans hv)).leaves (a := .awake q k) ⟨rfl, hk⟩
  | awake q k =>
    obtain ⟨rfl, hk⟩ := ha
    cases hcode
    cases k with
    | kwait addr =>
      exact (Passive.coarse.acquire _).leads_bind fun _ t ht => leads_pure
        ((h.passive ht).leaves (a := .kwait q addr) ⟨rfl, hk⟩)
    | consoleread dst n target =>
      exact (Passive.coarse.acquire _).leads_bind fun _ t ht => leads_pure
        ((h.passive ht).leaves (a := .consolereadWait q dst n target) ⟨rfl, hk⟩)
    | usertrap => exact leads_pure (h.leaves rfl)
  | kwait q addr =>
    obtain ⟨rfl, hW⟩ := ha
    cases hcode
    exact leads_kwaitRound h hW
  | consoleread q dst n target =>
    obtain ⟨rfl, hW⟩ := ha
    cases hcode
    exact leads_consolereadRound h hW
  | consolereadWait q dst n target =>
    obtain ⟨rfl, hW⟩ := ha
    cases hcode
    obtain ⟨h₀, μ, -, -, -, -, -, -, hn, -⟩ | htrap := hpre
    · exact leads_consolereadWaitRound h hn hW
    · exact absurd htrap id
  | consolewrite q src n i =>
    obtain rfl := ha
    cases hcode
    exact leads_consolewriteRound h
  | sysret q v =>
    obtain rfl := ha
    cases hcode
    exact leads_syscallReturn v h
  | usertrapTail q =>
    obtain rfl := ha
    cases hcode
    exact leads_usertrapTail h
  | userret satp =>
    cases hcode
    exact leads_userretCode satp h
  | user => cases hcode
  | _ => exact absurd ha id

/-- The process has not terminated and is not in user mode. -/
structure K.InKernel (p : Slot) (s : K) : Prop where
  alive : (s.core.procs p).state ≠ .zombie
  supervisor : s.core.cproc = some p → s.hart.supervisor = true

/-- In user mode the hart is not in supervisor mode. -/
theorem K.InKernel.not_user (h : s.InKernel p) (hs : Reachable L image fails ⟨s, .ret .user, []⟩)
    (hp : s.core.cproc = some p) : False := by
  obtain ⟨kpt, -, ⟨_, _, -, -, hno⟩ | ⟨-, hsup, -⟩⟩ := hs.pre
  · exact hno
  · simp [h.supervisor hp] at hsup

/-- The kernel works for the process, or the process waits for its turn; on its behalf the kernel is
going to store to addresses in `W` only. -/
def Tracks (p : Slot) (W : Set ℕ) (a : Label) (s : K) : Prop :=
  s.core.cproc = some p ∧ Continues p W a s ∨
    s.core.cproc ≠ some p ∧ (s.core.procs p).Suspended ∧
      ∃ b, (s.core.procs p).context = some b ∧ b.Serves p W

theorem Leaves.tracks (h : Leaves p W c₀ a s) : Tracks p W a s := .inl ⟨h.cproc, h.continues⟩

/-- The end of the switch to the scheduler. -/
theorem leads_schedulerBack (q : Slot) :
    Leads L (schedulerBack q) (fun _ t => t.core.cproc = none ∧ s.core.Retains t.core p W ∧
      (s.core.procs p).Undisturbed (t.core.procs p)) s := by
  refine .bind (leads_modCore fun t ht => (Passive.coarse.release _).leads_bind fun _ u hu =>
    leads_pure ⟨hu.steady.cproc, ?_, (ht.steady.slot p).trans (hu.steady.slot p)⟩)
  have hidle : t.core.Retains { t.core with cproc := none } p W := .of_eq rfl rfl
  exact (ht.retains.trans hidle).trans hu.retains

theorem Label.not_isScheduler_of_serves (h : a.Serves p W) : ¬a.IsScheduler := by
  cases a with
  | scheduler => exact absurd h id
  | schedulerScan i found => exact absurd h id
  | schedulerBack q => exact absurd h id
  | _ => exact id

/-- **A leg** while the kernel works for a process, or while the process waits. -/
theorem Tracks.leg (h : Tracks p W a s) (hs : Reachable L image fails ⟨s, .ret a, []⟩)
    (hin : s.InKernel p) (hleg : (kernel L).Leg (a, s) (b, t)) :
    s.core.Retains t.core p W ∧ Tracks p W b t := by
  have hstable : ∀ a u v, Leaves p W s.core a u → Meddles L u v → Leaves p W s.core a v :=
    fun _ _ _ hu huv => hu.passive (Meddles.passive huv)
  rcases h with ⟨hp, hc⟩ | ⟨haway, hsusp, a', hctx, hserves⟩
  · cases hleg with
    | run hx hrun =>
      rcases hx with rfl | hx
      · -- only interrupts are handled
        have hend := segment_leads (leads_pure ⟨hp, .refl _, hc⟩) hstable hrun
        exact ⟨hend.retains, hend.tracks⟩
      by_cases hback : ∃ q, a = .schedulerBack q
      · obtain ⟨q, rfl⟩ := hback
        cases hx
        obtain ⟨-, hz | ⟨hsusp, a', hctx, hserves⟩⟩ := hc
        · exact absurd hz hin.alive
        obtain ⟨hidle, hretains, hu⟩ := segment_leads (leads_schedulerBack (p := p) (W := W) q)
          (fun _ u v hu huv => ⟨(Meddles.passive huv).steady.cproc.trans hu.1,
            hu.2.1.trans (Meddles.passive huv).retains,
            hu.2.2.trans ((Meddles.passive huv).steady.slot p)⟩) hrun
        exact ⟨hretains, .inr ⟨by simp [hidle], hu.suspended hsusp, a', hu.context.trans hctx,
          hserves⟩⟩
      · have ha : a.Serves p W := by
          cases a with
          | schedulerBack q => exact absurd ⟨q, rfl⟩ hback
          | _ => exact hc
        obtain ⟨kpt, -, hpre, hholds⟩ := hs.holds (W := W) (Label.not_isScheduler_of_serves ha) hp
        have hend := segment_leads (kernelCode_leads hx hpre hholds ha) hstable hrun
        exact ⟨hend.retains, hend.tracks⟩
    | env h =>
      cases h with
      | compute regs pc hm => exact (hin.not_user hs hp).elim
      | trap hi scause stval irq => exact (hin.not_user hs hp).elim
  · have hnext := leg_resumes hs hleg haway hsusp
    have hlive : (s.core.procs p).state ≠ .unused := by
      rcases hsusp with h | h <;> simp [h]
    refine ⟨hnext.spares.retains (by simp) hlive, ?_⟩
    rcases hnext.next with ⟨haway', hu⟩ | ⟨hp', -, hctx'⟩
    · exact .inr ⟨haway', hu.suspended hsusp, a', hu.context.trans hctx, hserves⟩
    · obtain rfl : a' = b := Option.some.inj (hctx.symm.trans hctx')
      exact .inl ⟨hp', hserves.continues⟩

/-! ### From the trap to the return -/

section Trap

variable {x : Trap}

theorem Trap.Effect.retains (h : x.Effect L image p c₀ c) (hc : c.Retains c' p x.window) :
    x.Effect L image p c₀ c' := by
  rcases h with h | ⟨hexec, c₁, c₂, path, start, size, h₁, hprog, hload, h₂⟩
  · exact .inl (h.trans hc)
  · rw [hexec.window_eq] at hc
    exact .inr ⟨hexec, c₁, c₂, path, start, size, h₁, hprog, hload, h₂.trans hc⟩

theorem Trap.Effect.of_retains (hc : c₀.Retains c p ∅) (h : x.Effect L image p c c') :
    x.Effect L image p c₀ c' := by
  rcases h with h | ⟨hexec, c₁, c₂, path, start, size, h₁, hprog, hload, h₂⟩
  · exact .inl ((hc.mono (Set.empty_subset _)).trans h)
  · exact .inr ⟨hexec, c₁, c₂, path, start, size, hc.trans h₁, hprog, hload, h₂⟩

theorem Answered.passive (h : Answered L image x p c₀ a s) (hs : Passive s.core t.core) :
    Answered L image x p c₀ a t := by
  have hleaves : Leaves p x.window s.core a s := ⟨h.cproc, .refl _, h.continues⟩
  have ht := hleaves.passive hs
  exact ⟨ht.cproc, h.effect.retains ht.retains, ht.continues⟩

/-- The kernel is busy with the trap `x` of the process, which had `c₀`: it saves the registers or
has just done so, or it is past that. -/
inductive Handles (L : Layout) (image : Mem) (x : Trap) (p : Slot) (c₀ : Core) (a : Label) (s : K) :
    Prop
  | entered (ha : a = .vector ∨ a = .usertrap) (hp : s.core.cproc = some p)
      (hx : (s.core.hist p).trap = some x) (h : c₀.Retains s.core p ∅)
  | serving (heffect : x.Effect L image p c₀ s.core) (h : Tracks p x.window a s)

/-- `uservec`, as a leg. -/
theorem Handles.vector (hs : Reachable L image fails ⟨s, .ret .vector, []⟩)
    (hp : s.core.cproc = some p) (hx : (s.core.hist p).trap = some x) (h : c₀.Retains s.core p ∅)
    (hrun : Relation.ReflTransGen (kernel L).segment.Micro ⟨s, vector L, []⟩ ⟨t, .ret b, []⟩) :
    Handles L image x p c₀ b t := by
  obtain ⟨kpt, hI, hpre, hholds⟩ := hs.holds (W := ∅) id hp
  obtain ⟨_, _, -, -, hno⟩ | htrap := hpre
  · exact absurd hno id
  obtain ⟨rfl, -, m, hm, hcore⟩ := segment_leads (leads_vector (hI.2 htrap.1.noff) htrap hp)
    (fun _ u v hu huv => by rwa [Meddles.eq_of_masked huv hu.2.1]) hrun
  have hend := hholds.setFrame hm
  rw [← hcore] at hend
  refine .entered (.inr rfl) hend.cproc ?_ (h.trans hend.retains)
  rw [hcore]
  exact hx

/-- `usertrap`, as a leg. -/
theorem Handles.usertrap (hs : Reachable L image fails ⟨s, .ret .usertrap, []⟩)
    (hp : s.core.cproc = some p) (hx : (s.core.hist p).trap = some x) (h : c₀.Retains s.core p ∅)
    (hrun : Relation.ReflTransGen (kernel L).segment.Micro ⟨s, OsKernel.usertrap L, []⟩
      ⟨t, .ret b, []⟩) :
    Handles L image x p c₀ b t := by
  obtain ⟨kpt, hI, hpre, hholds⟩ := hs.holds (W := x.window) id hp
  obtain ⟨_, _, -, -, hno⟩ | htrap := hpre
  · exact absurd hno id
  by_cases hfork : x.IsCall ∧ x.number = 1
  · obtain ⟨-, q, x', hready, htrapped, -, -, hregs, hx', -⟩ := id htrap
    obtain rfl : q = p := Option.some.inj (hready.cproc.symm.trans hp)
    obtain rfl : x' = x := Option.some.inj (hx'.symm.trans hx)
    have hcalls : s.CallsFork q := by
      refine ⟨hp, htrapped.scause.trans hfork.1, ?_⟩
      rw [hregs]
      exact hfork.2
    obtain ⟨⟨v, rfl⟩, hq, hretains⟩ := segment_ends (fork_retains_wp hI htrap hcalls)
      (fun a u v hu huv => ⟨hu.1, huv.after.drift.cproc.trans hu.2.1,
        hu.2.2.trans huv.after.drift.retains⟩) hrun
    have hcalled := (hholds.tfStore (k := tfEpc) (by decide) s.hart.sepc).tfStore (k := tfEpc)
      (by decide) (s.hart.sepc + 4)
    exact .serving (.of_retains h (.inl (hcalled.retains.trans
      (hretains.mono (Set.empty_subset _))))) (.inl ⟨hq, rfl⟩)
  · have hend := segment_leads (leads_usertrap htrap hholds hx hfork)
      (fun _ u v hu huv => hu.passive (Meddles.passive huv)) hrun
    exact .serving (.of_retains h hend.effect) (.inl ⟨hend.cproc, hend.continues⟩)

/-- **A leg** of the work on a trap. -/
theorem Handles.leg (h : Handles L image x p c₀ a s) (hs : Reachable L image fails ⟨s, .ret a, []⟩)
    (hin : s.InKernel p) (hleg : (kernel L).Leg (a, s) (b, t)) : Handles L image x p c₀ b t := by
  rcases h with ⟨ha, hp, hx, h⟩ | ⟨heffect, h⟩
  · cases hleg with
    | run hcode hrun =>
      rcases hcode with rfl | hcode
      · -- interrupts are disabled
        have hsie : s.hart.sie = false := by
          obtain ⟨kpt, -, ⟨_, _, -, -, hno⟩ | htrap⟩ := hs.pre
          · rcases ha with rfl | rfl <;> exact absurd hno id
          · rcases ha with rfl | rfl
            · obtain ⟨-, q, y, -, htrapped, -⟩ := htrap
              exact htrapped.sie
            · obtain ⟨-, q, y, -, htrapped, -⟩ := htrap
              exact htrapped.sie
        obtain ⟨rfl, rfl⟩ := segment_leads (Q := fun b u => b = a ∧ u = s)
          (leads_pure ⟨rfl, rfl⟩)
          (fun _ u v hu huv => ⟨hu.1, (Meddles.eq_of_masked huv (hu.2 ▸ hsie)).trans hu.2⟩) hrun
        exact .entered ha hp hx h
      · rcases ha with rfl | rfl
        · cases hcode
          exact .vector hs hp hx h hrun
        · cases hcode
          exact .usertrap hs hp hx h hrun
    | env henv =>
      rcases ha with rfl | rfl <;> cases henv
  · obtain ⟨hretains, hnext⟩ := h.leg hs hin hleg
    exact .serving (heffect.retains hretains) hnext

/-- **A run** of the work on a trap. -/
theorem Handles.run (h : Handles L image x p c₀ a s) (hs : Reachable L image fails ⟨s, .ret a, []⟩)
    (hrun : Relation.ReflTransGen ((kernel L).LegFrom (K.InKernel p)) (a, s) (b, t)) :
    Handles L image x p c₀ b t := by
  suffices hall : ∀ d, Relation.ReflTransGen ((kernel L).LegFrom (K.InKernel p)) (a, s) d →
      Handles L image x p c₀ d.1 d.2 ∧ Reachable L image fails ⟨d.2, .ret d.1, []⟩ from
    (hall _ hrun).1
  intro d hrun
  induction hrun with
  | refl => exact ⟨h, hs⟩
  | tail _ hleg ih => exact ⟨ih.1.leg ih.2 hleg.2 hleg.1, ih.2.step hleg.1.micro⟩

/-- The memory of the process, wherever the kernel is. -/
theorem Handles.effect (h : Handles L image x p c₀ a s) : x.Effect L image p c₀ s.core := by
  cases h with
  | entered ha hp hx h => exact .inl (h.mono (Set.empty_subset _))
  | serving heffect h => exact heffect

/-- **Traps are transparent.** From the moment a process leaves user mode, at a call, a fault or an
interrupt, to the moment it is back, whatever other processes do meanwhile, it has the memory it
had: the mappings are those before, and every byte is what it was but in the buffer of a read and
the status of a wait, unless the trap is a call of exec that has replaced the image. -/
theorem trap_transparent (hr : Reachable L image fails ⟨r, .ret .user, []⟩)
    (hp : r.core.cproc = some p) (htrap : UserStep (.user, r) (.vector, s))
    (hrun : Relation.ReflTransGen ((kernel L).LegFrom (K.InKernel p)) (.vector, s) (b, t)) :
    (Trap.mk r.hart.regs r.hart.pc s.hart.scause).Effect L image p r.core t.core := by
  have hs := hr.step (.single (.env htrap))
  cases htrap with
  | @trap _ i hi scause stval irq =>
    obtain rfl : i = p := Option.some.inj (hi.symm.trans hp)
    have hlogged : (history (.trap i r.hart.regs r.hart.pc scause :: r.core.log) i).trap =
        some ⟨r.hart.regs, r.hart.pc, scause⟩ :=
      congrArg History.trap (Function.update_self i _ (history r.core.log))
    obtain ⟨claim, rx, input, hdevices⟩ := irq.devices_eq scause
      (r.core.emit (.trap i r.hart.regs r.hart.pc scause))
    rw [hdevices] at hs hrun
    have henter : Handles L image ⟨r.hart.regs, r.hart.pc, scause⟩ i r.core .vector
        ⟨{ r.core.emit (.trap i r.hart.regs r.hart.pc scause) with
          claim := claim, rx := rx, input := input }, r.hart.trap scause stval⟩ :=
      .entered (.inl rfl) hi hlogged (.of_eq rfl rfl)
    exact (henter.run hs hrun).effect

end Trap

/-! ### A trap that returns -/

/-- At the labels of a process in the kernel, the hart is in supervisor mode. -/
theorem Reachable.inKernel (hs : Reachable L image fails ⟨s, .ret a, []⟩) (ha : ¬a.IsScheduler)
    (huser : a ≠ .user) (hp : s.core.cproc = some p) : s.InKernel p := by
  refine ⟨by simp [(hs.engaged ha p hp).1], fun _ => ?_⟩
  obtain ⟨kpt, -, ⟨h₀, μ, hkern, hat, -⟩ | htrap⟩ := hs.pre
  · cases μ with
    | unlocked b => exact hat.frame.supervisor.trans hkern.supervisor
    | locked ls b => exact hat.frame.supervisor.trans hkern.supervisor
  · cases a with
    | userret satp => exact htrap.2.1
    | user => exact absurd rfl huser
    | vector =>
      obtain ⟨-, _, _, -, htrapped, -⟩ := htrap
      exact htrapped.supervisor
    | usertrap =>
      obtain ⟨-, _, _, -, htrapped, -⟩ := htrap
      exact htrapped.supervisor
    | _ => exact absurd htrap id

/-- A leg of a process in the kernel that nothing interrupts. -/
theorem Reachable.leg_inKernel (hs : Reachable L image fails ⟨s, .ret a, []⟩)
    (ha : ¬a.IsScheduler) (huser : a ≠ .user) (hp : s.core.cproc = some p)
    (hnext : (kernel L).Next (a, s) (b, t)) : (kernel L).LegFrom (K.InKernel p) (a, s) (b, t) :=
  ⟨System.leg_of_next hnext, hs.inKernel ha huser hp⟩

/-- The way out of a system call. -/
theorem Reachable.legs_return {v : BitVec 64}
    (hs : Reachable L image fails ⟨s, .ret (.sysret p v), []⟩) (hp : s.core.cproc = some p) : ∃ t,
      Relation.ReflTransGen ((kernel L).LegFrom (K.InKernel p)) (.sysret p v, s) (.user, t) ∧
      t.core.procs = s.core.procs := by
  obtain ⟨s₁, s₂, t, satp, m, regs, pc, hnext₁, hp₁, hnext₂, hp₂, hnext₃, hcore⟩ :=
    hs.next_returns
  have hs₁ := hs.next hnext₁
  refine ⟨t, .head (hs.leg_inKernel id (by simp) hp hnext₁) ?_, by rw [hcore]; rfl⟩
  refine .head (hs₁.leg_inKernel id (by simp) hp₁ hnext₂) ?_
  exact .single ((hs₁.next hnext₂).leg_inKernel id (by simp) hp₂ hnext₃)

/-- A process with memory calls `fork` and is back, with a child. -/
theorem trap_transparent_virt : ∃ (r s t : K) (i : Slot) (q : ℕ),
    Reachable .virt shImage (fun _ => false) ⟨r, .ret .user, []⟩ ∧ r.core.cproc = some 0 ∧
    r.core.MapsUser 0 0 q ∧ UserStep (.user, r) (.vector, s) ∧
    Relation.ReflTransGen ((kernel .virt).LegFrom (K.InKernel 0)) (.vector, s) (.user, t) ∧
    (r.core.procs i).state = .unused ∧ (t.core.procs i).state = .runnable ∧
    (Trap.mk r.hart.regs r.hart.pc s.hart.scause).Effect .virt shImage 0 r.core t.core := by
  obtain ⟨s₀, hs₀, hsingle, hroom⟩ := exists_single_virt
  obtain ⟨r, s, hcompute, hstep, hcorer, -, -, hcore, hcause⟩ :=
    exists_trap s₀ hsingle.cproc (Sysno.fork.regs 0 0 0)
  rw [← hcorer] at hsingle hroom hcore
  have hr := hs₀.step (.single (.env hcompute))
  have hs := hr.step (.single (.env hstep))
  have hps : s.core.cproc = some 0 := by
    rw [hcore]
    exact hsingle.cproc
  -- the way in
  obtain ⟨s₁, m, hnext₁, hcore₁, hcause₁, hregs⟩ := hs.next_vector hps
  have hs₁ := hs.next hnext₁
  have hf : s₁.CallsFork 0 := by
    refine ⟨by rw [hcore₁]; exact hps, hcause₁.trans hcause, ?_⟩
    rw [hregs ⟨Sysno.fork.regs 0 0 0, 0, 8⟩ (by rw [hcore]; simp [Core.hist, Core.emit, observe])]
    rfl
  obtain ⟨kpt, hI, ⟨_, _, -, -, hno⟩ | htrap⟩ := hs₁.pre
  · exact absurd hno id
  have hrun := htrap.run_fork (Q := fun _ c' => c'.cproc = some 0 ∧ ∃ i,
    (r.core.procs i).state = .unused ∧ (c'.procs i).state = .runnable) hI hf ?_
  · obtain ⟨v, s₂, hrun, hp₂, i, hunused, hrunnable⟩ := hrun
    have hnext₂ : (kernel .virt).Next (.usertrap, s₁) (.sysret 0 (v.signExtend 64), s₂) :=
      ⟨_, rfl, hrun⟩
    obtain ⟨t, hreturn, hprocs⟩ := (hs₁.next hnext₂).legs_return hp₂
    have hlegs : Relation.ReflTransGen ((kernel .virt).LegFrom (K.InKernel 0)) (.vector, s)
        (.user, t) := by
      refine .head (hs.leg_inKernel id (by simp) hps hnext₁) ?_
      exact .head (hs₁.leg_inKernel id (by simp) hf.cproc hnext₂) hreturn
    have hlive : (r.core.procs 0).state ≠ .unused := by
      rw [hsingle.running]
      decide
    have hsize : 0 * 4096 < (r.core.procs 0).sz := by
      rw [hsingle.size]
      decide
    obtain ⟨q, hq⟩ := hr.exists_mapsUser (.inr ⟨.user, rfl, rfl⟩) hlive hsize
    rw [← hprocs] at hrunnable
    exact ⟨r, s, t, i, q, hr, hsingle.cproc, hq, hstep, hlegs, hunused, hrunnable,
      trap_transparent hr hsingle.cproc hstep hlegs⟩
  · intro x h₀ m' hcalling
    have hcore' : s₁.core.setMem m' =
        (r.core.emit (.trap 0 (Sysno.fork.regs 0 0 0) 0 8)).setMem m' := by
      rw [hcore₁, hcore]
      rfl
    rw [hcore'] at hcalling ⊢
    refine (Solo.kfork hcalling.good hcalling.working ⟨1, hsingle.others 1 (by decide)⟩
      ⟨hroom.1, hroom.2⟩).mono ?_
    rintro _ _ _ ⟨-, i, w, child, hi, hchild, rfl⟩
    have hself : Function.update r.core.procs i child i = child := Function.update_self ..
    exact ⟨hsingle.cproc, i, hi, (congrArg Proc.state hself).trans hchild.state⟩

end OsKernel
