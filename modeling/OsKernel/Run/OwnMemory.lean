import OsKernel.Run.Exec
import OsKernel.Run.Isolation

/-!
# What the kernel does to the memory of the process it works for

Isolation is about the other processes. The process that makes a system call has its own memory
changed by it, at addresses it has passed to the kernel and nowhere else. `Core.Retains` says that
outside a set of addresses the process has what it had, in terms of its page table, so that it
composes without mention of physical pages. Of most code it is enough to know that it is `Passive`;
`Leads` is for the rest: what a program leaves in the end, whatever handlers do in between.

`Label.Serves` says, for each label at which a process can be or to which it can return, which
addresses the code from there on still stores to. Each program leads from a label that serves to one
that does; these are the lemmas `leads_sleep`, `leads_kwaitRound`, `leads_consolereadWaitRound` and
so on.
-/

namespace OsKernel

variable {L : Layout} {S : Site} {c c₀ c' c'' : Core} {s t : K} {p i : Slot} {W W' : Set ℕ}
  {α β : Type}

/-! ### What a process keeps -/

/-- The process in slot `j` has its page table and all translations, its size and its trapframe, and
outside of `W` the memory it had. -/
structure Core.Retains (c c' : Core) (j : Slot) (W : Set ℕ) : Prop where
  space : (c'.procs j).space = (c.procs j).space
  entry : ∀ w, w < 2 ^ 27 → c'.vm.mem.entry (c.procs j).pagetable w =
    c.vm.mem.entry (c.procs j).pagetable w
  byte : ∀ va, va ∉ W → c.vm.mem.Readable (c.procs j).pagetable va →
    c'.userByte j va = c.userByte j va

namespace Core.Retains

theorem pagetable (h : c.Retains c' p W) : (c'.procs p).pagetable = (c.procs p).pagetable :=
  congrArg Space.pagetable h.space

theorem mono (h : c.Retains c' p W) (hW : W ⊆ W') : c.Retains c' p W' :=
  ⟨h.space, h.entry, fun va hva => h.byte va fun hin => hva (hW hin)⟩

/-- The translations are those of the process before. -/
theorem readable (h : c.Retains c' p W) {va : ℕ}
    (hva : c.vm.mem.Readable (c.procs p).pagetable va) :
    c'.vm.mem.Readable (c'.procs p).pagetable va := by
  refine ⟨hva.1, ?_⟩
  rw [h.pagetable, h.entry _ (by have := hva.1; omega)]
  exact hva.2

theorem trans (h : c.Retains c' p W) (h' : c'.Retains c'' p W) : c.Retains c'' p W where
  space := h'.space.trans h.space
  entry w hw := by
    have hnext := h'.entry w hw
    rw [h.pagetable] at hnext
    exact hnext.trans (h.entry w hw)
  byte va hva hread := (h'.byte va hva (h.readable hread)).trans (h.byte va hva hread)

theorem of_sameSpace (hspace : (c'.procs p).space = (c.procs p).space)
    (hsame : SameSpace c.vm.mem c'.vm.mem (c.procs p).pagetable) : c.Retains c' p W := by
  refine ⟨hspace, hsame.entry, fun va _ hread => ?_⟩
  rw [Core.userByte, Core.userByte,
    show (c'.procs p).pagetable = (c.procs p).pagetable from congrArg Space.pagetable hspace,
    hsame.phys hread]
  exact hsame.byte va hread

theorem of_eq (hspace : (c'.procs p).space = (c.procs p).space) (hvm : c'.vm = c.vm) :
    c.Retains c' p W :=
  of_sameSpace hspace (hvm ▸ .refl _ _)

theorem refl (c : Core) : c.Retains c p W := of_eq rfl rfl

end Core.Retains

theorem Spares.retains {X : Slot → Prop} (h : Spares X c c') (hp : ¬X p)
    (hlive : (c.procs p).state ≠ .unused) : c.Retains c' p W := by
  have hspace := h.space p _ hp (Core.spaces_of_ne hlive)
  refine .of_sameSpace ?_ (h.user p _ hp (Core.spaces_of_ne hlive))
  rw [Core.spaces] at hspace
  split_ifs at hspace
  exact Option.some.inj hspace

/-! ### What goes on besides -/

/-- Sleepers are woken, and memory stays. -/
structure Passive (c c' : Core) : Prop where
  steady : Steady c c'
  vm : c'.vm = c.vm
  space : ∀ i, (c'.procs i).space = (c.procs i).space

namespace Passive

theorem trans (h : Passive c c') (h' : Passive c' c'') : Passive c c'' :=
  ⟨h.steady.trans h'.steady, h'.vm.trans h.vm, fun i => (h'.space i).trans (h.space i)⟩

theorem of_eq (hcproc : c'.cproc = c.cproc) (hctx : c'.ccontext = c.ccontext)
    (hprocs : c'.procs = c.procs) (hvm : c'.vm = c.vm) : Passive c c' :=
  ⟨.of_eq hcproc hctx hprocs, hvm, fun i => by rw [hprocs]⟩

theorem setProc (c : Core) (i : Slot) {g : Proc → Proc}
    (h : (c.procs i).Undisturbed (g (c.procs i)))
    (hspace : (g (c.procs i)).space = (c.procs i).space) : Passive c (c.setProc i g) :=
  ⟨.setProc c i h, rfl, Core.forall_setProc (P := fun j pr => pr.space = (c.procs j).space) hspace
    fun _ _ => rfl⟩

theorem emit (c : Core) (e : Event) : Passive c (c.emit e) := .of_eq rfl rfl rfl rfl

theorem coarse : Coarse (fun _ => True) Passive where
  trans := Passive.trans
  data h := .of_eq h.cproc h.ccontext h.procs h.vm
  plain _ := trivial
  emit c e _ := .emit c e
  echo _ _ := .of_eq rfl rfl rfl rfl
  proc c i _ h hspace _ := .setProc c i h hspace
  parent c i par _ := (Passive.setProc c i (g := fun pr => { pr with parent := par })
    ⟨rfl, .inl rfl⟩ rfl).trans (.emit _ _)

theorem tolerant : Tolerant (fun _ => True) Passive where
  toCoarse := Passive.coarse
  arrived _ := trivial
  devices _ _ _ _ := .of_eq rfl rfl rfl rfl

theorem modEmit {e : Core → Event} : Keeps Passive (modCore fun c => c.emit (e c)) :=
  Passive.coarse.modEmit fun _ => trivial

theorem refl (c : Core) : Passive c c := coarse.refl c

theorem spaces (h : Passive c c') : c'.spaces = c.spaces := by
  refine Core.spaces_congr fun i => ⟨?_, h.space i⟩
  exact ⟨fun hu => (h.steady.slot i).reflects hu (by decide),
    fun hu => h.steady.keeps hu (by decide)⟩

theorem retains (h : Passive c c') : c.Retains c' p W := .of_eq (h.space p) h.vm

end Passive

/-- What interrupts do to a program that runs in `s`. -/
abbrev Meddles (L : Layout) (s t : K) : Prop :=
  (kernel L).Interferes (fun s t => Passive s.core t.core) s t

theorem Meddles.passive (h : Meddles L s t) : Passive s.core t.core := by
  obtain rfl | ⟨-, h⟩ := h
  · exact .refl _
  · exact h

/-- With interrupts off nothing happens. -/
theorem Meddles.eq_of_masked (h : Meddles L s t) (hsie : s.hart.sie = false) : t = s := by
  obtain rfl | ⟨hen, -⟩ := h
  · rfl
  · exact absurd (hen.1.symm.trans hsie) (by decide)

/-! ### Programs -/

/-- Started in `s`, with interrupts where they are enabled, the program returns with `Q`. -/
structure Leads (L : Layout) (x : KernelM α) (Q : α → K → Prop) (s : K) : Prop where
  guarantees : x.Guarantees (Meddles L) (fun _ _ => True) Q s

section Leads

variable {x y : KernelM α} {f : α → KernelM β} {Q Q' : α → K → Prop} {P : β → K → Prop}

theorem Leads.mono (h : Leads L x Q s) (hQ : ∀ a t, Q a t → Q' a t) : Leads L x Q' s :=
  ⟨h.guarantees.mono hQ⟩

theorem Leads.bind (h : Leads L x (fun a t => Leads L (f a) P t) s) : Leads L (x >>= f) P s :=
  ⟨.bind (h.guarantees.mono fun _ _ h => h.guarantees)⟩

theorem leads_pure {a : α} (h : Q a s) : Leads L (pure a : KernelM α) Q s :=
  ⟨Prog.guarantees_pure h⟩

theorem leads_kpanic {e : Panic} : Leads L (kpanic e : KernelM α) Q s := ⟨Prog.guarantees_panic⟩

theorem leads_ite {q : Prop} {_ : Decidable q} (hx : q → Leads L x Q s) (hy : ¬q → Leads L y Q s) :
    Leads L (if q then x else y) Q s :=
  ⟨Prog.guarantees_ite (fun h => (hx h).guarantees) fun h => (hy h).guarantees⟩

theorem Keeps.leads (hx : Keeps Passive x) (h : ∀ a t, Passive s.core t.core → Q a t) :
    Leads L x Q s :=
  ⟨hx.within.guarantees_of (fun s => Passive.refl s.core) Passive.trans
    (fun _ _ h => Meddles.passive h) (fun _ _ _ => trivial) h⟩

theorem Keeps.leads_bind (hx : Keeps Passive x)
    (hf : ∀ a t, Passive s.core t.core → Leads L (f a) P t) : Leads L (x >>= f) P s :=
  .bind (hx.leads hf)

theorem leads_getCore {g : Core → α} (h : ∀ t, Passive s.core t.core → Q (g t.core) t) :
    Leads L (getCore g) Q s :=
  ⟨Prog.guarantees_read (fun _ => trivial) fun t ht => h t (Meddles.passive ht)⟩

theorem leads_modCore {g : Core → Core} {Q : Unit → K → Prop}
    (h : ∀ t : K, Passive s.core t.core → Q () { t with core := g t.core }) :
    Leads L (modCore g) Q s :=
  ⟨Prog.guarantees_update fun t ht => ⟨trivial, h t (Meddles.passive ht)⟩⟩

theorem leads_coreAtomic {y : CoreM α}
    (h : ∀ (t : K) a c', Passive s.core t.core → y t.core = .ok (a, c') →
      Q a { t with core := c' }) :
    Leads L (coreAtomic y) Q s := by
  refine ⟨Prog.guarantees_atomic (fun _ => trivial) fun t ht a u hx => ⟨trivial, ?_⟩⟩
  obtain ⟨c', hy, rfl⟩ := PanicM.zoom_eq_ok_iff.mp hx
  exact h t a c' (Meddles.passive ht) hy

theorem leads_vm {y : VmM α} (h : ∀ (t : K) a v, Passive s.core t.core →
    y t.core.vm = .ok (a, v) → Q a { t with core := t.core.setVm v }) :
    Leads L (coreAtomic (liftVm y)) Q s := by
  refine leads_coreAtomic fun t a c' ht hy => ?_
  obtain ⟨v, hv, rfl⟩ := PanicM.zoom_eq_ok_iff.mp hy
  exact h t a v ht hv

theorem leads_myproc {Q : Option Slot → K → Prop}
    (h : ∀ t, Passive s.core t.core → Q s.core.cproc t) : Leads L myproc Q s := by
  refine Passive.coarse.pushOff.leads_bind fun _ t ht => .bind (leads_getCore fun u hu => ?_)
  have hcproc : u.core.cproc = s.core.cproc := (ht.trans hu).steady.cproc
  rw [hcproc]
  exact Passive.coarse.popOff.leads_bind fun _ v hv => leads_pure (h v ((ht.trans hu).trans hv))

theorem leads_myproc_bind {k : Slot → KernelM α} (hp : s.core.cproc = some p)
    (h : ∀ t, Passive s.core t.core → Leads L (k p) Q t) : Leads L (do
      let p ← myproc
      let p ← deref p
      k p) Q s := by
  refine .bind (leads_myproc fun t ht => ?_)
  rw [hp]
  exact .bind (leads_pure (h t ht))

end Leads

/-! ### The process that the kernel works for -/

/-- The process `p` runs on memory that is in order, and outside of `W` its own is as in `c₀`. -/
structure Holds (L : Layout) (S : Site) (p : Slot) (W : Set ℕ) (c₀ c : Core) : Prop where
  cproc : c.cproc = some p
  ccontext : c.ccontext = some (.schedulerBack p)
  running : (c.procs p).state = .running
  spaces : ∃ o, Spaces L S.image S.kpt c.vm c.spaces o noRole
  retains : c₀.Retains c p W

namespace Holds

theorem passive (h : Holds L S p W c₀ c) (hc : Passive c c') : Holds L S p W c₀ c' where
  cproc := hc.steady.cproc.trans h.cproc
  ccontext := hc.steady.ccontext.trans h.ccontext
  running := hc.steady.keeps h.running (by decide)
  spaces := by
    rw [hc.vm, hc.spaces]
    exact h.spaces
  retains := h.retains.trans hc.retains

theorem space (h : Holds L S p W c₀ c) : c.spaces p = some (c.procs p).space :=
  Core.spaces_of_ne (by simp [h.running])

/-- An operation on memory. -/
theorem setVm {v : Vm} (h : Holds L S p W c₀ c)
    (hsp : ∃ o, Spaces L S.image S.kpt v c.spaces o noRole) (hr : c.Retains (c.setVm v) p W) :
    Holds L S p W c₀ (c.setVm v) :=
  ⟨h.cproc, h.ccontext, h.running, hsp, h.retains.trans hr⟩

/-- An assignment to the trapframe. -/
theorem setFrame {m : Mem} (h : Holds L S p W c₀ c)
    (hm : ∀ a, a / 4096 * 4096 ≠ (c.procs p).trapframe → m a = c.vm.mem a) :
    Holds L S p W c₀ (c.setMem m) := by
  obtain ⟨o, hsp⟩ := h.spaces
  obtain ⟨hsp', -, hsame⟩ := hsp.frameWrite h.space hm
  exact h.setVm ⟨o, hsp'⟩ (.of_sameSpace rfl (hsame _ (hsp.owned p _ h.space).root))

theorem tfStore {k : ℕ} (h : Holds L S p W c₀ c) (hk : k + 8 ≤ 4096) (v : BitVec 64) :
    Holds L S p W c₀ (c.tfStore p k v) := by
  obtain ⟨o, hsp⟩ := h.spaces
  exact h.setFrame fun _ ha => Mem.store64_of_page_ne (hsp.trapframe_lt h.space).1 hk ha

/-- `copyout` to addresses in `W`. -/
theorem copyout {dst : ℕ} {bytes : List UInt8} {ok : Bool} {v : Vm} (h : Holds L S p W c₀ c)
    (hW : ∀ k, k < bytes.length → c.vm.mem.Readable (c.procs p).pagetable (dst + k) → dst + k ∈ W)
    (hx : Vm.copyout L (c.procs p).pagetable dst (.buffer bytes) bytes.length c.vm = .ok (ok, v)) :
    Holds L S p W c₀ (c.setVm v) := by
  obtain ⟨o, hsp⟩ := h.spaces
  have hroot := (hsp.owned p _ h.space).root
  obtain ⟨ok', v', hx', m', n, rfl, hc⟩ :=
    copyout_spec (L := L) hsp.inv hroot (.buffer bytes) dst bytes.length
  obtain ⟨rfl, rfl⟩ := Prod.mk.inj (Except.ok.inj (hx.symm.trans hx'))
  have hwrite := hc.userWrite hsp.inv.tables hroot
  obtain ⟨hsp', -, -⟩ := hsp.procWrite h.space hwrite
  obtain ⟨-, -, hentry⟩ := hsp.inv.userWrite hwrite
  refine h.setVm ⟨o, hsp'⟩ ⟨rfl, fun w hw => hentry _ w hroot hw, fun va hva hread => ?_⟩
  have hphys : m'.phys (c.procs p).pagetable va = c.vm.mem.phys (c.procs p).pagetable va :=
    congrArg (pte2pa · + va % 4096) (hentry _ _ hroot (by have := hread.1; omega))
  show m' (m'.phys (c.procs p).pagetable va) = _
  rw [hphys]
  refine hc.frame _ fun k hk heq => hva ?_
  have hdst := (hc.writable k hk).1
  rw [Mem.Readable.phys_inj hsp.inv.tables hroot hread hdst heq]
  exact hW k (hk.trans_le hc.le) hdst

/-- A child is freed. -/
theorem freeproc {u : Unit} (h : Holds L S p W c₀ c) (hi : (c.procs i).state = .zombie)
    (hx : freeproc L i c = .ok (u, c')) : Holds L S p W c₀ c' := by
  have hip : i ≠ p := by
    rintro rfl
    simp [h.running] at hi
  obtain ⟨o, hsp⟩ := h.spaces
  obtain ⟨u', c'', hx', v, ⟨hkept, o', hsp'⟩, rfl⟩ := freeproc_returns (hsp.freeMemory
    (Core.spaces_of_ne (c := c) (by rw [hi]; decide)))
  obtain ⟨-, rfl⟩ := Prod.mk.inj (Except.ok.inj (hx.symm.trans hx'))
  have hself : (c.freed i v).procs p = c.procs p := c.freed_ne v hip.symm
  have hspaces : (c.freed i v).spaces = Function.update c.spaces i none := by
    funext j
    by_cases hj : j = i
    · subst hj
      rw [Function.update_self]
      exact Core.spaces_of_unused (congrArg Proc.state (c.freed_self j v))
    · rw [Function.update_of_ne hj, Core.spaces, Core.spaces, c.freed_ne v hj]
  refine ⟨h.cproc, h.ccontext, hself ▸ h.running, ⟨o', hspaces ▸ hsp'⟩, h.retains.trans ?_⟩
  refine .of_sameSpace (congrArg Proc.space hself) (hkept.space p (c.procs p).space ?_)
  rw [Function.update_of_ne hip.symm]
  exact h.space

/-- An assignment to data other than memory and the process table. -/
theorem data (h : Holds L S p W c₀ c) (hcproc : c'.cproc = c.cproc)
    (hctx : c'.ccontext = c.ccontext) (hprocs : c'.procs = c.procs) (hvm : c'.vm = c.vm) :
    Holds L S p W c₀ c' := h.passive (.of_eq hcproc hctx hprocs hvm)

end Holds

/-! ### Where the kernel goes on -/

/-- The caller of `sleep` is going to store to addresses in `W` only. -/
def Resume.Serves (W : Set ℕ) : Resume → Prop
  | .kwait addr => addr ≠ 0 → ∀ k, k < 4 → addr + k ∈ W
  | .consoleread dst n _ => ∀ k, k < n.toInt.toNat → (dst + k) % wordSize ∈ W
  | .usertrap => True

/-- The label is one of `p` in the kernel, and from there on the kernel is going to store to
addresses in `W` only before `p` is in user mode. -/
def Label.Serves (p : Slot) (W : Set ℕ) : Label → Prop
  | .sleepBack q _ k | .awake q k => q = p ∧ k.Serves W
  | .kwait q addr => q = p ∧ (Resume.kwait addr).Serves W
  | .consoleread q dst n target | .consolereadWait q dst n target =>
      q = p ∧ (Resume.consoleread dst n target).Serves W
  | .consolewrite q _ _ _ | .sysret q _ | .usertrapTail q => q = p
  | .userret _ | .user => True
  | _ => False

/-- The kernel goes on at a label of `p`, or has switched away from `p`, which goes on at a label
of its own unless it has terminated. -/
def Continues (p : Slot) (W : Set ℕ) : Label → K → Prop
  | .schedulerBack q, t => q = p ∧ ((t.core.procs p).state = .zombie ∨
      (t.core.procs p).Suspended ∧ ∃ a, (t.core.procs p).context = some a ∧ a.Serves p W)
  | a, _ => a.Serves p W

theorem Label.Serves.continues {a : Label} (h : a.Serves p W) : Continues p W a t := by
  cases a with
  | schedulerBack q => exact absurd h id
  | _ => exact h

/-- How a piece of the kernel that works for `p` ends. -/
structure Leaves (p : Slot) (W : Set ℕ) (c₀ : Core) (a : Label) (t : K) : Prop where
  cproc : t.core.cproc = some p
  retains : c₀.Retains t.core p W
  continues : Continues p W a t

theorem Leaves.passive {a : Label} (h : Leaves p W c₀ a s) (hs : Passive s.core t.core) :
    Leaves p W c₀ a t := by
  refine ⟨hs.steady.cproc.trans h.cproc, h.retains.trans hs.retains, ?_⟩
  have hc := h.continues
  cases a with
  | schedulerBack q =>
    obtain ⟨hq, hz | ⟨hsusp, b, hb, hserves⟩⟩ := hc
    · exact ⟨hq, .inl (hs.steady.keeps hz (by decide))⟩
    · have hslot := hs.steady.slot p
      exact ⟨hq, .inr ⟨hslot.suspended hsusp, b, hslot.context.trans hb, hserves⟩⟩
  | _ => exact hc

theorem Holds.leaves {a : Label} (h : Holds L S p W c₀ s.core) (ha : a.Serves p W) :
    Leaves p W c₀ a s := ⟨h.cproc, h.retains, ha.continues⟩

/-! ### Sleeping and exiting -/

theorem leads_sched {back : Bool → Label} (hp : s.core.cproc = some p)
    (hctx : s.core.ccontext = some (.schedulerBack p)) (hr : c₀.Retains s.core p W)
    (hback : (s.core.procs p).state = .zombie ∨
      (s.core.procs p).Suspended ∧ ∀ i, (back i).Serves p W) :
    Leads L (sched back) (Leaves p W c₀) s := by
  refine leads_myproc_bind hp fun t ht => Passive.coarse.getHart.leads_bind fun _ u hu => ?_
  refine leads_ite (fun _ => leads_kpanic) fun _ => ?_
  refine Passive.coarse.getHart.leads_bind fun _ v hv => ?_
  refine leads_ite (fun _ => leads_kpanic) fun _ => ?_
  refine Passive.coarse.getCore.leads_bind fun _ w hw => ?_
  refine leads_ite (fun _ => leads_kpanic) fun _ => ?_
  refine Passive.coarse.getHart.leads_bind fun _ x hx => ?_
  refine leads_ite (fun _ => leads_kpanic) fun _ => ?_
  refine Passive.coarse.getHart.leads_bind fun intena y hy => ?_
  refine .bind (leads_modCore fun z hz => ?_)
  have hall : Passive s.core z.core :=
    (((((ht.trans hu).trans hv).trans hw).trans hx).trans hy).trans hz
  -- the context is saved, and `cpus[0].context` leads to the scheduler
  have hspace : ((z.core.setProc p fun pr => { pr with context := some (back intena) }).procs
      p).space = (z.core.procs p).space := by rw [Core.setProc_self]; rfl
  have hleaves : Leaves p W c₀ (.schedulerBack p)
      { z with core := z.core.setProc p fun pr => { pr with context := some (back intena) } } := by
    refine ⟨hall.steady.cproc.trans hp, (hr.trans hall.retains).trans (.of_eq hspace rfl), rfl, ?_⟩
    refine hback.imp (fun hz => ?_) fun hb => ⟨?_, back intena, ?_, hb.2 intena⟩
    · rw [Core.setProc_self]
      exact hall.steady.keeps hz (by decide)
    · rw [Core.setProc_self]
      exact (hall.steady.slot p).suspended hb.1
    · rw [Core.setProc_self]
  refine .bind (leads_getCore fun z' hz' => ?_)
  rw [show z'.core.ccontext = some (.schedulerBack p) from
    hz'.steady.ccontext.trans (hall.steady.ccontext.trans hctx)]
  exact leads_pure (hleaves.passive hz')

theorem leads_sleep {k : Resume} (h : Holds L S p W c₀ s.core) (hk : k.Serves W) :
    Leads L (sleep k) (Leaves p W c₀) s := by
  refine leads_myproc_bind h.cproc fun t ht => ?_
  refine (Passive.coarse.observePause p).leads_bind fun _ u hu => ?_
  refine (Passive.coarse.acquire _).leads_bind fun _ v hv => ?_
  refine Passive.coarse.getCore.leads_bind fun _ w hw => leads_ite (fun _ => ?_) fun _ => ?_
  · refine .bind (leads_modCore fun x hx => ?_)
    have hx' := h.passive ((((ht.trans hu).trans hv).trans hw).trans hx)
    refine leads_sched hx'.cproc hx'.ccontext (hx'.retains.trans (.of_eq ?_ rfl))
      (.inr ⟨.inr ?_, fun _ => ⟨rfl, hk⟩⟩)
    · rw [Core.setProc_self]
      rfl
    · rw [Core.setProc_self]
  · refine (Passive.coarse.release _).leads_bind fun _ x hx => ?_
    refine (Passive.coarse.observeBack p).leads_bind fun _ y hy => leads_pure ?_
    have hy' := h.passive (((((ht.trans hu).trans hv).trans hw).trans hx).trans hy)
    exact hy'.leaves (a := .awake p k) ⟨rfl, hk⟩

theorem leads_kexit (status : BitVec 32) (h : Holds L S p W c₀ s.core) :
    Leads L (kexit status) (Leaves p W c₀) s := by
  refine leads_myproc_bind h.cproc fun t ht => Passive.coarse.getCore.leads_bind fun _ u hu => ?_
  refine leads_ite (fun _ => leads_kpanic) fun _ => ?_
  refine (Passive.coarse.acquire _).leads_bind fun _ v hv => ?_
  refine (Passive.coarse.reparent (fun _ _ _ => trivial) p).leads_bind fun _ w hw => ?_
  refine Passive.coarse.getCore.leads_bind fun _ x hx => ?_
  refine (Passive.coarse.wakeup _).leads_bind fun _ y hy => ?_
  refine (Passive.coarse.acquire _).leads_bind fun _ z hz => ?_
  refine .bind (leads_modCore fun z' hz' => ?_)
  have hall := h.passive (((((((ht.trans hu).trans hv).trans hw).trans hx).trans hy).trans hz).trans
    hz')
  have hself := z'.core.setProc_self p fun pr => { pr with xstate := status, state := .zombie }
  have hretains : z'.core.Retains ((z'.core.setProc p fun pr =>
      { pr with xstate := status, state := .zombie }).emit
        (.exited p (z'.core.procs p).pid status)) p W :=
    .of_eq ((congrArg Proc.space hself).trans rfl) rfl
  refine (Passive.coarse.release _).leads_bind fun _ x' hx' => ?_
  refine leads_sched (hx'.steady.cproc.trans hall.cproc) (hx'.steady.ccontext.trans hall.ccontext)
    ((hall.retains.trans hretains).trans hx'.retains) (.inl ?_)
  exact hx'.steady.keeps (congrArg Proc.state hself) (by decide)

/-! ### The console -/

theorem leads_consolereadDone (v : BitVec 32) (h : Holds L S p W c₀ s.core) :
    Leads L (consolereadDone p v) (Leaves p W c₀) s :=
  Passive.modEmit.leads_bind fun _ _ ht => (Passive.coarse.release _).leads_bind
    fun _ _ hu => leads_pure ((h.passive (ht.trans hu)).leaves rfl)

theorem leads_consolereadRound {dst : ℕ} {n target : BitVec 32} (h : Holds L S p W c₀ s.core)
    (hW : (Resume.consoleread dst n target).Serves W) :
    Leads L (consolereadRound p dst n target) (Leaves p W c₀) s :=
  leads_ite (fun _ => leads_pure (h.leaves ⟨rfl, hW⟩)) fun _ => leads_consolereadDone _ h

/-- The rest of the buffer. -/
theorem Resume.Serves.next {dst : ℕ} {n target : BitVec 32} (hn : 0 < n.toInt)
    (h : (Resume.consoleread dst n target).Serves W) :
    (Resume.consoleread ((dst + 1) % wordSize) (n - 1) target).Serves W := by
  intro k hk
  have hpred : (n - 1).toInt.toNat + 1 = n.toInt.toNat := by
    rw [toInt_pos_iff] at hn
    have hsub : (n - 1).toNat = n.toNat - 1 := by bv_omega
    rw [BitVec.toInt_eq_toNat_of_lt (by omega), BitVec.toInt_eq_toNat_of_lt (by omega), hsub]
    omega
  have hnext := h (k + 1) (by omega)
  rwa [Nat.mod_add_mod, Nat.add_assoc, Nat.add_comm 1 k]

theorem leads_eitherCopyout {dst : ℕ} {bytes : List UInt8} {Q : Bool → K → Prop}
    (h : Holds L S p W c₀ s.core)
    (hW : ∀ k, k < bytes.length → s.core.vm.mem.Readable (s.core.procs p).pagetable (dst + k) →
      dst + k ∈ W)
    (hQ : ∀ ok t, Holds L S p W c₀ t.core → Q ok t) :
    Leads L (eitherCopyout L true dst bytes) Q s := by
  refine leads_myproc_bind h.cproc fun t ht => .bind (leads_getCore fun u hu => ?_)
  refine leads_ite (fun _ => leads_vm fun v ok m hv hx => hQ ok _ ?_) fun hno => absurd rfl hno
  have hall := (ht.trans hu).trans hv
  have hpt : ∀ {c c' : Core}, Passive c c' → (c'.procs p).pagetable = (c.procs p).pagetable :=
    fun hc => congrArg Space.pagetable (hc.space p)
  rw [← hpt hv] at hx
  refine (h.passive hall).copyout (fun k hk hread => hW k hk ?_) hx
  rwa [hall.vm, hpt hall] at hread

theorem leads_consolereadWaitRound {dst : ℕ} {n target : BitVec 32} (h : Holds L S p W c₀ s.core)
    (hn : 0 < n.toInt) (hW : (Resume.consoleread dst n target).Serves W) :
    Leads L (consolereadWaitRound L p dst n target) (Leaves p W c₀) s := by
  refine Passive.coarse.getCore.leads_bind fun _ t ht => leads_ite (fun _ => ?_) fun _ => ?_
  · refine leads_myproc_bind (ht.steady.cproc.trans h.cproc) fun u hu => ?_
    refine (Passive.coarse.killed p).leads_bind fun _ v hv => ?_
    refine leads_ite (fun _ => ?_) fun _ => ?_
    · exact leads_consolereadDone _ (h.passive ((ht.trans hu).trans hv))
    · refine (Passive.coarse.sleepPrepare _).leads_bind fun _ w hw => ?_
      refine (Passive.coarse.release _).leads_bind fun _ x hx => ?_
      refine leads_sleep (h.passive ?_) hW
      exact (((ht.trans hu).trans hv).trans hw).trans hx
  · refine .bind (leads_modCore fun u hu => .bind (leads_eitherCopyout
      ((h.passive (ht.trans hu)).data rfl rfl rfl rfl) (fun k hk hread => ?_) fun ok v hv =>
      leads_ite (fun _ => ?_) fun _ => ?_))
    · have hk0 : k = 0 := by simpa using hk
      have hlt := hread.1
      have hin := hW 0 (by omega)
      rw [hk0] at hlt ⊢
      rwa [Nat.mod_eq_of_lt (by simp only [wordSize]; omega)] at hin
    · exact Passive.modEmit.leads_bind fun _ w hw => leads_consolereadDone _ (hv.passive hw)
    · refine Passive.modEmit.leads_bind fun _ w hw => ?_
      refine leads_ite (fun _ => leads_consolereadDone _ (hv.passive hw)) fun _ => leads_pure ?_
      exact (hv.passive hw).leaves ⟨rfl, hW.next hn⟩

theorem leads_eitherCopyin {src len : ℕ} {Q : Option (List UInt8) → K → Prop}
    (h : Holds L S p W c₀ s.core) (hQ : ∀ res t, Holds L S p W c₀ t.core → Q res t) :
    Leads L (eitherCopyin L true src len) Q s := by
  refine leads_myproc_bind h.cproc fun t ht => .bind (leads_getCore fun u hu => ?_)
  refine leads_ite (fun _ => leads_vm fun v res m hv hx => hQ res _ ?_) fun hno => absurd rfl hno
  have hv' := h.passive ((ht.trans hu).trans hv)
  obtain ⟨o, hsp⟩ := hv'.spaces
  rw [show (u.core.procs p).pagetable = (v.core.procs p).pagetable from
    (congrArg Space.pagetable (hv.space p)).symm] at hx
  obtain ⟨_, m', hx', rfl, -⟩ :=
    copyin_spec (L := L) hsp.inv.tables (hsp.owned p _ hv'.space).root src len
  obtain ⟨-, rfl⟩ := Prod.mk.inj (Except.ok.inj (hx.symm.trans hx'))
  exact hv'

theorem leads_consolewriteRound {src : ℕ} {n i : BitVec 32} (h : Holds L S p W c₀ s.core) :
    Leads L (consolewriteRound L p src n i) (Leaves p W c₀) s := by
  refine leads_ite (fun _ => .bind (leads_eitherCopyin h fun bytes t ht => ?_))
    fun _ => leads_pure (h.leaves rfl)
  cases bytes with
  | none => exact leads_pure (ht.leaves rfl)
  | some bytes =>
    refine (Passive.coarse.putBytes bytes).leads_bind fun _ u hu => ?_
    exact leads_pure ((ht.passive hu).leaves rfl)

/-! ### Wait -/

/-- **The scan of `kwait`** stores to the four bytes at `addr`, if that is not null. -/
theorem leads_kwaitScan {addr : ℕ} (hW : (Resume.kwait addr).Serves W) :
    ∀ (ps : List Slot) (havekids : Bool) {s : K}, Holds L S p W c₀ s.core →
      Leads L (kwaitScan L p addr ps havekids) (fun _ t => Holds L S p W c₀ t.core) s := by
  intro ps
  induction ps with
  | nil => exact fun _ s h => leads_pure h
  | cons q ps ih =>
    intro havekids s h
    have hlast : ∀ (w : BitVec 32) {t : K}, Holds L S p W c₀ t.core → Leads L (do
        modCore fun c => c.emit (.waitRet p w)
        release (.proc q)
        release .wait
        return .error w : KernelM (Except (BitVec 32) Bool))
        (fun _ t => Holds L S p W c₀ t.core) t :=
      fun w t ht => Passive.modEmit.leads_bind fun _ _ h₁ =>
        (Passive.coarse.release _).leads_bind fun _ _ h₂ => (Passive.coarse.release _).leads_bind
        fun _ _ h₃ => leads_pure (ht.passive ((h₁.trans h₂).trans h₃))
    refine Passive.coarse.getCore.leads_bind fun _ t ht => ?_
    refine leads_ite (fun _ => ?_) fun _ => ih _ (h.passive ht)
    refine (Passive.coarse.acquire _).leads_bind fun _ u hu => .bind (leads_getCore fun v hv => ?_)
    have hv' := h.passive ((ht.trans hu).trans hv)
    refine leads_ite (fun hzombie => ?_) fun _ => ?_
    swap
    · exact (Passive.coarse.release _).leads_bind fun _ w hw => ih _ (hv'.passive hw)
    refine Passive.coarse.getCore.leads_bind fun pid w₁ hw₁ => ?_
    refine .bind (leads_getCore fun w₂ hw₂ => ?_)
    refine Passive.coarse.getCore.leads_bind fun xstate w₃ hw₃ => .bind ?_
    refine leads_vm fun w₄ ok m hw₄ hx => ?_
    have hpassive := ((hw₁.trans hw₂).trans hw₃).trans hw₄
    have hw' := hv'.passive hpassive
    have hpt : (w₂.core.procs p).pagetable = (w₄.core.procs p).pagetable :=
      (congrArg Space.pagetable ((hw₃.trans hw₄).space p)).symm
    rw [hpt] at hx
    have hstored : Holds L S p W c₀ (w₄.core.setVm m) := by
      split_ifs at hx with h0
      · have hlen := length_leBytes 4 xstate.toNat
        rw [← hlen] at hx
        exact hw'.copyout (fun k hk _ => hW h0 k (hlen ▸ hk)) hx
      · obtain ⟨-, rfl⟩ := Prod.mk.inj (Except.ok.inj hx)
        exact hw'
    refine leads_ite (fun _ => hlast _ hstored) fun _ => ?_
    refine Passive.modEmit.leads_bind fun _ w₅ hw₅ => ?_
    refine (Passive.coarse.setParent (fun _ _ _ => trivial) _ _).leads_bind fun _ w₆ hw₆ => ?_
    refine .bind (leads_coreAtomic fun w₇ _ c' hw₇ hfree => hlast pid ?_)
    -- a zombie is not the running `p`, so what is freed is not `p`'s
    have hrest := (hw₅.trans hw₆).trans hw₇
    refine (hstored.passive hrest).freeproc (i := q) ?_ hfree
    exact hrest.steady.keeps (hpassive.steady.keeps hzombie (by decide)) (by decide)

theorem leads_kwaitRound {addr : ℕ} (h : Holds L S p W c₀ s.core)
    (hW : (Resume.kwait addr).Serves W) : Leads L (kwaitRound L p addr) (Leaves p W c₀) s := by
  refine .bind ((leads_kwaitScan hW slots false h).mono fun r t ht => ?_)
  cases r with
  | error v => exact leads_pure (ht.leaves rfl)
  | ok havekids =>
    have hgo : ∀ (stop : Bool) {u : K}, Holds L S p W c₀ u.core → Leads L (if stop then do
        modCore fun c => c.emit (.waitRet p (-1))
        release .wait
        return .sysret p ((-1 : BitVec 32).signExtend 64)
      else do
        sleepPrepare (.proc p)
        release .wait
        sleep (.kwait addr) : KernelM Label) (Leaves p W c₀) u := by
      intro stop u hu
      refine leads_ite (fun _ => Passive.modEmit.leads_bind fun _ v hv =>
        (Passive.coarse.release _).leads_bind fun _ w hw => leads_pure
        ((hu.passive (hv.trans hw)).leaves rfl)) fun _ => ?_
      refine (Passive.coarse.sleepPrepare _).leads_bind fun _ v hv => ?_
      refine (Passive.coarse.release _).leads_bind fun _ w hw => ?_
      exact leads_sleep (hu.passive (hv.trans hw)) hW
    cases havekids with
    | false => exact hgo true ht
    | true => exact (Passive.coarse.killed p).leads_bind fun stop u hu => hgo stop (ht.passive hu)

end OsKernel
