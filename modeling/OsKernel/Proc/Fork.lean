import OsKernel.Proc.Alloc

/-!
# Fork

`kfork` makes a process, copies user memory, trapframe and name of its caller, and then links the
child to its parent and lets it run, each in a critical section of its own. Between the sections the
child is there but does not run; the invariant holds with it. `Forked` says what the child is in
the end, against the state in which its slot was found.
-/

namespace OsKernel

variable {L : Layout} {S : Site} {N : Env} {h₀ : Hart} {b : Bool} {c c' c₀ c₁ : Core} {p i : Slot}
  {v v' v'' : Vm} {r r' sz tf tf' : ℕ}

/-! ### The image -/

/-- User memory in `m'` under the root `r'` is that in `m` under `r`. -/
structure SameImage (m m' : Mem) (r r' sz : ℕ) : Prop where
  flags : ∀ va, va < sz → pteFlags (m'.entry r' (va / 4096)) = pteFlags (m.entry r (va / 4096))
  byte : ∀ va, va < sz → m' (m'.phys r' va) = m (m.phys r va)

/-- The pages `uvmcopy` has copied. -/
theorem SameImage.of_copied (hshape : UserShape L v.mem r sz tf)
    (hshape' : UserShape L v'.mem r' sz tf')
    (hpages : ∀ w, w * 4096 < sz → CopiedPage v.mem v'.mem r r' w) :
    SameImage v.mem v'.mem r r' sz where
  flags va hva := by
    rw [hshape'.user _ (by omega), hshape.user _ (by omega)]
  byte va hva := by
    obtain ⟨q, hentry, hd, hlt, hbytes⟩ := hpages (va / 4096) (by omega)
    have hpa : pte2pa (v'.mem.entry r' (va / 4096)) = q := by
      rw [hentry, Nat.or_assoc]
      refine pte2pa_pa2pte_or hd hlt (or_pteV_lt ?_)
      rw [pteFlags_eq]
      exact Nat.mod_lt _ (by decide)
    rw [Mem.phys, hpa]
    exact hbytes _ (Nat.mod_lt _ (by decide))

/-- An image lasts as long as its page table means the same. -/
theorem SameImage.trans_same {w : Vm} (h : SameImage v.mem v'.mem r r' sz)
    (hshape : UserShape L v'.mem r' sz tf) (hs : SameSpace v'.mem w.mem r') :
    SameImage v.mem w.mem r r' sz := by
  have hread : ∀ va, va < sz → v'.mem.Readable r' va := fun va hva =>
    (hshape.writable (by omega)).1
  constructor
  · intro va hva
    rw [hs.entry_page (hread va hva)]
    exact h.flags va hva
  · intro va hva
    rw [hs.phys (hread va hva), hs.byte va (hread va hva)]
    exact h.byte va hva

theorem SameImage.same_trans (h : SameImage v'.mem v''.mem r r' sz)
    (hshape : UserShape L v.mem r sz tf) (hs : SameSpace v.mem v'.mem r) :
    SameImage v.mem v''.mem r r' sz := by
  have hread : ∀ va, va < sz → v.mem.Readable r va := fun va hva => (hshape.writable (by omega)).1
  constructor
  · intro va hva
    rw [← hs.entry_page (hread va hva)]
    exact h.flags va hva
  · intro va hva
    rw [← hs.byte va (hread va hva), ← hs.phys (hread va hva)]
    exact h.byte va hva

/-! ### The trapframe -/

/-- The trapframe in page `dst` becomes a copy of that in page `src`, with 0 in `a0`. -/
def Mem.copyFrame (m : Mem) (dst src : ℕ) : Mem :=
  (m.memmove dst src tfSize).store64 (dst + Reg.a0.offset) 0

section CopyFrame

variable {m : Mem} {dst src : ℕ}

/-- Only the page of the trapframe changes. -/
theorem Mem.copyFrame_of_ne (hd : 4096 ∣ dst) {a : ℕ} (ha : a / 4096 * 4096 ≠ dst) :
    m.copyFrame dst src a = m a := by
  have hout : a < dst ∨ dst + tfSize ≤ a := by
    simp only [tfSize]
    omega
  have hstore : (m.memmove dst src tfSize).store64 (dst + Reg.a0.offset) 0 a =
      m.memmove dst src tfSize a := by
    refine Mem.agreeOn_store64 (b := a) (n := 1) ?_ 0 Nat.one_pos
    simp only [Reg.offset, tfSize] at hout ⊢
    omega
  rw [Mem.copyFrame, hstore, Mem.memmove_apply, if_neg (by omega)]

theorem Mem.load64_memmove {off n : ℕ} (hoff : off + 8 ≤ n) :
    (m.memmove dst src n).load64 (dst + off) = m.load64 (src + off) := by
  rw [Mem.load64, Mem.load64, Mem.readBytes, Mem.readBytes]
  refine congrArg leValue (List.map_congr_left fun k hk => ?_)
  rw [List.mem_range] at hk
  rw [Mem.memmove_apply, if_pos (by omega)]
  exact congrArg m (by omega)

theorem Mem.load64_copyFrame_a0 : (m.copyFrame dst src).load64 (dst + Reg.a0.offset) = 0 :=
  Mem.load64_store64 (by decide)

/-- The other words are copied. -/
theorem Mem.load64_copyFrame {off : ℕ} (hoff : off + 8 ≤ tfSize)
    (ha0 : off + 8 ≤ Reg.a0.offset ∨ Reg.a0.offset + 8 ≤ off) :
    (m.copyFrame dst src).load64 (dst + off) = m.load64 (src + off) := by
  rw [Mem.copyFrame, Mem.load64_store64_of_disjoint (by omega), Mem.load64_memmove hoff]

theorem Mem.load64_copyFrame_reg {r : Reg} (hr : r ≠ .a0) :
    (m.copyFrame dst src).load64 (dst + r.offset) = m.load64 (src + r.offset) :=
  Mem.load64_copyFrame (by cases r <;> decide) (by cases r <;> first | decide | exact absurd rfl hr)

end CopyFrame

/-- What `kfork` makes of the process from `allocproc`. -/
def Proc.copyOf (q pr : Proc) : Proc :=
  { pr with sz := q.sz, name := safestrcpy pr.name q.name 16 }

theorem Core.making_forkCopy (c : Core) {p i : Slot} (hip : i ≠ p) (v : Vm) (pr : Proc) :
    (c.making i v pr).forkCopy p i =
      (c.making i { v with mem := v.mem.copyFrame pr.trapframe (c.procs p).trapframe }
        ((c.procs p).copyOf pr)).emit (.forked p i) := by
  simp [Core.forkCopy, Core.making, Core.setProc, Core.setMem, Core.setVm, Core.tfStore, Core.emit,
    Proc.copyOf, Mem.copyFrame, Function.update_of_ne hip.symm]

/-- What `kfork` has done to memory when the child is complete: its trapframe in page `tf`, its
page table at `pt`. -/
structure Twin (L : Layout) (S : Site) (p i : Slot) (c : Core) (v : Vm) (tf pt : ℕ) : Prop where
  kept : Kept c.spaces c.vm v
  spaces : ∃ o, Spaces L S.image S.kpt v
    (Function.update c.spaces i (some ⟨tf, pt, (c.procs p).sz⟩)) o noRole
  grown : c.vm.freemem + 4096 ≤ v.freemem
  image : SameImage c.vm.mem v.mem (c.procs p).pagetable pt (c.procs p).sz
  regs : ∀ q : Reg, q ≠ .a0 →
    v.mem.load64 (tf + q.offset) = c.vm.mem.load64 ((c.procs p).trapframe + q.offset)
  a0 : v.mem.load64 (tf + Reg.a0.offset) = 0
  epc : v.mem.load64 (tf + tfEpc) = c.vm.mem.load64 ((c.procs p).trapframe + tfEpc)

/-- The pages that are enough to make a child of a process of size `sz`: a trapframe, a root, two
tables for the pages at the top, and for every page of the user at most two tables more. -/
def forkPages (sz : ℕ) : ℕ := 4 + 3 * ((sz + 4095) / 4096)

/-- **The copies of `kfork`**: user memory, then the trapframe. -/
theorem Made.uvmcopy (hg : Good L S c) (hw : Working p c) (hu : (c.procs i).state = .unused)
    (hm : Made L S.image S.kpt c.spaces i c.vm v tf r) :
    (Vm.uvmcopy L (c.procs p).pagetable r (c.procs p).sz).Returns v fun ok v' =>
      ok = false ∧ ¬Supply L c.vm (forkPages (c.procs p).sz) ∧ (freeMemory L ⟨tf, r, 0⟩).Returns v'
          (fun _ v'' => Unmade L S.image S.kpt c.spaces c.vm v'') ∨
        ok = true ∧ Twin L S p i c
          { v' with mem := v'.mem.copyFrame tf (c.procs p).trapframe } tf r := by
  obtain ⟨hkept, ⟨o, hsp⟩, htook⟩ := hm
  have hgrown : c.vm.freemem + 4096 ≤ v.freemem := by
    have := htook.freemem
    omega
  have hip : i ≠ p := by
    rintro rfl
    rw [hg.state_running hw.cproc] at hu
    cases hu
  have hnone : Function.update c.spaces i none = c.spaces :=
    Function.update_eq_self_iff.mpr (Core.spaces_of_unused hu).symm
  have hpar : Function.update c.spaces i (some ⟨tf, r, 0⟩) p = some (c.procs p).space := by
    rw [Function.update_of_ne hip.symm, hg.spaces_running hw.cproc]
  have hchild : Function.update c.spaces i (some (⟨tf, r, 0⟩ : Space)) i = some ⟨tf, r, 0⟩ :=
    Function.update_self ..
  refine (hsp.uvmcopy hpar hchild hip.symm).mono ?_
  rintro ok v₂ ⟨hkept₂, hcase⟩
  rw [Function.update_idem, hnone] at hkept₂
  have hkept₂' := hkept.trans hkept₂
  rcases hcase with ⟨rfl, hpoor, o₂, hsp₂⟩ | ⟨rfl, ⟨o₂, hsp₂⟩, hpages⟩
  · refine .inl ⟨rfl, fun hs => hpoor (htook.supply_iff.mpr hs), (hsp₂.freeMemory hchild).mono ?_⟩
    rintro _ v₃ ⟨hkept₃, hsp₃⟩
    rw [Function.update_idem, hnone] at hkept₃ hsp₃
    exact ⟨hkept₂'.trans hkept₃, hsp₃, .inr (hgrown.trans (hkept₂.mono.trans hkept₃.mono))⟩
  · refine .inr ⟨rfl, ?_⟩
    rw [Function.update_idem] at hsp₂
    have hchild₂ : Function.update c.spaces i (some (⟨tf, r, (c.procs p).sz⟩ : Space)) i =
      some ⟨tf, r, (c.procs p).sz⟩ := Function.update_self ..
    have hown := hsp₂.owned i _ hchild₂
    have hparent := hsp.owned p _ hpar
    -- only the page of the trapframe changes afterwards
    obtain ⟨hsp₃, hkept₃, hsame⟩ := hsp₂.frameWrite hchild₂
      (n := v₂.mem.copyFrame tf (c.procs p).trapframe)
      fun a ha => Mem.copyFrame_of_ne (hsp₂.trapframe_lt hchild₂).1 ha
    rw [Function.update_idem, hnone] at hkept₃
    have hframe : Mem.AgreeOn c.vm.mem v₂.mem (c.procs p).trapframe 4096 :=
      hkept₂'.frames p _ (hg.spaces_running hw.cproc)
    have himage : SameImage v.mem v₂.mem (c.procs p).pagetable r (c.procs p).sz :=
      .of_copied hparent.shape hown.shape hpages
    constructor
    case kept => exact hkept₂'.trans hkept₃
    case spaces => exact ⟨o₂, hsp₃⟩
    case grown => exact hgrown.trans hkept₂.mono
    case image =>
      obtain ⟨o₀, hsp₀⟩ := hg.spaces
      have hold := (hsp₀.owned p _ (hg.spaces_running hw.cproc)).shape
      exact (himage.same_trans hold (hkept.space p _ (hg.spaces_running hw.cproc))).trans_same
        (w := { v₂ with mem := v₂.mem.copyFrame tf (c.procs p).trapframe }) hown.shape
        (hsame r hown.root)
    case regs =>
      intro q hq
      show (v₂.mem.copyFrame _ _).load64 _ = _
      rw [Mem.load64_copyFrame_reg hq]
      exact (hframe.mono (by omega) (by cases q <;> simp [Reg.offset])).load64_eq
    case a0 => exact Mem.load64_copyFrame_a0
    case epc =>
      show (v₂.mem.copyFrame _ _).load64 _ = _
      rw [Mem.load64_copyFrame (by decide) (by decide)]
      exact (hframe.mono (by omega) (by simp [tfEpc])).load64_eq

/-- The registers of the child are those of its parent, with 0 in `a0`. -/
theorem Twin.framed {x : Ctx} (h : Twin L S p i c v tf r)
    (hx : Framed c.vm.mem (c.procs p).trapframe x) : Framed v.mem tf (x.ret 0) where
  regs q := by
    by_cases hq : q = .a0
    · subst hq
      rw [h.a0]
      simp [Ctx.ret]
    · rw [h.regs q hq, hx.regs q]
      simp [Ctx.ret, Function.update_of_ne hq]
  pc := by
    rw [h.epc, hx.pc]
    rfl

/-! ### The child is there -/

/-- What a process is before it runs. -/
structure Proc.Newborn (i : Slot) (pid : BitVec 32) (pr : Proc) : Prop where
  state : pr.state = .used
  pid : pr.pid = pid
  parent : pr.parent = none
  chan : pr.chan = none
  killed : pr.killed = false
  kstack : pr.kstack = kstackVa i
  name : IsName pr.name
  context : pr.context = some .forkret

/-- **A pid for a new process.** There was a page left, so the counter has not run away. -/
theorem Pids.born {procs : Slot → Proc} {n : BitVec 32} {q : Proc} (h : Pids L v n procs)
    (hq : q.pid = n) (hroom : v.freemem + 4096 ≤ v'.freemem) (hstop : v'.freemem ≤ L.phystop) :
    Pids L v' (n + 1) (Function.update procs i q) := by
  obtain ⟨hpos, hinj, hnext⟩ := h
  have hword := L.phystop_le
  obtain ⟨h0, hle, hlt⟩ := hnext.resolve_left (by omega)
  have hn : n.toNat < 2 ^ 27 := by omega
  have hne : ∀ j, j ≠ i → Function.update procs i q j = procs j := fun j hj =>
    Function.update_of_ne hj ..
  refine ⟨fun j hj => ?_, fun j k hj hk hjk => ?_, .inr ⟨?_, ?_, fun j hj => ?_⟩⟩
  · by_cases hji : j = i
    · rw [hji, Function.update_self, hq, BitVec.toInt_eq_toNat_of_lt (by omega)]
      exact Int.natCast_pos.mpr h0
    · rw [hne j hji] at hj ⊢
      exact hpos j hj
  · -- the pids there are lie below the counter
    have hfresh : ∀ j, j ≠ i → (procs j).state ≠ .unused → (procs j).pid ≠ n := fun j _ hj heq =>
      absurd (hlt j hj) (by rw [heq]; exact lt_irrefl _)
    by_cases hji : j = i <;> by_cases hki : k = i
    · rw [hji, hki]
    · rw [hne k hki] at hk hjk
      rw [hji, Function.update_self, hq] at hjk
      exact absurd hjk.symm (hfresh k hki hk)
    · rw [hne j hji] at hj hjk
      rw [hki, Function.update_self, hq] at hjk
      exact absurd hjk (hfresh j hji hj)
    · rw [hne j hji] at hj hjk
      rw [hne k hki] at hk hjk
      exact hinj j k hj hk hjk
  · rw [toNat_succ_pid hn]
    exact Nat.succ_pos _
  · rw [toNat_succ_pid hn, Nat.succ_mul, ← Nat.add_assoc]
    exact Nat.add_le_add_right (hle.trans hroom) 4096
  · rw [toNat_succ_pid hn]
    by_cases hji : j = i
    · rw [hji, Function.update_self, hq]
      exact Nat.lt_succ_self _
    · rw [hne j hji] at hj ⊢
      exact (hlt j hj).trans (Nat.lt_succ_self _)

theorem SlotOk.newborn {cproc : Option Slot} {m : Mem} {k : Cons} {h : History} {pr : Proc}
    {pid : BitVec 32} (hb : pr.Newborn i pid) (hrun : cproc ≠ some i) (hended : h.ended = none)
    (hparent : h.parent = none) (htrap : h.trap = none)
    (hframe : ∀ x, h.ctx = some x → Framed m pr.trapframe x) : SlotOk cproc m k h i pr where
  running := iff_of_false (by rw [hb.state]; decide) hrun
  kstack := hb.kstack
  name := hb.name
  blank hs := by rw [hb.state] at hs; cases hs
  asleep hs := by rw [hb.state] at hs; cases hs
  chan hc := absurd hb.chan hc
  empty hc := by rw [hb.chan] at hc; cases hc
  killed hk := by rw [hb.killed] at hk; cases hk
  ended := hended.trans (if_neg (by rw [hb.state]; decide)).symm
  parent := hparent.trans hb.parent.symm
  saved _ := .inl ⟨hb.context, by rw [hb.state]; decide, htrap⟩
  frame _ := hframe

theorem Core.spaces_making (c : Core) (v : Vm) {pr : Proc} (h : pr.state ≠ .unused) :
    (c.making i v pr).spaces = Function.update c.spaces i (some pr.space) := by
  funext j
  by_cases hj : j = i
  · subst hj
    rw [Function.update_self]
    exact (if_neg (by rw [c.making_self]; exact h)).trans (by rw [c.making_self])
  · rw [Function.update_of_ne hj, Core.spaces, c.making_ne v pr hj]
    rfl

/-- The history of a child. -/
theorem hist_forked (l : List Event) (p i : Slot) : history (.forked p i :: l) i =
    { parent := (history l i).parent
      ended := (history l i).ended
      creator := some p
      ctx := (history l p).ctx.map (Ctx.ret 0) } := by
  simp [observe]

/-- **The child is there.** -/
theorem Good.born {q : Proc} (hg : Good L S c) (hw : Working p c) (hu : (c.procs i).state = .unused)
    (hcall : ∃ t, (c.hist p).InCall t) (hb : q.Newborn i c.nextpid)
    (hkept : Kept c.spaces c.vm v)
    (hsp : ∃ o, Spaces L S.image S.kpt v (Function.update c.spaces i (some q.space)) o noRole)
    (hroom : c.vm.freemem + 4096 ≤ v.freemem)
    (hframe : ∀ x, (c.hist p).ctx = some x → Framed v.mem q.trapframe (x.ret 0)) :
    Good L S ((c.making i v q).emit (.forked p i)) := by
  have hip : i ≠ p := by
    rintro rfl
    rw [hg.state_running hw.cproc] at hu
    cases hu
  have hslot := hg.slot i
  have hstate : ¬(c.procs i).Started := by
    rintro (h | h | h) <;> rw [hu] at h <;> cases h
  have hne : ∀ j, j ≠ i → history (.forked p i :: c.log) j = history c.log j := fun j hj =>
    Function.update_of_ne hj ..
  have hstop : v.freemem ≤ L.phystop := by
    obtain ⟨o, hsp⟩ := hsp
    exact hsp.inv.le_phystop
  constructor
  case kernel => exact hg.kernel
  case initproc => exact hg.initproc
  case spaces =>
    have hused : q.state ≠ .unused := by rw [hb.state]; decide
    show ∃ o, Spaces L S.image S.kpt v (c.making i v q).spaces o noRole
    rw [c.spaces_making v hused]
    exact hsp
  case slot =>
    intro j
    show SlotOk c.cproc v.mem c.cons (history (.forked p i :: c.log) j) j
      (Function.update c.procs i q j)
    by_cases hji : j = i
    · subst hji
      rw [Function.update_self, hist_forked]
      refine .newborn hb ?_ ?_ ?_ rfl fun x hx => ?_
      · rw [hw.cproc, ne_eq, Option.some.injEq]
        exact hip.symm
      · exact hslot.ended.trans (if_neg (by rw [hu]; decide))
      · exact hslot.parent.trans (hslot.blank hu).parent
      · obtain ⟨y, hy, rfl⟩ := Option.map_eq_some_iff.mp hx
        exact hframe y hy
    · rw [Function.update_of_ne hji, hne j hji]
      exact hg.slot_kept hkept rfl
  case kin =>
    exact hg.kin.vacate hstate (.inr hb.state) hb.parent fun j hj =>
      ⟨congrArg History.creator (hne j hj), congrArg History.orphan (hne j hj)⟩
  case waiting => exact hg.waiting.vacate hw.chan (.inl (hslot.blank hu).parent) hb.parent hb.chan
  case ring => exact ⟨hg.ring.fits, hg.ring.committed, hg.ring.full, hg.ring.content, hg.ring.echo⟩
  case fails => exact fun hb => hkept.not_fails (hg.fails hb)
  case pids => exact fun hbump => (hg.pids hbump).born hb.pid hroom hstop
  case boot =>
    intro hf
    obtain ⟨t, ht, -⟩ := hcall
    rw [(hg.boot hf p).2] at ht
    cases ht
  case unloaded =>
    intro hf
    obtain ⟨t, ht, -⟩ := hcall
    rw [(hg.boot hf p).2] at ht
    cases ht
  case home => exact hg.home
  case legal => exact hg.legal.cons hcall
  case exits => exact fun hbump => (hg.exits hbump).cons (by simp)

/-! ### The child is linked and started -/

/-- The running process `p` has made the child `i`, which does not run yet. -/
structure Forking (p i : Slot) (c : Core) : Prop where
  cproc : c.cproc = some p
  frame : ∀ x, (c.hist p).ctx = some x → Framed c.vm.mem (c.procs p).trapframe x
  chan : (c.procs p).chan = none
  used : (c.procs i).state = .used
  idle : (c.procs i).chan = none
  complete : ∀ j, j ≠ i → (c.procs j).state ≠ .used
  creator : (c.hist i).creator = some p
  orphan : (c.hist i).orphan = false

theorem Forking.born {q : Proc} (hg : Good L S c) (hw : Working p c) (hip : i ≠ p)
    (hb : q.Newborn i c.nextpid) (hkept : Kept c.spaces c.vm v) :
    Forking p i ((c.making i v q).emit (.forked p i)) := by
  have hi : ((c.making i v q).emit (.forked p i)).procs i = q := c.making_self i v q
  have hp : ((c.making i v q).emit (.forked p i)).procs p = c.procs p := c.making_ne v q hip.symm
  constructor
  case cproc => exact hw.cproc
  case frame =>
    intro x hx
    have hx' : (c.hist p).ctx = some x := by
      rw [← hx]
      exact (congrArg History.ctx (Function.update_of_ne hip.symm ..)).symm
    rw [hp]
    exact (hw.frame x hx').congr (hkept.frames p _ (hg.spaces_running hw.cproc))
  case chan => rw [hp, hw.chan]
  case used => rw [hi, hb.state]
  case idle => rw [hi, hb.chan]
  case complete => exact fun j hj => (c.making_ne v q hj).symm ▸ hw.complete j
  case creator => exact congrArg History.creator (hist_forked c.log p i)
  case orphan => exact congrArg History.orphan (hist_forked c.log p i)

theorem Forking.drift (h : Forking p i c) (hd : Drift c c') : Forking p i c' where
  cproc := hd.cproc.trans h.cproc
  frame x hx := by
    rw [hd.hist] at hx
    rw [hd.vm, hd.proc_eq h.chan]
    exact h.frame x hx
  chan := by rw [hd.proc_eq h.chan, h.chan]
  used := by rw [hd.proc_eq h.idle, h.used]
  idle := by rw [hd.proc_eq h.idle, h.idle]
  complete j hj := by
    rw [ne_eq, hd.state_iff (by decide) (by decide)]
    exact h.complete j hj
  creator := by rw [hd.hist, h.creator]
  orphan := by rw [hd.hist, h.orphan]

theorem Forking.ne (h : Forking p i c) (hg : Good L S c) : i ≠ p := by
  rintro rfl
  have := h.used
  rw [hg.state_running h.cproc] at this
  cases this

/-- The history of the linked child. -/
theorem Forking.hist_setParent (h : Forking p i c) (hip : i ≠ p) (j : Slot) :
    (c.setParent i (some p)).hist j = if j = i then { c.hist i with parent := some p } else
      if j = p then { c.hist p with quiet := false } else c.hist j := by
  have hobs : (c.setParent i (some p)).hist j =
      disturb (some p) (Function.update c.hist i { c.hist i with parent := some p }) j := by
    show observe _ (.parentSet c.cproc i (some p)) j = _
    rw [h.cproc]
    rfl
  rw [hobs, disturb]
  by_cases hji : j = i
  · subst hji
    rw [if_neg (by simpa using hip.symm), Function.update_self, if_pos rfl]
  · rw [Function.update_of_ne hji, if_neg hji]
    by_cases hjp : j = p
    · rw [hjp, if_pos rfl, if_pos rfl]
    · rw [if_neg hjp, if_neg (by simpa using Ne.symm hjp)]

theorem Forking.not_started (h : Forking p i c) : ¬(c.procs i).Started := by
  rintro (hs | hs | hs) <;> rw [h.used] at hs <;> cases hs

theorem Forking.ne_init (hg : Good L S c) (h : Forking p i c) : S.init ≠ i := fun heq =>
  h.not_started (heq ▸ hg.kin.init_started)

/-- Nobody has the child as its parent, and the other parents stay. -/
theorem Forking.parent_setParent (hg : Good L S c) (h : Forking p i c) {j q : Slot}
    (hq : ((c.setParent i (some p)).procs j).parent = some q) :
    q ≠ i ∧ (j = i ∧ q = p ∨ j ≠ i ∧ (c.procs j).parent = some q) := by
  by_cases hji : j = i
  · rw [hji, c.setParent_self i (some p), Option.some.injEq] at hq
    exact ⟨fun hqi => h.ne hg (hqi.symm.trans hq.symm), .inl ⟨hji, hq.symm⟩⟩
  · rw [c.setParent_ne (some p) hji] at hq
    exact ⟨fun hqi => h.not_started (hqi ▸ hg.kin.parent j q hq), .inr ⟨hji, hq⟩⟩

/-- **The tree of processes with a new leaf.** -/
theorem Forking.kin_setParent (hg : Good L S c) (h : Forking p i c) :
    Kin S.init (c.setParent i (some p)).procs (c.setParent i (some p)).hist := by
  have hne : ∀ j, j ≠ i → (c.setParent i (some p)).procs j = c.procs j := fun j =>
    c.setParent_ne (some p)
  have hinit := h.ne_init hg
  have hhist := h.hist_setParent (h.ne hg)
  constructor
  case init_started => exact (hne _ hinit).symm ▸ hg.kin.init_started
  case init_parent => exact (hne _ hinit).symm ▸ hg.kin.init_parent
  case parent =>
    intro j q hq
    obtain ⟨hqi, ⟨-, rfl⟩ | ⟨-, hold⟩⟩ := h.parent_setParent hg hq
    · rw [hne q hqi]
      exact .inr (.inr (hg.state_running h.cproc))
    · rw [hne q hqi]
      exact hg.kin.parent j q hold
  case orphan =>
    intro j hj
    by_cases hji : j = i
    · rw [hji, c.setParent_self i (some p)] at hj
      cases hj
    · rw [hne j hji] at hj ⊢
      exact hg.kin.orphan j hj
  case lineage =>
    intro j q hq
    obtain ⟨-, ⟨rfl, rfl⟩ | ⟨hji, hold⟩⟩ := h.parent_setParent hg hq
    · rw [hhist, if_pos rfl]
      exact ⟨fun ho => absurd (h.orphan.symm.trans ho) (by decide), fun _ => h.creator⟩
    · have hheir := hg.kin.lineage j q hold
      rw [hhist, if_neg hji]
      by_cases hjp : j = p
      · rw [if_pos hjp]
        exact hjp ▸ hheir
      · rwa [if_neg hjp]
  case rank =>
    -- the child comes right after its parent
    obtain ⟨rank, h0, hlt⟩ := hg.kin.rank
    refine ⟨Function.update rank i (rank p + 1), ?_, fun j q hq => ?_⟩
    · rw [Function.update_of_ne hinit, h0]
    · obtain ⟨hqi, ⟨rfl, rfl⟩ | ⟨hji, hold⟩⟩ := h.parent_setParent hg hq
      · rw [Function.update_self, Function.update_of_ne hqi]
        exact Nat.lt_succ_self _
      · rw [Function.update_of_ne hqi, Function.update_of_ne hji]
        exact hlt j q hold

/-- The parent does not wait, so a child more is no concern of those who do. -/
theorem Forking.waiting_setParent (hg : Good L S c) (h : Forking p i c)
    (hpar : (c.procs i).parent = none) : Waiting (c.setParent i (some p)).procs := by
  have hne : ∀ j, j ≠ i → (c.setParent i (some p)).procs j = c.procs j := fun j =>
    c.setParent_ne (some p)
  intro j q hq
  have hchan : (c.procs j).chan = some (.proc q) := by
    by_cases hji : j = i
    · rw [hji, c.setParent_self i (some p)] at hq
      rw [hji]
      exact hq
    · rwa [hne j hji] at hq
  obtain ⟨rfl, ⟨ch, hch⟩, hz⟩ := hg.waiting j q hchan
  refine ⟨rfl, ⟨ch, ?_⟩, fun ch' hch' => ?_⟩
  · rw [hne ch ?_, hch]
    rintro rfl
    rw [hpar] at hch
    cases hch
  · obtain ⟨-, ⟨rfl, rfl⟩ | ⟨hji, hold⟩⟩ := h.parent_setParent hg hch'
    · rw [h.chan] at hchan
      cases hchan
    · rw [hne ch' hji]
      exact hz ch' hold

/-- **The child is linked to its parent.** -/
theorem Good.link (hg : Good L S c) (h : Forking p i c) (hpar : (c.procs i).parent = none) :
    Good L S (c.setParent i (some p)) := by
  have hip := h.ne hg
  have hself := c.setParent_self i (some p)
  have hne : ∀ j, j ≠ i → (c.setParent i (some p)).procs j = c.procs j := fun j =>
    c.setParent_ne (some p)
  have hhist := h.hist_setParent hip
  have hrun := hg.state_running h.cproc
  constructor
  case kernel => exact hg.kernel
  case initproc => exact hg.initproc
  case spaces =>
    show ∃ o, Spaces L S.image S.kpt c.vm (c.setProc i fun pr =>
      { pr with parent := some p }).spaces o
      noRole
    rw [Core.spaces_setProc (f := fun pr => { pr with parent := some p }) Iff.rfl rfl]
    exact hg.spaces
  case slot =>
    intro j
    rw [hhist]
    have hs := hg.slot j
    by_cases hji : j = i
    · subst hji
      rw [if_pos rfl, hself]
      refine { hs with
        blank := fun hu => ?_
        parent := rfl
        saved := fun hpark => (hs.saved hpark).imp id fun ⟨ia, k, h₁, h₂, h₃, h₄⟩ =>
          absurd h.used h₂ }
      rw [h.used] at hu
      cases hu
    · rw [if_neg hji, hne j hji]
      by_cases hjp : j = p
      · subst hjp
        rw [if_pos rfl]
        exact hs.observe hrun (.inr h.chan) (.inl rfl) rfl rfl
      · rw [if_neg hjp]
        exact hs
  case kin => exact h.kin_setParent hg
  case waiting => exact h.waiting_setParent hg hpar
  case ring => exact ⟨hg.ring.fits, hg.ring.committed, hg.ring.full, hg.ring.content, hg.ring.echo⟩
  case fails => exact hg.fails
  case pids =>
    intro hb
    refine (hg.pids hb).congr ?_ ?_
    · exact Core.forall_setProc (f := fun pr => { pr with parent := some p })
        (P := fun j pr => pr.pid = (c.procs j).pid) rfl fun _ _ => rfl
    · exact Core.forall_setProc (f := fun pr => { pr with parent := some p })
        (P := fun j pr => pr.state = .unused ↔ (c.procs j).state = .unused) Iff.rfl
          fun _ _ => Iff.rfl
  case boot =>
    intro hf j
    have hb := hg.boot hf
    rw [hhist]
    split_ifs
    · exact hb i
    · exact hb p
    · exact hb j
  case unloaded =>
    intro hf
    exact Core.forall_setProc (f := fun pr => { pr with parent := some p })
      (P := fun _ pr => pr.sz = 0) (hg.unloaded hf i) fun j _ => hg.unloaded hf j
  case home => exact hg.home
  case legal => exact hg.legal.cons trivial
  case exits => exact fun hb => (hg.exits hb).cons (by simp)

theorem Forking.link (hg : Good L S c) (h : Forking p i c) :
    Forking p i (c.setParent i (some p)) := by
  have hip := h.ne hg
  have hself := c.setParent_self i (some p)
  have hp := c.setParent_ne (some p) hip.symm
  have hhist := h.hist_setParent hip
  constructor
  case cproc => exact h.cproc
  case frame =>
    intro x hx
    rw [hhist, if_neg hip.symm, if_pos rfl] at hx
    rw [hp]
    exact h.frame x hx
  case chan => rw [hp, h.chan]
  case used => rw [hself]; exact h.used
  case idle => rw [hself]; exact h.idle
  case complete => exact fun j hj => (c.setParent_ne (some p) hj).symm ▸ h.complete j hj
  case creator => rw [hhist, if_pos rfl]; exact h.creator
  case orphan => rw [hhist, if_pos rfl]; exact h.orphan

/-- The last change of `kfork`. -/
def Core.start (i : Slot) (c : Core) : Core := c.setProc i fun pr => { pr with state := .runnable }

theorem Core.start_self (c : Core) (i : Slot) :
    (c.start i).procs i = { c.procs i with state := .runnable } :=
  c.setProc_self i fun pr => { pr with state := .runnable }

theorem Core.start_ne (c : Core) {i j : Slot} (h : j ≠ i) : (c.start i).procs j = c.procs j :=
  c.setProc_ne (fun pr => { pr with state := .runnable }) h

/-- **The child is started.** -/
theorem Good.start (hg : Good L S c) (h : Forking p i c) (hpar : (c.procs i).parent = some p) :
    Good L S (c.start i) := by
  have hself := c.start_self i
  have hne : ∀ j, j ≠ i → (c.start i).procs j = c.procs j := fun j => c.start_ne
  have hparent : ∀ j, ((c.start i).procs j).parent = (c.procs j).parent :=
    Core.forall_setProc (f := fun pr => { pr with state := .runnable })
      (P := fun j pr => pr.parent = (c.procs j).parent) rfl fun _ _ => rfl
  have hstarted : ∀ j, (c.procs j).Started → ((c.start i).procs j).Started := by
    intro j hj
    by_cases hji : j = i
    · rw [hji, hself]
      exact .inl rfl
    · rwa [hne j hji]
  have hunused : ∀ j, ((c.start i).procs j).state = .unused ↔ (c.procs j).state = .unused :=
    Core.forall_setProc (f := fun pr => { pr with state := .runnable })
      (P := fun j pr => pr.state = .unused ↔ (c.procs j).state = .unused)
      (iff_of_false (by simp) (by rw [h.used]; decide)) fun _ _ => Iff.rfl
  refine { hg with
    spaces := ?spaces
    slot := fun j => ?slot
    kin := ?kin
    waiting := fun j q hq => ?waiting
    pids := fun hb => ?pids
    unloaded := fun hf => ?unloaded }
  case spaces =>
    rw [Core.start, Core.spaces_setProc (f := fun pr => { pr with state := .runnable })
      (iff_of_false (by simp) (by rw [h.used]; decide)) rfl]
    exact hg.spaces
  case slot =>
    have hs := hg.slot j
    by_cases hji : j = i
    · subst hji
      rw [hself]
      refine { hs with
        running := iff_of_false (by simp) fun hp => ?_
        blank := fun hu => by cases hu
        asleep := fun hu => by cases hu
        chan := fun hc => absurd h.idle hc
        ended := hs.ended.trans (by rw [if_neg (by rw [h.used]; decide), if_neg (by simp)])
        saved := fun _ => ?_
        frame := fun _ => hs.frame (.inl h.used) }
      · have := hs.running.mpr hp
        rw [h.used] at this
        cases this
      · rcases hs.saved (.inl h.used) with ⟨hctx, -, htrap⟩ | ⟨ia, k, -, hno, -⟩
        · exact .inl ⟨hctx, by simp, htrap⟩
        · exact absurd h.used hno
    · rw [hne j hji]
      exact hs
  case kin =>
    obtain ⟨h₁, h₂, h₃, h₄, h₅, h₆⟩ := hg.kin
    refine ⟨hstarted _ h₁, (hparent _).trans h₂, fun j q hq => hstarted q (h₃ j q (hparent j ▸ hq)),
      fun j hj => ?_, fun j q hq => h₅ j q (hparent j ▸ hq), ?_⟩
    · rw [hparent] at hj
      by_cases hji : j = i
      · rw [hji, hpar] at hj
        cases hj
      · rw [hne j hji]
        exact h₄ j hj
    · obtain ⟨rank, h0, hlt⟩ := h₆
      exact ⟨rank, h0, fun j q hq => hlt j q (hparent j ▸ hq)⟩
  case waiting =>
    have hji : j ≠ i := by
      rintro rfl
      rw [hself] at hq
      exact absurd (h.idle.symm.trans hq) (by simp)
    rw [hne j hji] at hq
    obtain ⟨rfl, ⟨ch, hch⟩, hz⟩ := hg.waiting j q hq
    refine ⟨rfl, ⟨ch, (hparent ch).trans hch⟩, fun ch' hch' => ?_⟩
    rw [hparent] at hch'
    by_cases hci : ch' = i
    · rw [hci, hself]
      exact fun hz => by cases hz
    · rw [hne ch' hci]
      exact hz ch' hch'
  case pids =>
    refine (hg.pids hb).congr ?_ hunused
    exact Core.forall_setProc (f := fun pr => { pr with state := .runnable })
      (P := fun j pr => pr.pid = (c.procs j).pid) rfl fun _ _ => rfl
  case unloaded =>
    exact Core.forall_setProc (f := fun pr => { pr with state := .runnable })
      (P := fun _ pr => pr.sz = 0) (hg.unloaded hf i) fun j _ => hg.unloaded hf j

theorem Forking.start (hg : Good L S c) (h : Forking p i c) : Working p (c.start i) := by
  have hp := c.start_ne (h.ne hg).symm
  refine ⟨⟨h.cproc, fun x hx => ?_, fun j => ?_⟩, by rw [hp, h.chan]⟩
  · rw [hp]
    exact h.frame x hx
  · by_cases hji : j = i
    · rw [hji, c.start_self]
      exact fun hu => by cases hu
    · rw [c.start_ne hji]
      exact h.complete j hji

/-! ### `kfork` -/

/-- **What a successful fork has made**: the process `i`, a copy of `p` as it was in `c`. -/
structure Forked (L : Layout) (p i : Slot) (n : BitVec 32) (c c' : Core) : Prop where
  unused : (c.procs i).state = .unused
  state : (c'.procs i).state = .runnable
  pid : (c'.procs i).pid = n
  sz : (c'.procs i).sz = (c.procs p).sz
  name : strOf (c'.procs i).name = strOf (c.procs p).name
  parent : (c'.procs i).parent = some p
  image : SameImage c.vm.mem c'.vm.mem (c.procs p).pagetable (c'.procs i).pagetable (c.procs p).sz
  regs : ∀ q : Reg, q ≠ .a0 → c'.tfLoad i q.offset = c.tfLoad p q.offset
  a0 : c'.tfLoad i Reg.a0.offset = 0
  epc : c'.tfLoad i tfEpc = c.tfLoad p tfEpc
  number : n = c.nextpid
  room : c.vm.freemem + 4096 ≤ L.phystop

/-- How `kfork` ends: it found no slot, tried one in vain for want of pages, or made a process. -/
def ForkEnds (L : Layout) (S : Site) (N : Env) (p : Slot) (c : Core) (n : BitVec 32) (c' : Core) :
    Prop :=
  n = -1 ∧ (N.Rel c c' ∧ (∀ i, (c'.procs i).state ≠ .unused) ∨ ∃ c₁ i, N.Rel c c₁ ∧
      Tried L S p i c₁ c' ∧ ¬Supply L c₁.vm (forkPages (c₁.procs p).sz)) ∨
    ∃ c₁ i, N.Rel c c₁ ∧ Forked L p i n c₁ c'

/-- The state of a process the child has become, up to its parent and its state. -/
theorem Twin.forked {q : Proc} (h : Twin L S p i c v tf r) (hu : (c.procs i).state = .unused)
    (hname : IsName (c.procs p).name) (hvm : c'.vm = v)
    (hq : q = (c.procs p).copyOf ((c.procs i).fresh c.nextpid tf r))
    (hc' : c'.procs i = { q with parent := some p, state := .runnable }) :
    Forked L p i q.pid c c' := by
  have htf : (c'.procs i).trapframe = tf := by rw [hc', hq]; rfl
  have hload : ∀ off, c'.tfLoad i off = BitVec.ofNat 64 (v.mem.load64 (tf + off)) := fun off => by
    rw [Core.tfLoad, hvm, htf]
  constructor
  case unused => exact hu
  case state => rw [hc']
  case pid => rw [hc']
  case sz => rw [hc', hq]; rfl
  case name =>
    rw [hc', hq]
    exact strOf_safestrcpy _ hname
  case parent => rw [hc']
  case image =>
    rw [hvm, hc', hq]
    exact h.image
  case regs =>
    intro x hx
    rw [hload, h.regs x hx, Core.tfLoad]
  case a0 =>
    rw [hload, h.a0]
    rfl
  case epc => rw [hload, h.epc, Core.tfLoad]
  case number => rw [hq]; rfl
  case room =>
    obtain ⟨o, hsp⟩ := h.spaces
    exact h.grown.trans hsp.inv.le_phystop

/-- The memory of the other processes is as it was. -/
theorem Twin.spares {q : Proc} (h : Twin L S p i c v tf r) (hb : q.Newborn i c.nextpid)
    (hu : (c.procs i).state = .unused) :
    Spares (fun _ => False) c ((c.making i v q).emit (.forked p i)) := by
  refine ⟨fun j sp _ hj => ?_, fun j sp _ => h.kept.frames j sp, fun j sp _ => h.kept.space j sp⟩
  show (c.making i v q).spaces j = some sp
  rw [c.spaces_making v (by rw [hb.state]; decide), Function.update_of_ne ?_, hj]
  rintro rfl
  rw [Core.spaces_of_unused hu] at hj
  cases hj

/-- What `kfork` keeps of its caller. -/
structure ForkKeeps (L : Layout) (S : Site) (p : Slot) (c c' : Core) : Prop where
  working : Working p c'
  good : Good L S c'
  trap : (c'.hist p).trap = (c.hist p).trap
  ctx : (c'.hist p).ctx = (c.hist p).ctx
  spares : Spares (fun _ => False) c c'

theorem Tried.keeps (h : Tried L S p i c c') : ForkKeeps L S p c c' :=
  ⟨h.working, h.good, h.same.1, h.same.2, h.spares⟩

theorem ForkKeeps.of_drift (h : ForkKeeps L S p c₁ c') (hd : Drift c c₁) : ForkKeeps L S p c c' :=
  ⟨h.working, h.good, by rw [h.trap, hd.hist], by rw [h.ctx, hd.hist], hd.spares.trans h.spares⟩

/-- **The second half of `kfork`**, with the memory of the child complete. -/
theorem forkLink_runs (hg : Good L S c) (hw : Working p c) (hcall : ∃ t, (c.hist p).InCall t)
    (hu : (c.procs i).state = .unused)
    (h : Twin L S p i c { v with mem := v.mem.copyFrame tf (c.procs p).trapframe } tf r) :
    Runs L S N h₀ (do
      modCore (Core.forkCopy p i)
      let pid ← getCore fun c => (c.procs i).pid
      release (.proc i)
      acquire .wait
      modCore (Core.setParent i (some p))
      release .wait
      acquire (.proc i)
      modCore fun c => c.setProc i fun pr => { pr with state := .runnable }
      release (.proc i)
      return pid) (.locked {.proc i} b) (c.making i v ((c.procs i).fresh c.nextpid tf r))
      fun n μ c' => μ = .unlocked b ∧ ForkKeeps L S p c c' ∧ Forked L p i n c c' := by
  have hip : i ≠ p := by
    rintro rfl
    rw [hg.state_running hw.cproc] at hu
    cases hu
  obtain ⟨q, hq⟩ : ∃ q, q = (c.procs p).copyOf ((c.procs i).fresh c.nextpid tf r) := ⟨_, rfl⟩
  obtain ⟨v', hv'⟩ : ∃ v' : Vm, v' = { v with mem := v.mem.copyFrame tf (c.procs p).trapframe } :=
    ⟨_, rfl⟩
  have hslot := hg.slot i
  have hblank := hslot.blank hu
  have hborn : q.Newborn i c.nextpid := by
    rw [hq]
    exact ⟨rfl, rfl, hblank.parent, hblank.chan, hblank.killed, hslot.kstack,
      hslot.name.safestrcpy _, rfl⟩
  have hspace : q.space = ⟨tf, r, (c.procs p).sz⟩ := by rw [hq]; rfl
  refine .bind (Locked.modCore ?_)
  rw [Core.making_forkCopy _ hip, show ((c.procs i).fresh c.nextpid tf r).trapframe = tf from rfl,
    ← hq, ← hv']
  rw [← hv'] at h
  have hg₁ := hg.born hw hu hcall hborn h.kept (by rw [hspace]; exact h.spaces) h.grown
    fun x hx => by
    rw [show q.trapframe = tf from congrArg Space.trapframe hspace]
    exact h.framed (hw.frame x hx)
  have hf₁ := Forking.born hg hw hip hborn h.kept
  have hself : history (.forked p i :: c.log) p = history c.log p :=
    Function.update_of_ne hip.symm ..
  refine .bind (Locked.getCore (.bind (Locked.release_last hg₁ (.bind (Unlocked.acquire
    fun c₂ hd₂ hg₂ => .bind (Locked.modCore (.bind ?_)))))))
  replace hg₂ : Good L S c₂ := hg₂
  have hf₂ := hf₁.drift (N.drift hd₂)
  have hchild₂ : c₂.procs i = q := by
    rw [(N.drift hd₂).proc_eq hf₁.idle]
    exact c.making_self i v' q
  refine Locked.release_last (hg₂.link hf₂ (by rw [hchild₂, hborn.parent])) (.bind (Unlocked.acquire
    fun c₃ hd₃ hg₃ => .bind (Locked.modCore (.bind ?_))))
  replace hg₃ : Good L S c₃ := hg₃
  have hlink := hf₂.link hg₂
  have hf₃ := hlink.drift (N.drift hd₃)
  have hchild₃ : c₃.procs i = { q with parent := some p } := by
    rw [(N.drift hd₃).proc_eq hlink.idle, Core.setParent_self, hchild₂]
  have hg₄ := hg₃.start hf₃ (by rw [hchild₃])
  refine Locked.release_last hg₄ (does_pure ⟨rfl, ⟨hf₃.start hg₃, hg₄, ?_, ?_, ?_⟩, ?_⟩)
  · show (c₃.hist p).trap = _
    rw [(N.drift hd₃).hist, hf₂.hist_setParent hip, if_neg hip.symm, if_pos rfl, (N.drift hd₂).hist]
    show (history (.forked p i :: c.log) p).trap = _
    rw [hself]
    rfl
  · show (c₃.hist p).ctx = _
    rw [(N.drift hd₃).hist, hf₂.hist_setParent hip, if_neg hip.symm, if_pos rfl, (N.drift hd₂).hist]
    show (history (.forked p i :: c.log) p).ctx = _
    rw [hself]
    rfl
  · have hlinked : Spares (fun _ => False) c₂ (c₂.setParent i (some p)) := .of_eq rfl
      (Core.spaces_setProc (f := fun pr => { pr with parent := some p }) Iff.rfl rfl)
    have hstarted : Spares (fun _ => False) c₃ (c₃.start i) := .of_eq rfl
      (Core.spaces_setProc (f := fun pr => { pr with state := .runnable })
        (iff_of_false (by simp) (by rw [hf₃.used]; decide)) rfl)
    exact ((h.spares hborn hu).trans (N.drift hd₂).spares).trans
      (hlinked.trans ((N.drift hd₃).spares.trans hstarted))
  · have hpid : ((c.making i v' q).procs i).pid = q.pid := by rw [c.making_self]
    show Forked L p i ((c.making i v' q).procs i).pid c (c₃.start i)
    rw [hpid]
    refine h.forked hu (hg.slot p).name ?_ hq ?_
    · show c₃.vm = v'
      rw [(N.drift hd₃).vm]
      exact (N.drift hd₂).vm
    · rw [Core.start_self, hchild₃]

/-- **`kfork`.** -/
theorem kfork_runs (hw : Working p c) (hcall : ∃ t, (c.hist p).InCall t) :
    Runs L S N h₀ (kfork L) (.unlocked b) c fun n μ c' =>
      μ = .unlocked b ∧ ForkKeeps L S p c c' ∧ ForkEnds L S N p c n c' := by
  refine .bind (Unlocked.myproc fun c₀ hd₀ hg₀ => .bind ?_)
  have hw₀ := hw.drift (N.drift hd₀)
  rw [hw₀.cproc]
  refine does_deref (.bind (allocprocScan_runs (p := p) slots hg₀ hw₀ ?_ ?_ ?_))
  · -- no slot
    intro c' hd hg' hfull
    have hd' := N.drift (N.trans hd₀ hd)
    exact does_pure ⟨rfl, ⟨hw.drift hd', hg', by rw [hd'.hist], by rw [hd'.hist], hd'.spares⟩,
      .inl ⟨rfl, .inl ⟨N.trans hd₀ hd, fun i => hfull i (List.mem_finRange i)⟩⟩⟩
  · -- a slot without memory for the process
    intro c₁ i c' hd ht hpoor
    have hd₁ := N.trans hd₀ hd
    exact does_pure ⟨rfl, ht.keeps.of_drift (N.drift hd₁), .inl ⟨rfl, .inr ⟨c₁, i, hd₁, ht,
      fun hs => hpoor (hs.mono (Nat.le_add_right _ _))⟩⟩⟩
  · intro c₁ i v tf pt hd hg₁ hu hm
    have hd₁ := N.trans hd₀ hd
    have hw₁ := hw.drift (N.drift hd₁)
    have hip : i ≠ p := by
      rintro rfl
      rw [hg₁.state_running hw₁.cproc] at hu
      cases hu
    refine .bind (Locked.getCore (.bind (Locked.getCore (.bind ?_))))
    rw [Core.making_self, Core.making_ne _ _ _ hip.symm]
    refine Locked.coreAtomic (returns_liftVm.mpr ((hm.uvmcopy hg₁ hw₁ hu).mono ?_))
    rintro ok v₂ (⟨rfl, hpoor, hfree⟩ | ⟨rfl, htwin⟩)
    · -- memory is used up in the middle of the copy
      rw [if_pos rfl]
      refine .bind (Locked.coreAtomic ((freeproc_returns
        (R := Unmade L S.image S.kpt c₁.spaces c₁.vm) ?_).mono ?_))
      · show (freeMemory L ((c₁.making i v _).procs i).space).Returns v₂ _
        rw [Core.making_self, Proc.space, show ((c₁.procs i).fresh c₁.nextpid tf pt).sz = 0 from
          ((hg₁.slot i).blank hu).sz]
        exact hfree
      · rintro _ _ ⟨v₃, hun, rfl⟩
        show Does L _ h₀ _ _ ((c₁.making i v₂ ((c₁.procs i).fresh c₁.nextpid tf pt)).freed i v₃) _
        rw [Core.making_freed]
        have hslot := hg₁.slot i
        have ht := hg₁.tried ((c₁.procs i).fresh c₁.nextpid tf pt) hw₁ hu rfl hslot.name
          (hslot.blank hu).parent hun
        exact .bind (Locked.release_last ht.good (does_pure ⟨rfl, ht.keeps.of_drift (N.drift hd₁),
          .inl ⟨rfl, .inr ⟨c₁, i, hd₁, ht, hpoor⟩⟩⟩))
    · rw [if_neg (by decide)]
      refine (forkLink_runs hg₁ hw₁ (by rwa [(N.drift hd₁).hist]) hu htwin).mono ?_
      rintro n μ c' ⟨rfl, hkeeps, hforked⟩
      exact ⟨rfl, hkeeps.of_drift (N.drift hd₁), .inr ⟨c₁, i, hd₁, hforked⟩⟩

end OsKernel
