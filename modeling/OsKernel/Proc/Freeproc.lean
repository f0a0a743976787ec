import OsKernel.Proc.Sleep

/-!
# `freeproc`

A slot is given back, by `kwait` for a zombie and by `kfork` for a process it could not finish.
`freeproc_returns` says what the code does, given what it does to memory, and `Good.vacate` that
the invariant holds with the slot empty. `Vacates` is what the log has to say about it: nothing
changes for the other processes, and the slot owes no status.
-/

namespace OsKernel

variable {L : Layout} {S : Site} {c : Core} {p i : Slot} {v : Vm} {l : List Event}

/-- The change of `freeproc`, which leaves memory as `v`. -/
def Core.freed (i : Slot) (v : Vm) (c : Core) : Core :=
  ((c.setVm v).setProc i Proc.clear).emit (.freed c.cproc i)

theorem Core.freed_self (c : Core) (i : Slot) (v : Vm) :
    (c.freed i v).procs i = (c.procs i).clear := (c.setVm v).setProc_self i _

theorem Core.freed_ne (c : Core) {i j : Slot} (v : Vm) (h : j ≠ i) :
    (c.freed i v).procs j = c.procs j := (c.setVm v).setProc_ne _ h

/-- The work of `freeproc` on memory. -/
def freeMemory (L : Layout) (sp : Space) : VmM Unit := do
  (if sp.trapframe ≠ 0 then Vm.kfree sp.trapframe else pure () : VmM Unit)
  (if sp.pagetable ≠ 0 then Vm.procFreepagetable L sp.pagetable sp.sz else pure () : VmM Unit)

theorem freeproc_returns {R : Vm → Prop}
    (h : (freeMemory L (c.procs i).space).Returns c.vm fun _ v => R v) :
    (freeproc L i).Returns c fun _ c' => ∃ v, R v ∧ c' = c.freed i v := by
  obtain ⟨⟨⟩, v, h, hR⟩ := h
  obtain ⟨_, v₁, h₁, h₂⟩ := PanicM.bind_eq_ok_iff.mp h
  have hrest : (freeproc L i).Returns c fun _ c' => c' = c.freed i v := by
    refine (PanicM.returns_read_bind _).mpr ((PanicM.returns_bind_of_ok (liftVm_of_ok h₁)).mpr
      ((PanicM.returns_bind_of_ok (liftVm_of_ok h₂)).mpr ?_))
    rw [PanicM.returns_update]
    rfl
  exact hrest.mono fun _ c' hc' => ⟨v, hR, hc'⟩

/-- What `freeproc` does to the table. -/
theorem freeproc_eq_ok {u : Unit} {c' : Core} (h : freeproc L p c = .ok (u, c')) :
    ∃ v, c' = c.freed p v := by
  rw [freeproc, PanicM.read_bind_apply] at h
  obtain ⟨_, _, h₁, h⟩ := PanicM.bind_eq_ok_iff.mp h
  obtain ⟨v₁, -, rfl⟩ := PanicM.zoom_eq_ok_iff.mp h₁
  obtain ⟨_, _, h₂, h⟩ := PanicM.bind_eq_ok_iff.mp h
  obtain ⟨v₂, -, rfl⟩ := PanicM.zoom_eq_ok_iff.mp h₂
  cases h
  exact ⟨v₂, rfl⟩

/-- A process in the table is taken apart. -/
theorem Spaces.freeMemory {image : Mem} {kpt : ℕ} {s : Vm} {pm : SpaceTable}
    {o : Owners} {sp : Space}
    (h : Spaces L image kpt s pm o noRole) (hi : pm i = some sp) :
    (OsKernel.freeMemory L sp).Returns s fun _ s' => Kept (Function.update pm i none) s s' ∧
      ∃ o', Spaces L image kpt s' (Function.update pm i none) o' noRole := by
  rw [OsKernel.freeMemory, if_pos (h.trapframe_lt hi).2.1.ne', if_pos (h.pagetable_lt hi).2.1.ne']
  exact h.free hi

/-- What the log says when `p` empties the slot `i`. -/
structure Vacates (init p i : Slot) (l₀ l : List Event) : Prop where
  others : ∀ j, j ≠ p → j ≠ i → history l j = history l₀ j
  actor : ∃ quiet got, history l p = { history l₀ p with quiet := quiet, got := got }
  slot : ∃ par quiet got, history l i =
    { history l₀ i with parent := par, ended := none, quiet := quiet, got := got }
  orphaned : (history l i).parent = none
  ring : ∀ {k : Cons}, RingOk k l₀ → RingOk k l
  legal : Legal init l₀ → Legal init l
  exits : PositiveExits l₀ → PositiveExits l

theorem Vacates.kin {init j : Slot} {l₀ : List Event} (h : Vacates init p i l₀ l) :
    (history l j).creator = (history l₀ j).creator ∧ (history l j).orphan = (history l₀ j).orphan ∧
      (history l j).trap = (history l₀ j).trap ∧ (history l j).ctx = (history l₀ j).ctx := by
  obtain ⟨_, _, hp⟩ := h.actor
  obtain ⟨_, _, _, hi⟩ := h.slot
  by_cases hjp : j = p
  · rw [hjp, hp]
    exact ⟨rfl, rfl, rfl, rfl⟩
  · by_cases hji : j = i
    · rw [hji, hi]
      exact ⟨rfl, rfl, rfl, rfl⟩
    · rw [h.others j hjp hji]
      exact ⟨rfl, rfl, rfl, rfl⟩

theorem IsName.clear {s : List UInt8} (h : IsName s) : IsName (s.set 0 0) := by
  refine ⟨by rw [List.length_set, h.1], ?_⟩
  exact List.mem_of_getElem? (i := 0) (List.getElem?_set_self (by rw [h.1]; decide))

theorem Proc.clear_blank (pr : Proc) (h : pr.parent = none) : pr.clear.Blank :=
  ⟨rfl, h, rfl, rfl, rfl, rfl, rfl, rfl⟩

/-- A slot that was emptied. -/
theorem SlotOk.clear {cproc : Option Slot} {m : Mem} {k : Cons} {h : History} {pr : Proc}
    (hrun : cproc ≠ some i) (hstack : pr.kstack = kstackVa i) (hname : IsName pr.name)
      (hended : h.ended = none)
    (hpar : pr.parent = none) (hpar' : h.parent = none) : SlotOk cproc m k h i pr.clear where
  running := iff_of_false (by simp [Proc.clear]) hrun
  kstack := hstack
  name := hname.clear
  blank _ := pr.clear_blank hpar
  asleep hs := by cases hs
  chan hc := absurd rfl hc
  empty hc := by cases hc
  killed hk := by cases hk
  ended := hended
  parent := hpar'.trans hpar.symm
  saved hp := by rcases hp with hc | hc | hc <;> cases hc
  frame hp := by rcases hp with hc | hc | hc <;> cases hc

section Vacate

variable {procs : Slot → Proc} {pr : Proc} {H H' : Slot → History} {init : Slot}

/-- A slot whose process nobody has as its parent leaves the tree. -/
theorem Kin.vacate (hk : Kin init procs H) (hstate : ¬(procs i).Started)
    (hu : pr.state = .unused ∨ pr.state = .used) (hpar : pr.parent = none)
    (hH : ∀ j, j ≠ i → (H' j).creator = (H j).creator ∧ (H' j).orphan = (H j).orphan) :
    Kin init (Function.update procs i pr) H' := by
  have hne : ∀ j, j ≠ i → Function.update procs i pr j = procs j := fun j hj =>
    Function.update_of_ne hj ..
  -- parents have started, so the emptied slot has no children
  have hchild : ∀ j q, (Function.update procs i pr j).parent = some q →
      (procs j).parent = some q ∧ q ≠ i ∧ j ≠ i := by
    intro j q hq
    by_cases hj : j = i
    · rw [hj, Function.update_self, hpar] at hq
      cases hq
    · rw [hne j hj] at hq
      exact ⟨hq, fun hqi => hstate (hqi ▸ hk.parent j q hq), hj⟩
  have hinit : init ≠ i := fun h => hstate (h ▸ hk.init_started)
  constructor
  case init_started => exact (hne init hinit).symm ▸ hk.init_started
  case init_parent => exact (hne init hinit).symm ▸ hk.init_parent
  case parent =>
    intro j q hq
    obtain ⟨hold, hqi, -⟩ := hchild j q hq
    rw [hne q hqi]
    exact hk.parent j q hold
  case orphan =>
    intro j hj
    by_cases hji : j = i
    · rw [hji, Function.update_self]
      exact .inr hu
    · rw [hne j hji] at hj ⊢
      exact hk.orphan j hj
  case lineage =>
    intro j q hq
    obtain ⟨hold, -, hji⟩ := hchild j q hq
    rw [History.Heir, (hH j hji).1, (hH j hji).2]
    exact hk.lineage j q hold
  case rank =>
    obtain ⟨rank, h0, hlt⟩ := hk.rank
    exact ⟨rank, h0, fun j q hq => hlt j q (hchild j q hq).1⟩

/-- Nobody waits for the process whose slot is emptied. -/
theorem Waiting.vacate (hwait : Waiting procs) (hp : (procs p).chan = none)
    (hparent : (procs i).parent = none ∨ (procs i).parent = some p) (hpar : pr.parent = none)
    (hchan : pr.chan = none) : Waiting (Function.update procs i pr) := by
  have hne : ∀ j, j ≠ i → Function.update procs i pr j = procs j := fun j hj =>
    Function.update_of_ne hj ..
  intro j q hq
  have hji : j ≠ i := by
    rintro rfl
    rw [Function.update_self, hchan] at hq
    cases hq
  rw [hne j hji] at hq
  obtain ⟨rfl, ⟨ch, hch⟩, hz⟩ := hwait j q hq
  have hqp : q ≠ p := fun h => by rw [h, hp] at hq; cases hq
  refine ⟨rfl, ⟨ch, ?_⟩, fun ch' hch' => ?_⟩
  · rw [hne ch ?_, hch]
    rintro rfl
    rcases hparent with h | h <;> rw [hch] at h
    · cases h
    · exact hqp (Option.some.inj h)
  · by_cases hi : ch' = i
    · rw [hi, Function.update_self, hpar] at hch'
      cases hch'
    · rw [hne ch' hi] at hch' ⊢
      exact hz ch' hch'

/-- Pids are left to fewer processes. -/
theorem Pids.vacate {v₀ : Vm} {n₀ n : BitVec 32} (h : Pids L v₀ n₀ procs) (hu : pr.state = .unused)
    (hmono : v₀.freemem ≤ v.freemem)
    (hnext : L.phystop < v.freemem + 4096 ∨ 0 < n.toNat ∧
      L.heap + n.toNat * 4096 ≤ v.freemem + 4096 ∧ n₀.toNat ≤ n.toNat) :
    Pids L v n (Function.update procs i pr) := by
  have hunused : ∀ j, (Function.update procs i pr j).state ≠ .unused →
      (procs j).state ≠ .unused ∧ Function.update procs i pr j = procs j := by
    intro j hj
    by_cases hji : j = i
    · rw [hji, Function.update_self] at hj
      exact absurd hu hj
    · rw [Function.update_of_ne hji] at hj ⊢
      exact ⟨hj, rfl⟩
  obtain ⟨hpos, hinj, hold⟩ := h
  refine ⟨fun j hj => ?_, fun j q hj hq hjq => ?_, ?_⟩
  · obtain ⟨hj', heq⟩ := hunused j hj
    rw [heq]
    exact hpos j hj'
  · obtain ⟨hj', heqj⟩ := hunused j hj
    obtain ⟨hq', heqq⟩ := hunused q hq
    rw [heqj, heqq] at hjq
    exact hinj j q hj' hq' hjq
  · rcases hnext with h | ⟨h₁, h₂, h₃⟩
    · exact .inl h
    rcases hold with h | ⟨-, -, hlt⟩
    · exact .inl (h.trans_le (Nat.add_le_add_right hmono _))
    · refine .inr ⟨h₁, h₂, fun j hj => ?_⟩
      obtain ⟨hj', heq⟩ := hunused j hj
      rw [heq]
      exact (hlt j hj').trans_le h₃

end Vacate

/-- The data structures after a slot was emptied. -/
def Core.vacated (i : Slot) (v : Vm) (n : BitVec 32) (pr : Proc) (l : List Event) (c : Core) :
    Core :=
  { c with vm := v, nextpid := n, procs := Function.update c.procs i pr.clear, log := l }

theorem Core.spaces_vacated (c : Core) (n : BitVec 32) (pr : Proc) :
    (c.vacated i v n pr l).spaces = Function.update c.spaces i none := by
  funext j
  by_cases hj : j = i
  · subst hj
    rw [Function.update_self]
    exact if_pos (congrArg Proc.state (Function.update_self j pr.clear c.procs))
  · rw [Function.update_of_ne hj]
    exact congrArg (fun q : Proc => if q.state = .unused then none else some q.space)
      (show (c.vacated i v n pr l).procs j = c.procs j from Function.update_of_ne hj ..)

/-- **A slot is emptied.** The process in it has not begun or is a zombie of the running process. -/
theorem Good.vacate {n : BitVec 32} {pr : Proc} (hg : Good L S c) (hw : Working p c) (hip : i ≠ p)
    (hstate : ¬(c.procs i).Started)
    (hparent : (c.procs i).parent = none ∨ (c.procs i).parent = some p)
    (hstack : pr.kstack = kstackVa i) (hname : IsName pr.name) (hpar : pr.parent = none)
    (hkept : Kept (Function.update c.spaces i none) c.vm v)
    (hsp : ∃ o, Spaces L S.image S.kpt v (Function.update c.spaces i none) o noRole)
    (hv : Vacates S.init p i c.log l)
    (hnext : S.bump → L.phystop < v.freemem + 4096 ∨ 0 < n.toNat ∧
      L.heap + n.toNat * 4096 ≤ v.freemem + 4096 ∧ c.nextpid.toNat ≤ n.toNat) :
    Good L S (c.vacated i v n pr l) := by
  have hself : Function.update c.procs i pr.clear i = pr.clear := Function.update_self ..
  have hne : ∀ j, j ≠ i → Function.update c.procs i pr.clear j = c.procs j := fun j hj =>
    Function.update_of_ne hj ..
  constructor
  case kernel => exact hg.kernel
  case initproc => exact hg.initproc
  case spaces =>
    rw [Core.spaces_vacated]
    exact hsp
  case slot =>
    intro j
    show SlotOk c.cproc v.mem c.cons (history l j) j (Function.update c.procs i pr.clear j)
    by_cases hji : j = i
    · subst hji
      obtain ⟨_, _, _, hi⟩ := hv.slot
      rw [hself]
      refine .clear ?_ hstack hname (by rw [hi]) hpar hv.orphaned
      rw [hw.cproc, ne_eq, Option.some.injEq]
      exact hip.symm
    · have hs := hg.slot_kept hkept (Function.update_of_ne hji ..)
      rw [hne j hji]
      by_cases hjp : j = p
      · subst hjp
        obtain ⟨_, _, hp⟩ := hv.actor
        rw [hp]
        exact hs.observe (hg.state_running hw.cproc) (.inr hw.chan) (.inl rfl) rfl rfl
      · rw [hv.others j hjp hji]
        exact hs
  case kin => exact hg.kin.vacate hstate (.inl rfl) hpar fun j _ => ⟨hv.kin.1, hv.kin.2.1⟩
  case waiting => exact hg.waiting.vacate hw.chan hparent hpar rfl
  case ring => exact hv.ring hg.ring
  case fails => exact fun hb => hkept.not_fails (hg.fails hb)
  case pids => exact fun hb => (hg.pids hb).vacate rfl hkept.mono (hnext hb)
  case boot =>
    intro hf j
    obtain ⟨-, -, ht, hc⟩ := hv.kin (j := j)
    show (history l j).ctx = none ∧ (history l j).trap = none
    rw [ht, hc]
    exact hg.boot hf j
  case unloaded =>
    intro hf j
    show (Function.update c.procs i pr.clear j).sz = 0
    by_cases hji : j = i
    · rw [hji, Function.update_self]
      rfl
    · rw [hne j hji]
      exact hg.unloaded hf j
  case home => exact hg.home
  case legal => exact hv.legal hg.legal
  case exits => exact fun hb => hv.exits (hg.exits hb)

/-- The running process goes on. -/
theorem Working.vacate {n : BitVec 32} {pr : Proc} (hg : Good L S c) (hw : Working p c)
    (hip : i ≠ p)
    (hkept : Kept (Function.update c.spaces i none) c.vm v) (hv : Vacates S.init p i c.log l) :
    Working p (c.vacated i v n pr l) := by
  have hproc : (c.vacated i v n pr l).procs p = c.procs p := Function.update_of_ne hip.symm ..
  refine ⟨⟨hw.cproc, fun x hx => ?_, fun j => ?_⟩, by rw [hproc, hw.chan]⟩
  · rw [hproc]
    have hctx : (c.hist p).ctx = some x := (hv.kin.2.2.2).symm.trans hx
    refine (hw.frame x hctx).congr (hkept.frames p (c.procs p).space ?_)
    rw [Function.update_of_ne hip.symm, hg.spaces_running hw.cproc]
  · show (Function.update c.procs i pr.clear j).state ≠ .used
    by_cases hj : j = i
    · rw [hj, Function.update_self]
      exact fun h => by cases h
    · rw [Function.update_of_ne hj]
      exact hw.complete j

theorem Spares.vacate {n : BitVec 32} {pr : Proc}
    (hkept : Kept (Function.update c.spaces i none) c.vm v) :
    Spares (· = i) c (c.vacated i v n pr l) :=
  Kept.spares hkept fun j hj => by rw [c.spaces_vacated, Function.update_of_ne hj]

end OsKernel
