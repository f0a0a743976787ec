import OsKernel.Proc.Freeproc

/-!
# `allocproc`

`allocproc` looks for an unused slot and makes a process in it: a pid, a page for the trapframe,
a page table. Until the lock of the slot is given up nobody sees the process; either it is complete
then, with its memory as `Spaces` wants it, or the slot is empty again and the pages are freed.
-/

namespace OsKernel

variable {L : Layout} {S : Site} {D : Discipline} {h₀ : Hart} {b : Bool} {c : Core} {p i : Slot}
  {v v' : Vm} {image : Mem} {kpt : ℕ} {pm : SpaceTable}

/-! ### A process in the making -/

/-- The data structures while `allocproc` works on the slot `i`, after `allocpid`. -/
def Core.making (i : Slot) (v : Vm) (pr : Proc) (c : Core) : Core :=
  { c with vm := v, nextpid := c.nextpid + 1, procs := Function.update c.procs i pr }

theorem Core.making_self (c : Core) (i : Slot) (v : Vm) (pr : Proc) :
    (c.making i v pr).procs i = pr := Function.update_self ..

theorem Core.making_ne (c : Core) {i j : Slot} (v : Vm) (pr : Proc) (h : j ≠ i) :
    (c.making i v pr).procs j = c.procs j := Function.update_of_ne h ..

theorem Core.making_setProc (c : Core) (i : Slot) (v : Vm) (pr : Proc) (f : Proc → Proc) :
    (c.making i v pr).setProc i f = c.making i v (f pr) := by
  simp [Core.setProc, Core.making]

theorem Core.making_freed (c : Core) (i : Slot) (v v' : Vm) (pr : Proc) :
    (c.making i v pr).freed i v' = c.vacated i v' (c.nextpid + 1) pr
      (.freed c.cproc i :: c.log) := by
  simp [Core.freed, Core.making, Core.vacated, Core.setProc, Core.setVm, Core.emit]

/-- The process `allocproc` makes. -/
def Proc.fresh (pid : BitVec 32) (tf pt : ℕ) (pr : Proc) : Proc :=
  { pr with
    pid := pid
    state := .used
    trapframe := tf
    pagetable := pt
    context := some .forkret }

theorem toNat_succ_pid {n : BitVec 32} (h : n.toNat < 2 ^ 27) : (n + 1).toNat = n.toNat + 1 := by
  bv_omega

/-- `allocpid` inside a critical section. -/
theorem Locked.allocpid {ls : Finset Lock} {Q : BitVec 32 → Mode → Core → Prop}
    (hlk : Lock.pid ∉ ls) (hls : ls.Nonempty)
    (h : Q c.nextpid (.locked ls b) { c with nextpid := c.nextpid + 1 }) :
    Does L D h₀ allocpid (.locked ls b) c Q := by
  refine .bind (Locked.acquire hlk (.bind (Locked.getCore (.bind (Locked.modCore (.bind ?_))))))
  exact Locked.release_inner hlk hls (does_pure h)

/-! ### The slot that was found -/

/-- The process has got its memory. -/
structure Made (L : Layout) (image : Mem) (kpt : ℕ) (pm : SpaceTable) (i : Slot) (v v' : Vm)
    (tf pt : ℕ) : Prop where
  kept : Kept pm v v'
  spaces : ∃ o, Spaces L image kpt v' (Function.update pm i (some ⟨tf, pt, 0⟩)) o noRole
  took : Took L 4 v v'

/-- The process could not get its memory, and what it had is freed. -/
structure Unmade (L : Layout) (image : Mem) (kpt : ℕ) (pm : SpaceTable) (v v' : Vm) : Prop where
  kept : Kept pm v v'
  spaces : ∃ o, Spaces L image kpt v' pm o noRole
  starved : Starved L v v' ∨ v.freemem + 4096 ≤ v'.freemem

/-- The pages in hand make up the process. -/
theorem Spaces.made {o : Owners} {tf pt : ℕ} (h : Spaces L image kpt v' pm o
      fun q ρ => (q = tf ∧ ρ = .trapframe i) ∨ ρ.Under pt) (hi : pm i = none)
    (htf : o tf = some (.trapframe i)) (hpt : o pt = some (.table pt 2 0)) (hk : pt ≠ kpt)
    (hshape : UserShape L v'.mem pt 0 tf) :
    Spaces L image kpt v' (Function.update pm i (some ⟨tf, pt, 0⟩)) o noRole := by
  have hsp : Spaces L image kpt v' pm o fun q ρ => noRole q ρ ∨ Pages i ⟨tf, pt, 0⟩ q ρ :=
    { h with exact := fun q ρ hq => (h.exact q ρ hq).imp_left .inr }
  exact hsp.attach hi ⟨htf, hpt, hk, hshape⟩

/-- **`allocproc` in the slot it has found.** -/
theorem allocprocFound_does {Q : Option Slot → Mode → Core → Prop} {o : Owners}
    (hblank : (c.procs i).Blank) (hsp : Spaces L image kpt c.vm pm o noRole) (hi : pm i = none)
    (hmade : ∀ v tf pt, Made L image kpt pm i c.vm v tf pt →
      Q (some i) (.locked {.proc i} b) (c.making i v ((c.procs i).fresh c.nextpid tf pt)))
    (hunmade : ∀ v pr, pr.kstack = (c.procs i).kstack → pr.name = (c.procs i).name →
      pr.parent = none → Unmade L image kpt pm c.vm v → ¬Supply L c.vm 4 →
      Does L D h₀ (do release (.proc i); return none) (.locked {.proc i} b)
        (c.vacated i v (c.nextpid + 1) pr (.freed c.cproc i :: c.log)) Q) :
    Does L D h₀ (allocprocFound L i) (.locked {.proc i} b) c Q := by
  obtain ⟨pr, hpr⟩ : ∃ pr : Proc, pr = { c.procs i with pid := c.nextpid, state := .used } :=
    ⟨_, rfl⟩
  have hzero : pr.trapframe = 0 ∧ pr.pagetable = 0 ∧ pr.sz = 0 ∧ pr.parent = none := by
    rw [hpr]
    exact ⟨hblank.trapframe, hblank.pagetable, hblank.sz, hblank.parent⟩
  refine .bind (Locked.allocpid (by simp) (by simp) (.bind (Locked.modCore ?_)))
  show Does L D h₀ _ _ (c.making i c.vm { c.procs i with pid := c.nextpid, state := .used }) _
  rw [← hpr]
  refine .bind (Locked.coreAtomic (returns_liftVm.mpr ((hsp.kalloc hi).mono ?_)))
  rintro tf v₁ ⟨hkept₁, hcase⟩
  refine .bind (Locked.modCore ?_)
  show Does L D h₀ _ _ ((c.making i v₁ pr).setProc i fun pr => { pr with trapframe := tf }) _
  rw [Core.making_setProc]
  -- on failure the slot is emptied
  have hfree : ∀ {v₂ : Vm} {pr' : Proc}, pr'.kstack = pr.kstack → pr'.name = pr.name →
      pr'.parent = none → ¬Supply L c.vm 4 → (freeMemory L pr'.space).Returns v₂
        (fun _ v' => Unmade L image kpt pm c.vm v') →
      Does L D h₀ (do coreAtomic (freeproc L i); release (.proc i); return none)
        (.locked {.proc i} b) (c.making i v₂ pr') Q := by
    intro v₂ pr' hstack hname hpar hpoor hmem
    refine .bind
      (Locked.coreAtomic ((freeproc_returns (R := Unmade L image kpt pm c.vm) ?_).mono ?_))
    · rw [Core.making_self]
      exact hmem
    · rintro _ _ ⟨v', hun, rfl⟩
      rw [Core.making_freed]
      exact hunmade v' pr' (hstack.trans (by rw [hpr])) (hname.trans (by rw [hpr])) hpar hun hpoor
  rcases hcase with ⟨rfl, hstarved, hpoor, hsp₁⟩ | ⟨htf0, htook₁, o₁, htf, hsp₁⟩
  · -- no page for the trapframe: there is nothing to free
    rw [if_pos rfl]
    refine hfree rfl rfl hzero.2.2.2 (fun hs => hpoor (hs.mono (by omega))) ?_
    show (freeMemory L ⟨0, pr.pagetable, pr.sz⟩).Returns v₁ _
    rw [freeMemory, if_neg (not_not.mpr rfl), if_neg (not_not.mpr hzero.2.1)]
    exact PanicM.returns_pure.mpr ⟨hkept₁, ⟨o, hsp₁⟩, .inl hstarved⟩
  · rw [if_neg htf0]
    refine .bind (Locked.coreAtomic (returns_liftVm.mpr ((hsp₁.procPagetable htf).mono ?_)))
    rintro pt v₂ ⟨hkept₂, -, hcase⟩
    have hkept := hkept₁.trans hkept₂
    refine .bind (Locked.modCore ?_)
    show Does L D h₀ _ _ ((c.making i v₂ { pr with trapframe := tf }).setProc i fun pr =>
      { pr with pagetable := pt }) _
    rw [Core.making_setProc]
    rcases hcase with ⟨rfl, hpoor, o₂, htf₂, hsp₂⟩ |
      ⟨hpt0, hk, -, hshape, -, htook₂, o₂, hroles, hroot, -, hsp₂⟩
    · rw [if_pos rfl]
      refine hfree rfl rfl hzero.2.2.2 (fun hs => hpoor (htook₁.supply_iff.mpr hs)) ?_
      show (freeMemory L ⟨tf, 0, pr.sz⟩).Returns v₂ _
      rw [freeMemory, if_pos htf0, if_neg (not_not.mpr rfl)]
      refine (hsp₂.kfree htf₂ hi (Y := noRole) fun q ρ h => .inl h).bind ?_
      rintro _ v₃ ⟨hkept₃, -, o₃, -, hsp₃⟩
      have hgrown := htook₁.freemem
      have hmono := hkept₂.mono.trans hkept₃.mono
      exact PanicM.returns_pure.mpr ⟨hkept.trans hkept₃, ⟨o₃, hsp₃⟩, .inr (by omega)⟩
    · rw [if_neg hpt0]
      refine .bind (Locked.modCore (does_pure ?_))
      rw [Core.making_setProc, hpr]
      exact hmade v₂ tf pt ⟨hkept, ⟨o₂, hsp₂.made hi (hroles _ _ htf) hroot hk hshape⟩,
        htook₁.trans htook₂⟩

/-! ### A slot is tried -/

/-- The event of `freeproc` for a slot that held no process before. -/
theorem Good.vacates_freed (hg : Good L S c) (hp : c.cproc = some p) (hip : i ≠ p)
    (hu : (c.procs i).state = .unused) :
    Vacates S.init p i c.log (.freed c.cproc i :: c.log) := by
  have hslot := hg.slot i
  have hended : (history c.log i).ended = none :=
    hslot.ended.trans (if_neg (by rw [hu]; decide))
  have hpar : (history c.log i).parent = none := hslot.parent.trans (hslot.blank hu).parent
  have hi : history (.freed c.cproc i :: c.log) i = history c.log i := by
    simp [observe, disturb, hp, hip.symm]
  constructor
  case others =>
    intro j hjp _
    simp [observe, disturb, hp, hjp.symm]
  case actor =>
    refine ⟨false, (history c.log p).got, ?_⟩
    simp [observe, disturb, hp]
  case slot =>
    refine ⟨none, (history c.log i).quiet, (history c.log i).got, ?_⟩
    rw [hi]
    simp only [← hended, ← hpar]
  case orphaned => rw [hi, hpar]
  case ring => exact fun hr => ⟨hr.fits, hr.committed, hr.full, hr.content, hr.echo⟩
  case legal => exact fun hl => hl.cons hended
  case exits => exact fun h => h.cons (by simp)

/-- The data structures after a slot was tried in vain. -/
structure Tried (L : Layout) (S : Site) (p i : Slot) (c c' : Core) : Prop where
  unused : (c.procs i).state = .unused
  good : Good L S c'
  working : Working p c'
  same : (c'.hist p).trap = (c.hist p).trap ∧ (c'.hist p).ctx = (c.hist p).ctx
  cleared : (c'.procs i).state = .unused
  others : ∀ j, j ≠ i → c'.procs j = c.procs j
  spares : Spares (fun _ => False) c c'

/-- **A slot is tried in vain**, and is empty again. -/
theorem Good.tried (hg : Good L S c) (pr : Proc) (hw : Working p c)
    (hu : (c.procs i).state = .unused) (hstack : pr.kstack = (c.procs i).kstack)
    (hname : IsName pr.name) (hpar : pr.parent = none)
    (hun : Unmade L S.image S.kpt c.spaces c.vm v) :
    Tried L S p i c (c.vacated i v (c.nextpid + 1) pr (.freed c.cproc i :: c.log)) := by
  have hip : i ≠ p := by
    rintro rfl
    rw [hg.state_running hw.cproc] at hu
    cases hu
  have hnone : Function.update c.spaces i none = c.spaces :=
    Function.update_eq_self_iff.mpr (Core.spaces_of_unused hu).symm
  have hkept : Kept (Function.update c.spaces i none) c.vm v := by rw [hnone]; exact hun.kept
  have hvac := hg.vacates_freed hw.cproc hip hu
  constructor
  case unused => exact hu
  case working => exact .vacate hg hw hip hkept hvac
  case same => exact ⟨hvac.kin.2.2.1, hvac.kin.2.2.2⟩
  case cleared => exact congrArg Proc.state (Function.update_self i pr.clear c.procs)
  case others => exact fun j hj => Function.update_of_ne hj ..
  case spares =>
    refine ⟨fun j sp _ hj => ?_, fun j sp _ => hun.kept.frames j sp, fun j sp _ =>
      hun.kept.space j sp⟩
    rwa [c.spaces_vacated, hnone]
  case good =>
    refine hg.vacate hw hip ?_ (.inl ((hg.slot i).blank hu).parent)
      (hstack.trans (hg.slot i).kstack) hname hpar hkept (by rw [hnone]; exact hun.spaces) hvac
      fun hb => ?_
    · rintro (h | h | h) <;> rw [hu] at h <;> cases h
    -- a pid was used up; either it has cost a page or there is none left
    rcases hun.starved with (⟨n, hn⟩ | hstarved) | hgrown
    · rw [hg.fails hb n] at hn
      cases hn
    · exact .inl hstarved
    rcases (hg.pids hb).next with hfull | ⟨hpos, hle, -⟩
    · exact .inl (by omega)
    obtain ⟨o, hsp⟩ := hun.spaces
    have hstop := hsp.inv.le_phystop
    have hword := L.phystop_le
    rw [toNat_succ_pid (by omega)]
    refine .inr ⟨Nat.succ_pos _, ?_, Nat.le_succ _⟩
    rw [Nat.succ_mul, ← Nat.add_assoc]
    exact Nat.add_le_add_right (hle.trans hgrown) 4096

/-! ### The loop of `allocproc` -/

section Scan

variable {N : Env} {Q : Option Slot → Mode → Core → Prop}

/-- **`allocproc`** finds no slot, tries one in vain, or makes a process. -/
theorem allocprocScan_runs : ∀ (ps : List Slot) {c : Core}, Good L S c → Working p c →
    (∀ c', N.Rel c c' → Good L S c' → (∀ i ∈ ps, (c'.procs i).state ≠ .unused) →
      Q none (.unlocked b) c') →
    (∀ c₁ i c', N.Rel c c₁ → Tried L S p i c₁ c' → ¬Supply L c₁.vm 4 → Q none (.unlocked b) c') →
    (∀ c₁ i v tf pt, N.Rel c c₁ → Good L S c₁ → (c₁.procs i).state = .unused →
      Made L S.image S.kpt c₁.spaces i c₁.vm v tf pt →
      Q (some i) (.locked {.proc i} b) (c₁.making i v ((c₁.procs i).fresh c₁.nextpid tf pt))) →
    Runs L S N h₀ (allocprocScan L ps) (.unlocked b) c Q
  | [], c, hg, _, hnone, _, _ => does_pure (hnone c (N.refl c) hg (by simp))
  | i :: ps, c, _, hw, hnone, htried, hmade => by
    refine .bind (Unlocked.acquire fun c₁ hd₁ hg₁ => .bind (Locked.getCore (does_ite (fun hu => ?_)
      fun hlive => .bind (Locked.release_last hg₁ ?_))))
    all_goals
      replace hg₁ : Good L S c₁ := hg₁
      have hw₁ := hw.drift (N.drift hd₁)
    · obtain ⟨o, hsp⟩ := hg₁.spaces
      refine allocprocFound_does ((hg₁.slot i).blank hu) hsp (Core.spaces_of_unused hu)
        (fun v tf pt hm => hmade c₁ i v tf pt hd₁ hg₁ hu hm) ?_
      intro v pr hstack hname hpar hun hpoor
      have ht := hg₁.tried _ hw₁ hu hstack (hname ▸ (hg₁.slot i).name) hpar hun
      exact .bind (Locked.release_last ht.good (does_pure (htried c₁ i _ hd₁ ht hpoor)))
    · refine allocprocScan_runs ps hg₁ hw₁ (fun c' hd hg' hps => hnone c' (N.trans hd₁ hd) hg' ?_)
        (fun c₂ j c' hd => htried c₂ j c' (N.trans hd₁ hd))
        fun c₂ j v tf pt hd => hmade c₂ j v tf pt (N.trans hd₁ hd)
      intro j hj
      rcases List.mem_cons.mp hj with rfl | hj
      · exact fun hu => hlive (((N.drift hd).state_iff (by decide) (by decide)).mp hu)
      · exact hps j hj

end Scan

end OsKernel
