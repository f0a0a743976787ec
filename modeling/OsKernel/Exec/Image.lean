import OsKernel.Exec.Load
import OsKernel.Kernel.Labels

/-!
# `kexec` of the running process

`execLoad_spec` says what `kexec` does to memory. Here it is put into the kernel: the running
process has the image it had or a new one, the invariant is kept, and the other processes do not
notice. `kexec` stops the machine only if the program table leads it outside memory.
-/

namespace OsKernel

variable {L : Layout} {S : Site} {N : Env} {h₀ : Hart} {b : Bool} {c c' : Core} {p : Slot} {v : Vm}
  {pt sz : ℕ} {name : List UInt8}

/-! ### A new image -/

/-- A process with another page table and another name. -/
def Proc.withImage (pt sz : ℕ) (name : List UInt8) (pr : Proc) : Proc :=
  { pr with pagetable := pt, sz := sz, name := name }

theorem Core.spaces_withImage (name : List UInt8) (hne : (c.procs p).state ≠ .unused) :
    (c.setProc p (Proc.withImage pt sz name)).spaces =
      Function.update c.spaces p (some ⟨(c.procs p).trapframe, pt, sz⟩) := by
  funext i
  by_cases hi : i = p
  · subst hi
    rw [Function.update_self, Core.spaces, c.setProc_self i (Proc.withImage pt sz name)]
    exact if_neg hne
  · rw [Function.update_of_ne hi, Core.spaces, c.setProc_ne (Proc.withImage pt sz name) hi]
    rfl

/-- The running process gets another image, and the memory of the other processes stays. -/
theorem Good.setImage (hg : Good L S c) (hp : c.cproc = some p) (hf : c.first = false)
    (hname : IsName name)
    (hkept : Kept (Function.update c.spaces p none) c.vm v)
    (hsp : ∃ o, Spaces L S.image S.kpt v
      (Function.update c.spaces p (some ⟨(c.procs p).trapframe, pt, sz⟩)) o noRole) :
    Good L S ((c.setProc p (Proc.withImage pt sz name)).setVm v) := by
  have hrun := hg.state_running hp
  have hfield : ∀ {α : Type} (f : Proc → α), (∀ pr, f (Proc.withImage pt sz name pr) = f pr) →
      ∀ i, f ((c.setProc p (Proc.withImage pt sz name)).procs i) = f (c.procs i) := fun f hf =>
    Core.forall_setProc (P := fun i pr => f pr = f (c.procs i)) (hf _) fun _ _ => rfl
  have hparent := hfield Proc.parent fun _ => rfl
  have hstate := hfield Proc.state fun _ => rfl
  constructor
  case kernel => exact hg.kernel
  case initproc => exact hg.initproc
  case spaces =>
    rw [← Core.spaces_withImage name (by rw [hrun]; decide)] at hsp
    exact hsp
  case slot =>
    refine Core.forall_setProc (c := c) (f := Proc.withImage pt sz name)
      (P := fun i pr => SlotOk c.cproc v.mem c.cons (c.hist i) i pr) ?_ fun i hi =>
        hg.slot_kept hkept (Function.update_of_ne hi ..)
    exact { hg.slot p with
      name := hname
      blank := fun hu => absurd (hrun.symm.trans hu) (by decide)
      saved := fun hpark => absurd hrun hpark.not_running
      frame := fun hpark => absurd hrun hpark.not_running }
  case kin => exact hg.kin.of_eq hparent hstate
  case waiting => exact hg.waiting.of_eq (hfield Proc.chan fun _ => rfl) hparent hstate
  case ring => exact hg.ring
  case fails => exact fun hb => hkept.not_fails (hg.fails hb)
  case pids =>
    exact fun hb => ((hg.pids hb).congr (hfield Proc.pid fun _ => rfl) fun i => by rw [hstate]).mono
      hkept.mono
  case boot => exact hg.boot
  case unloaded => exact fun h => absurd (hf.symm.trans h) (by decide)
  case home => exact hg.home
  case legal => exact hg.legal
  case exits => exact hg.exits

/-- What `kexec` keeps of its caller. -/
structure ExecKeeps (L : Layout) (S : Site) (p : Slot) (c c' : Core) : Prop where
  working : Working p c'
  good : Good L S c'
  first : c'.first = c.first
  trap : (c'.hist p).trap = (c.hist p).trap
  ctx : (c'.hist p).ctx = (c.hist p).ctx ∨ (c'.hist p).ctx = none
  spares : Spares (· = p) c c'

theorem ExecKeeps.of_drift {c₁ : Core} (h : ExecKeeps L S p c₁ c') (hd : Drift c c₁) :
    ExecKeeps L S p c c' :=
  ⟨h.working, h.good, h.first.trans hd.first, by rw [h.trap, hd.hist],
    by rw [← hd.hist]; exact h.ctx, hd.spares.trans h.spares⟩

/-- A `kexec` that has failed. -/
theorem ExecFailed.keeps (h : ExecFailed L S.image S.kpt c.spaces c c') (hg : Good L S c)
    (hw : Working p c) : ExecKeeps L S p c c' := by
  obtain ⟨v, o, rfl, hkept, hsp⟩ := h
  have hg' := hg.setVm hw.cproc (hkept.without p) ⟨o, hsp⟩
  have hframe := hkept.frames p _ (hg.spaces_running hw.cproc)
  exact ⟨⟨⟨hw.cproc, fun x hx => (hw.frame x hx).congr hframe, hw.complete⟩, hw.chan⟩,
    hg', rfl, rfl, .inl rfl, (hkept.without p).spares fun _ _ => rfl⟩

/-- The process may be given a new image. -/
def MayExec (h : History) : Prop := (∃ t, h.InCall t ∧ t.number = 7) ∨ h.ctx = none

/-- The state after a `kexec` that has succeeded. -/
theorem execCommit_setVm (c : Core) (v₁ v : Vm) (p : Slot) (pt total : ℕ) (name : List UInt8) :
    ((c.setVm v₁).execCommit p pt total name).setVm v =
      ((c.emit (.execed p)).setProc p
        (Proc.withImage pt total (safestrcpy (c.procs p).name name 16))).setVm v := rfl

/-- A `kexec` that has succeeded. -/
theorem Execed.keeps {start size : ℕ}
    (h : Execed L S.image S.kpt c.spaces p (c.procs p).trapframe pt start size name c c')
    (hg : Good L S c) (hw : Working p c) (hf : c.first = false) (hmay : MayExec (c.hist p)) :
    ExecKeeps L S p c c' := by
  obtain ⟨v₁, v, o, rfl, hkept, hsp, -, -⟩ := h
  have hrun := hg.state_running hw.cproc
  have hself : history (.execed p :: c.log) p = { history c.log p with ctx := none } :=
    Function.update_self ..
  rw [execCommit_setVm]
  have hg₁ : Good L S (c.emit (.execed p)) := by
    refine hg.emit rfl trivial hmay ?_ fun hf => ?_
    · rw [hself]
      exact (hg.slot p).observe hrun (.inr hw.chan) (.inl rfl) rfl rfl
    · rw [hself]
      exact ⟨rfl, (hg.boot hf p).2⟩
  have hg₂ := hg₁.setImage hw.cproc hf ((hg.slot p).name.safestrcpy name) hkept ⟨o, hsp⟩
  have hproc := (c.emit (.execed p)).setProc_self p
    (Proc.withImage pt (execTotal size) (safestrcpy (c.procs p).name name 16))
  refine ⟨⟨⟨hw.cproc, fun x hx => ?_, ?_⟩, ?_⟩, hg₂, rfl, ?_, .inr ?_, ?_⟩
  · rw [Core.hist] at hx
    exact absurd (hx.symm.trans (congrArg History.ctx hself)) (by simp)
  · exact Core.forall_setProc (c := c.emit (.execed p)) (P := fun _ pr => pr.state ≠ .used)
      (hw.complete p) fun i _ => hw.complete i
  · exact (congrArg Proc.chan hproc).trans hw.chan
  · show (history (.execed p :: c.log) p).trap = _
    rw [hself]
    rfl
  · exact congrArg History.ctx hself
  · refine Kept.spares hkept fun i hi => ?_
    exact (congrFun (Core.spaces_withImage _ (c := c.emit (.execed p)) (by
      rw [show ((c.emit (.execed p)).procs p).state = _ from hrun]; decide)) i).trans
      (Function.update_of_ne hi ..)

/-! ### `kexec` -/

/-- `kexec` can load the program of this name: it is in the table, and there are pages for its
image. -/
def Core.Loadable (L : Layout) (name : List UInt8) (c : Core) : Prop :=
  ∃ up, c.findUprog L name = .found up ∧
    ExecFits L c.vm (execSize (c.vm.mem.load64 up) (c.vm.mem.load64 (up + 8)))

theorem Core.loadable_congr (h : c'.vm = c.vm) : c'.Loadable L name ↔ c.Loadable L name := by
  simp only [Core.Loadable, Core.findUprog, h]

/-- The first program of the table can be loaded if there are pages for it. -/
theorem Core.loadable_ofTable {e : Entry} {es : List Entry}
    (hfits : L.uprogTable + ((e :: es).flatMap Entry.bytes).length + 16 ≤ L.heap)
    (hm : ∀ a, a < L.heap → c.vm.mem a = Mem.ofTable L (e :: es) a) (hle : e.start ≤ e.stop)
    (hroom : ExecFits L c.vm (e.stop - e.start)) : c.Loadable L e.name := by
  obtain ⟨hfound, hstart, hstop⟩ := Core.findUprog_ofTable hfits hm
  refine ⟨_, hfound, ?_⟩
  rwa [hstart, hstop, execSize_eq hle e.stop_lt]

/-- How `kexec` ends: it fails and leaves everything, or it has loaded a program. -/
def ExecEnds (L : Layout) (S : Site) (N : Env) (p : Slot) (path : List UInt8) (c : Core)
    (v : BitVec 32) (c' : Core) : Prop :=
  v = -1 ∧ (∃ c₁, N.Rel c c₁ ∧ ExecFailed L S.image S.kpt c₁.spaces c₁ c') ∧
      (trimLen path path.length ≠ 0 → ¬c.Loadable L (path.take (trimLen path path.length))) ∨
    v = 0 ∧ c.Loadable L (path.take (trimLen path path.length)) ∧
      ∃ c₁ up pt start size, N.Rel c c₁ ∧
      c₁.findUprog L (path.take (trimLen path path.length)) = .found up ∧
      start = c₁.vm.mem.load64 up ∧ size = execSize start (c₁.vm.mem.load64 (up + 8)) ∧
      Execed L S.image S.kpt c₁.spaces p (c₁.procs p).trapframe pt start size
        (path.take (trimLen path path.length)) c₁ c'

/-- **`kexec`.** -/
theorem kexec_runs {path : List UInt8} (hg : Good L S c) (hw : Working p c) (hf : c.first = false)
    (hmay : MayExec (c.hist p)) (hpath : (0 : UInt8) ∉ path) :
    Runs L S N h₀ (kexec L path) (.unlocked b) c fun v μ c' =>
      μ = .unlocked b ∧ ExecKeeps L S p c c' ∧ ExecEnds L S N p path c v c' := by
  have hfailed : ∀ {c₁}, Good L S c₁ → ExecFailed L S.image S.kpt c₁.spaces c₁ c₁ := by
    intro c₁ hg₁
    obtain ⟨o, hsp⟩ := hg₁.spaces
    exact ⟨c₁.vm, o, rfl, .refl _ _, hsp⟩
  refine does_ite (fun h0 => ?_) fun _ => ?_
  · have hf := hfailed hg
    exact does_pure ⟨rfl, hf.keeps hg hw, .inl ⟨rfl, ⟨c, N.refl c, hf⟩, absurd h0⟩⟩
  have hname : (0 : UInt8) ∉ path.take (trimLen path path.length) := fun h =>
    hpath (List.mem_of_mem_take h)
  generalize hn : path.take (trimLen path path.length) = name at hname
  refine .bind (Unlocked.getCore fun c₁ hd₁ hg₁ => ?_)
  replace hg₁ : Good L S c₁ := hg₁
  have himage : ∀ {c₂}, Good L S c₂ → ∀ a, a < L.heap → c₂.vm.mem a = S.image a := by
    intro c₂ hg₂
    obtain ⟨o, hsp⟩ := hg₂.spaces
    exact hsp.image
  cases hup : c₁.findUprog L name with
  | fault =>
    refine does_kpanic (.inr ⟨fun hok => ?_, .inr rfl⟩)
    rcases hok.lookup (himage hg₁) hname with h | ⟨up, h, -⟩ <;>
      exact absurd (hup.symm.trans h) (by simp)
  | null =>
    have hf := hfailed hg₁
    refine does_pure ⟨rfl, (hf.keeps hg₁ (hw.drift (N.drift hd₁))).of_drift (N.drift hd₁),
      .inl ⟨rfl, ⟨c₁, hd₁, hf⟩, fun _ hload => ?_⟩⟩
    rw [hn, ← Core.loadable_congr (N.drift hd₁).vm] at hload
    obtain ⟨up, hfound, -⟩ := hload
    exact absurd (hup.symm.trans hfound) (by simp)
  | found up =>
    refine .bind (Unlocked.myproc fun c₂ hd₂ hg₂ => ?_)
    have hd₂ := N.trans hd₁ hd₂
    rw [(hw.drift (N.drift hd₂)).cproc]
    refine .bind (does_deref (Unlocked.coreAtomic fun c₃ hd₃ hg₃ => ?_))
    have hd₃ := N.trans hd₂ hd₃
    replace hg₃ : Good L S c₃ := hg₃
    have hw₃ := hw.drift (N.drift hd₃)
    -- the table is as it was at the lookup: what came in between has left the memory alone
    have hup₃ : c₃.findUprog L name = .found up := by
      rw [← hup, Core.findUprog, Core.findUprog, (N.drift hd₃).vm, (N.drift hd₁).vm]
    obtain ⟨o, hsp⟩ := hg₃.spaces
    rcases execLoad_spec hsp (hg₃.spaces_running hw₃.cproc) up name rfl rfl with
      ⟨herr, hbig⟩ | hret
    · -- an image that does not fit the address space is not in a table that is in order
      refine .inr ⟨_, herr, .inr ⟨fun hok => ?_, .inl rfl⟩⟩
      rcases hok.lookup (himage hg₃) hname with h | ⟨up', h, hle, htop⟩
      · exact absurd (hup₃.symm.trans h) (by simp)
      · obtain rfl : up = up' := by simpa using hup₃.symm.trans h
        have hstop := L.phystop_le
        rw [execSize_eq hle (by omega)] at hbig
        exact absurd hbig (execTotal_le (L := L) ((Nat.sub_le _ _).trans htop)).not_gt
    · refine .inl (hret.mono ?_)
      rintro v c' (⟨rfl, hf, hpoor⟩ | ⟨rfl, ⟨pt, hx⟩, hfits⟩)
      · have hk := hf.keeps hg₃ hw₃
        refine ⟨hk.good, rfl, hk.of_drift (N.drift hd₃), .inl ⟨rfl, ⟨c₃, hd₃, hf⟩, ?_⟩⟩
        intro _ hload
        rw [hn, ← Core.loadable_congr (N.drift hd₃).vm] at hload
        obtain ⟨up', hfound, hfits⟩ := hload
        obtain rfl : up = up' := by simpa using hup₃.symm.trans hfound
        exact hpoor hfits
      · have hk := hx.keeps hg₃ hw₃ ((N.drift hd₃).first.trans hf)
          (by rw [(N.drift hd₃).hist]; exact hmay)
        refine ⟨hk.good, rfl, hk.of_drift (N.drift hd₃), .inr ⟨rfl, ?_,
          c₃, up, pt, _, _, hd₃, hn ▸ hup₃, rfl, rfl, hn ▸ hx⟩⟩
        rw [hn, ← Core.loadable_congr (N.drift hd₃).vm]
        exact ⟨up, hup₃, hfits⟩

/-! ### `kexec` left alone -/

/-- An image there are pages for fits the address space. -/
theorem ExecFits.le {s : Vm} {size : ℕ} (h : ExecFits L s size) : execTotal size ≤ 2 ^ 38 := by
  have hroom := h.2.room
  have hstop := L.phystop_le
  simp only [userPages] at hroom
  omega

theorem Solo.kexec_null {path : List UInt8} {μ : Mode}
    (hnull : c.findUprog L (path.take (trimLen path path.length)) = .null) :
    Does L .solo h₀ (OsKernel.kexec L path) μ c fun v μ' c' => v = -1 ∧ μ' = μ ∧ c' = c := by
  refine does_ite (fun _ => does_pure ⟨rfl, rfl, rfl⟩) fun _ => .bind (Solo.getCore ?_)
  rw [hnull]
  exact does_pure ⟨rfl, rfl, rfl⟩

/-- **`kexec` of a program that can be loaded**, left alone. -/
theorem Solo.kexec {path : List UInt8} {μ : Mode} {image : Mem} {kpt : ℕ} {o : Owners}
    (hp : c.cproc = some p) (hsp : Spaces L image kpt c.vm c.spaces o noRole)
    (hlive : (c.procs p).state ≠ .unused) (hlen : trimLen path path.length ≠ 0)
    (hload : c.Loadable L (path.take (trimLen path path.length))) :
    Does L .solo h₀ (kexec L path) μ c fun v μ' c' => v = 0 ∧ μ' = μ ∧ ∃ pt up,
      c.findUprog L (path.take (trimLen path path.length)) = .found up ∧
      Execed L image kpt c.spaces p (c.procs p).trapframe pt (c.vm.mem.load64 up)
        (execSize (c.vm.mem.load64 up) (c.vm.mem.load64 (up + 8)))
        (path.take (trimLen path path.length)) c c' := by
  obtain ⟨up, hup, hfits⟩ := hload
  rw [OsKernel.kexec, if_neg hlen]
  refine .bind (Solo.getCore ?_)
  rw [hup]
  refine Solo.myproc_bind hp (Solo.coreAtomic ?_)
  rcases execLoad_spec hsp (Core.spaces_of_ne hlive) up _ rfl rfl with ⟨-, hbig⟩ | hret
  · exact absurd hbig hfits.le.not_gt
  · refine hret.mono ?_
    rintro v c' (⟨-, -, hpoor⟩ | ⟨rfl, ⟨pt, hx⟩, -⟩)
    · exact absurd hfits hpoor
    · exact ⟨rfl, rfl, pt, up, rfl, hx⟩

end OsKernel
