import OsKernel.Console.Read
import OsKernel.Exec.Image
import OsKernel.Proc.Exit
import OsKernel.Proc.Fork
import OsKernel.Proc.Wait
import OsKernel.Trap.Frame

/-!
# System calls

`syscall` reads the number and the arguments of a call from the trapframe, where `uservec` has put
the registers of the process, and leads to the function that does the work. Whatever the call, it
ends at a label of the process with the invariant kept, and has touched the memory of no other
process.
-/

namespace OsKernel

variable {L : Layout} {S : Site} {N : Env} {h₀ : Hart} {b : Bool} {c c₀ c' : Core} {p : Slot}
  {t : Trap} {X : Slot → Prop}

/-! ### Arguments -/

/-- The trapframe holds the registers the call was made with. -/
theorem Working.arg (hw : Working p c) (hcall : (c.hist p).InCall t) (r : Reg) :
    c.tfLoad p r.offset = t.regs r := (hw.frame _ hcall.2.2).regs r

theorem History.InCall.drift (hcall : (c.hist p).InCall t) (hd : Drift c c') :
    (c'.hist p).InCall t := by rwa [hd.hist]

/-- A process in a call, with the arguments it made it with. -/
structure Calling (L : Layout) (S : Site) (p : Slot) (t : Trap) (c : Core) : Prop where
  good : Good L S c
  working : Working p c
  call : (c.hist p).InCall t

theorem Calling.drift (h : Calling L S p t c) (hd : Drift c c') (hg : Good L S c') :
    Calling L S p t c' := ⟨hg, h.working.drift hd, h.call.drift hd⟩

theorem argraw_runs {Q : BitVec 64 → Mode → Core → Prop} (h : Calling L S p t c) (r : Reg)
    (hQ : ∀ c', N.Rel c c' → Calling L S p t c' → Q (t.regs r) (.unlocked b) c') :
    Runs L S N h₀ (argraw r) (.unlocked b) c Q := by
  refine .bind (Unlocked.myproc fun c₁ hd₁ hg₁ => .bind ?_)
  have h₁ := h.drift (N.drift hd₁) hg₁
  rw [h₁.working.cproc]
  refine does_deref (Unlocked.getCore fun c₂ hd₂ hg₂ => ?_)
  have h₂ := h₁.drift (N.drift hd₂) hg₂
  rw [h₂.working.arg h₂.call]
  exact hQ c₂ (N.trans hd₁ hd₂) h₂

theorem fetchstr_runs {Q : Option (List UInt8) → Mode → Core → Prop} (h : Calling L S p t c)
    (addr max : ℕ) (hQ : ∀ c' res, N.Rel c c' → Calling L S p t c' →
      (∀ str, res = some str → (0 : UInt8) ∉ str) → Q res (.unlocked b) c') :
    Runs L S N h₀ (fetchstr L addr max) (.unlocked b) c Q := by
  refine .bind (Unlocked.myproc fun c₁ hd₁ hg₁ => .bind ?_)
  have h₁ := h.drift (N.drift hd₁) hg₁
  rw [h₁.working.cproc]
  refine does_deref (.bind (Unlocked.getCore fun c₂ hd₂ hg₂ => Unlocked.coreAtomic
    fun c₃ hd₃ hg₃ => .inl ?_))
  have h₂ := h₁.drift (N.drift hd₂) hg₂
  have h₃ := h₂.drift (N.drift hd₃) hg₃
  rw [← (N.drift hd₃).proc_eq h₂.working.chan]
  refine returns_liftVm.mpr ((h₃.good.copyinstr h₃.working.cproc addr max).mono ?_)
  rintro res _ ⟨rfl, hres⟩
  exact ⟨hg₃, hQ c₃ res (N.trans (N.trans hd₁ hd₂) hd₃) h₃ hres⟩

/-! ### The calls -/

/-- A handler that returns a value. -/
theorem sysret_ends (hw : Working p c) (hcall : (c.hist p).Called) (hsp : Spares X c₀ c)
    (v : BitVec 64) : Ends L S X c₀ (.sysret p v) (.unlocked b) c :=
  ⟨⟨⟨b, rfl⟩, hw, hcall⟩, hsp⟩

theorem Calling.sysret_ends (h : Calling L S p t c) (hsp : Spares X c₀ c) (v : BitVec 64) :
    Ends L S X c₀ (.sysret p v) (.unlocked b) c :=
  OsKernel.sysret_ends h.working h.call.called hsp v

theorem History.Called.congr {h h' : History} (hc : h.Called) (heq : h'.trap = h.trap) :
    h'.Called := by
  obtain ⟨t, ht, hcall⟩ := hc
  exact ⟨t, heq.trans ht, hcall⟩

theorem sysExec_runs {Q : BitVec 32 → Mode → Core → Prop} (h : Calling L S p t c)
    (hnum : t.number = 7)
    (hQ : ∀ c' v, Working p c' → (c'.hist p).Called → Spares (· = p) c c' → Q v (.unlocked b) c') :
    Runs L S N h₀ (sysExec L) (.unlocked b) c Q := by
  refine .bind (argraw_runs h .a1 fun c₁ hd₁ h₁ => .bind (argraw_runs h₁ .a0 fun c₂ hd₂ h₂ =>
    .bind (fetchstr_runs h₂ _ _ fun c₃ res hd₃ h₃ hres => ?_)))
  have hd := N.drift (N.trans (N.trans hd₁ hd₂) hd₃)
  cases res with
  | none => exact does_pure (hQ c₃ _ h₃.working h₃.call.called hd.spares)
  | some path =>
    obtain ⟨t', ht', -⟩ := h₃.call.called
    refine (kexec_runs h₃.good h₃.working (h₃.good.booted ⟨t', ht'⟩) (.inl ⟨t, h₃.call, hnum⟩)
      (hres path rfl)).mono ?_
    rintro v _ c' ⟨rfl, hk, -⟩
    exact hQ c' v hk.working (.congr h₃.call.called hk.trap) (hd.spares.trans hk.spares)

/-- **`syscall`**: every call ends at a label of the process and spares the other processes. -/
theorem syscall_ends (h : Calling L S p t c) (hsp : Spares (· = p) c₀ c) :
    Runs L S N h₀ (syscall L) (.unlocked b) c (Ends L S (· = p) c₀) := by
  refine .bind (Unlocked.myproc fun c₁ hd₁ hg₁ => .bind ?_)
  have h₁ := h.drift (N.drift hd₁) hg₁
  rw [h₁.working.cproc]
  refine does_deref (.bind (Unlocked.getCore fun c₂ hd₂ hg₂ => ?_))
  have h₂ := h₁.drift (N.drift hd₂) hg₂
  have hsp₂ := hsp.trans (N.drift (N.trans hd₁ hd₂)).spares
  rw [h₂.working.arg h₂.call]
  change Runs L S N h₀ (if t.number = 1 then _ else _) _ _ _
  refine does_ite (fun _ => ?fork) fun _ => does_ite (fun hnum => ?exit) fun _ =>
    does_ite (fun _ => ?wait) fun _ => does_ite (fun _ => ?read) fun _ =>
    does_ite (fun hnum => ?exec) fun _ => does_ite (fun _ => ?getpid) fun _ =>
    does_ite (fun _ => ?write) fun _ => does_pure (h₂.sysret_ends hsp₂ _)
  case fork =>
    refine .bind ((kfork_runs h₂.working ⟨t, h₂.call⟩).mono ?_)
    rintro v _ c' ⟨rfl, hk, -⟩
    exact does_pure (sysret_ends hk.working (.congr h₂.call.called hk.trap)
      (hsp₂.trans (hk.spares.mono fun _ => False.elim)) _)
  case exit =>
    refine .bind (argraw_runs h₂ .a0 fun c₃ hd₃ h₃ => ?_)
    exact kexit_ends h₃.working ⟨t, h₃.call.1, .inl ⟨h₃.call.2.1, hnum, rfl⟩⟩
      (hsp₂.trans (N.drift hd₃).spares)
  case wait =>
    refine .bind (argraw_runs h₂ .a0 fun c₃ hd₃ h₃ => ?_)
    exact kwaitEnter_ends h₃.working ⟨t, h₃.call⟩ (hsp₂.trans (N.drift hd₃).spares)
  case read =>
    refine .bind (argraw_runs h₂ .a0 fun c₃ hd₃ h₃ => .bind (argraw_runs h₃ .a1 fun c₄ hd₄ h₄ =>
      .bind (argraw_runs h₄ .a2 fun c₅ hd₅ h₅ => ?_)))
    have hsp₅ := hsp₂.trans (N.drift (N.trans (N.trans hd₃ hd₄) hd₅)).spares
    exact does_ite (fun _ => does_pure (h₅.sysret_ends hsp₅ _)) fun _ =>
      consolereadEnter_ends h₅.working ⟨t, h₅.call⟩ hsp₅
  case exec =>
    refine .bind (sysExec_runs h₂ hnum fun c' v hw' hcalled hsp' => ?_)
    exact does_pure (sysret_ends hw' hcalled (hsp₂.trans hsp') _)
  case getpid =>
    refine .bind (.bind (Unlocked.myproc fun c₃ hd₃ hg₃ => .bind ?_))
    have h₃ := h₂.drift (N.drift hd₃) hg₃
    rw [h₃.working.cproc]
    refine does_deref (Unlocked.getCore fun c₄ hd₄ hg₄ => does_pure ?_)
    exact (h₃.drift (N.drift hd₄) hg₄).sysret_ends
      (hsp₂.trans (N.drift (N.trans hd₃ hd₄)).spares) _
  case write =>
    refine .bind (argraw_runs h₂ .a0 fun c₃ hd₃ h₃ => .bind (argraw_runs h₃ .a1 fun c₄ hd₄ h₄ =>
      .bind (argraw_runs h₄ .a2 fun c₅ hd₅ h₅ => ?_)))
    have hsp₅ := hsp₂.trans (N.drift (N.trans (N.trans hd₃ hd₄) hd₅)).spares
    exact does_ite (fun _ => does_pure (h₅.sysret_ends hsp₅ _)) fun _ =>
      does_pure ⟨⟨⟨b, rfl⟩, h₅.working, t, h₅.call⟩, hsp₅⟩

/-- **`syscall` for `fork`.** -/
theorem syscall_fork_runs (h : Calling L S p t c) (hnum : t.number = 1) :
    Runs L S N h₀ (syscall L) (.unlocked b) c fun a μ c' => μ = .unlocked b ∧
      ∃ v c₁, a = .sysret p (v.signExtend 64) ∧ N.Rel c c₁ ∧ Calling L S p t c₁ ∧
        ForkKeeps L S p c₁ c' ∧ ForkEnds L S N p c₁ v c' := by
  refine .bind (Unlocked.myproc fun c₁ hd₁ hg₁ => .bind ?_)
  have h₁ := h.drift (N.drift hd₁) hg₁
  rw [h₁.working.cproc]
  refine does_deref (.bind (Unlocked.getCore fun c₂ hd₂ hg₂ => ?_))
  have h₂ := h₁.drift (N.drift hd₂) hg₂
  rw [h₂.working.arg h₂.call]
  change Runs L S N h₀ (if t.number = 1 then _ else _) _ _ _
  rw [if_pos hnum]
  refine .bind ((kfork_runs h₂.working ⟨t, h₂.call⟩).mono ?_)
  rintro v _ c' ⟨rfl, hk, hend⟩
  exact does_pure ⟨rfl, v, c₂, rfl, N.trans hd₁ hd₂, h₂, hk, hend⟩

/-- **`syscall`, at its end**: the return value is what the process is going to find in `a0`. -/
theorem syscallReturn_ends (hw : Working p c) (hcall : (c.hist p).Called)
    (hsp : Spares (· = p) c₀ c) (v : BitVec 64) :
    Runs L S N h₀ (syscallReturn p v) (.unlocked b) c (Ends L S (· = p) c₀) := by
  refine .bind (Unlocked.modCore fun c₁ hd₁ hg₁ => ?_)
  replace hg₁ : Good L S c₁ := hg₁
  have hw₁ := hw.drift (N.drift hd₁)
  rw [← (N.drift hd₁).hist] at hcall
  have hrun := hg₁.state_running hw₁.cproc
  -- the trapframe's `a0` and the context that the history expects change together
  obtain ⟨hg₂, hsp₂⟩ := hg₁.tfStore hw₁.cproc (k := Reg.a0.offset) (by decide) v
  have hself : history (.sysret p v :: c₁.log) p =
      { history c₁.log p with returned := some v, ctx := (history c₁.log p).ctx.map (Ctx.ret v) } :=
    Function.update_self ..
  obtain ⟨t, ht, hicall⟩ := hcall
  have hg₃ : Good L S ((c₁.tfStore p Reg.a0.offset v).emit (.sysret p v)) := by
    refine hg₂.emit rfl trivial ⟨t, ht, hicall⟩ ?_ fun hf => ?_
    · exact hself ▸ (hg₂.slot p).observe hrun (.inr hw₁.chan) (.inl rfl) rfl rfl
    · rw [show (c₁.tfStore p Reg.a0.offset v).log = c₁.log from rfl, hself]
      obtain ⟨hctx, htrap⟩ := hg₁.boot hf p
      exact ⟨by rw [show (history c₁.log p).ctx = none from hctx]; rfl, htrap⟩
  have hhist : ((c₁.tfStore p Reg.a0.offset v).emit (.sysret p v)).hist p =
    { history c₁.log p with returned := some v, ctx := (history c₁.log p).ctx.map (Ctx.ret v) } :=
      hself
  have hw₃ : Working p ((c₁.tfStore p Reg.a0.offset v).emit (.sysret p v)) := by
    refine ⟨⟨hw₁.cproc, fun x hx => ?_, hw₁.complete⟩, hw₁.chan⟩
    rw [hhist] at hx
    obtain ⟨y, hy, rfl⟩ := Option.map_eq_some_iff.mp hx
    exact (hw₁.frame y hy).ret v
  refine ⟨hg₃, does_pure ⟨⟨⟨b, rfl⟩, hw₃, ?_, ?_⟩, ?_⟩⟩
  · exact ⟨t, by rw [hhist]; exact ht⟩
  · intro t' _ _
    exact ⟨v, by rw [hhist]⟩
  · exact hsp.trans ((N.drift hd₁).spares.trans (hsp₂.trans (.of_eq rfl rfl)))

end OsKernel
