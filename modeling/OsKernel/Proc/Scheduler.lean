import OsKernel.Proc.Sleep

/-!
# The scheduler

`scheduler` runs a process by switching to its saved context. What the process finds there is
what it left in `SlotOk`: the invariant of its slot says to which label the context leads and that
the process may go on. The way back is `schedulerBack`, where the invariant holds as soon as
`cpus[0].proc` is 0.
-/

namespace OsKernel

variable {L : Layout} {S : Site} {N : Env} {h₀ : Hart} {b : Bool} {c c₀ : Core} {p : Slot}
  {k : Resume} {X : Slot → Prop}

/-- The change by which `scheduler` runs a process. -/
def Core.dispatch (p : Slot) (c : Core) : Core :=
  { c.setProc p fun pr => { pr with state := .running } with
    cproc := some p
    ccontext := some (.schedulerBack p) }

theorem Core.dispatch_self (c : Core) (p : Slot) :
    (c.dispatch p).procs p = { c.procs p with state := .running } :=
  c.setProc_self p fun pr => { pr with state := .running }

theorem Core.dispatch_ne (c : Core) {p i : Slot} (h : i ≠ p) :
    (c.dispatch p).procs i = c.procs i := c.setProc_ne (fun pr => { pr with state := .running }) h

theorem Core.dispatch_context (c : Core) (p i : Slot) :
    ((c.dispatch p).procs i).context = (c.procs i).context := by
  by_cases h : i = p
  · rw [h, dispatch_self]
  · rw [c.dispatch_ne h]

/-- The process that is run may go on. -/
theorem Good.dispatch (hg : Good L S c) (hidle : c.cproc = none)
    (hst : (c.procs p).state = .runnable) : Good L S (c.dispatch p) := by
  have hslot := hg.slot p
  refine hg.setProc (.of_started (.inl hst) (.inr (.inr rfl)) rfl rfl rfl fun _ => id)
    (fun i hi => ?_) (hslot.resume hst) fun q hq => ?_
  · rw [hidle, Option.some.injEq]
    exact iff_of_false hi.symm (by simp)
  · rw [Option.some.injEq] at hq
    rw [hq]

theorem Good.dispatch_working (hg : Good L S c) (hst : (c.procs p).state = .runnable)
    (hc : c.Complete) : Working p (c.dispatch p) := by
  have hslot := hg.slot p
  have hproc := c.dispatch_self p
  refine ⟨⟨rfl, fun x hx => ?_, ?_⟩, ?_⟩
  · rw [hproc]
    exact hslot.frame (.inr (.inl hst)) x hx
  · exact Core.forall_setProc (f := fun pr => { pr with state := .running })
      (P := fun _ pr => pr.state ≠ .used) (by simp) fun i _ => hc i
  · rw [hproc]
    by_contra hch
    rcases (hslot.chan hch).1 with h | h <;> rw [hst] at h <;> cases h

/-- **The loop of `scheduler`** over the process table. -/
theorem schedulerScan_ends (i : ℕ) (found : Bool) (hidle : c.cproc = none) (hc : c.Complete)
    (hsp : Spares X c₀ c) :
    Runs L S N h₀ (schedulerScan i found) (.unlocked b) c (Ends L S X c₀) := by
  rw [schedulerScan]
  split_ifs with hi
  swap
  · exact does_pure ⟨⟨⟨b, rfl⟩, hidle, hc⟩, hsp⟩
  generalize (⟨i, hi⟩ : Slot) = p
  refine .bind (Unlocked.acquire fun c₁ hd₁ hg₁ => .bind (Locked.getCore ?_))
  replace hg₁ : Good L S c₁ := hg₁
  have hidle₁ : c₁.cproc = none := (N.drift hd₁).cproc.trans hidle
  have hc₁ := hc.drift (N.drift hd₁)
  have hsp₁ := hsp.trans (N.drift hd₁).spares
  refine does_ite (fun hst => .bind (Locked.modCore ?_)) fun _ => ?_
  · have hg₂ := hg₁.dispatch hidle₁ hst
    have hw₂ := hg₁.dispatch_working hst hc₁
    have hsp₂ : Spares X c₀ (c₁.dispatch p) := hsp₁.trans (.of_eq rfl (Core.spaces_setProc (p := p)
      (f := fun pr => { pr with state := .running }) (iff_of_false (by simp) (by simp [hst])) rfl))
    rcases (hg₁.slot p).saved (.inr (.inl hst)) with ⟨hctx, -, htrap⟩ | ⟨ia, k, hctx, -, hpause, hk⟩
    all_goals
      rw [hctx]
      refine does_pure ⟨?_, hsp₂⟩
    · exact ⟨p, ⟨b, rfl⟩, hg₂, hw₂, htrap⟩
    · have hk₂ : k.Ok ((c₁.dispatch p).procs p) (c₁.hist p) := by
        rw [c₁.dispatch_self p]
        exact hk.congr rfl
      exact ⟨⟨b, rfl⟩, hg₂, hw₂, hpause, hk₂⟩
  · exact .bind (Locked.release_last hg₁ (does_pure ⟨⟨⟨b, rfl⟩, hidle₁, hc₁⟩, hsp₁⟩))

/-- A process has switched back to the scheduler. -/
theorem schedulerBack_ends (hg : Good L S c.idle) (hc : c.Complete) (hsp : Spares X c₀ c) :
    Runs L S N h₀ (schedulerBack p) (.locked {.proc p} b) c (Ends L S X c₀) :=
  .bind (Locked.modCore (.bind (Locked.release_last hg
    (does_pure ⟨⟨⟨b, rfl⟩, rfl, hc⟩, hsp.trans (.of_eq rfl rfl)⟩))))

/-- **The end of `sleep` and `yield`**: `SIE` is again what it was at the call. -/
theorem sleepBack_ends {ia : Bool} (hq : ¬N.Quiet) (hg : Good L S c) (hw : Working p c)
    (hpause : (c.hist p).paused = some ia) (hk : k.Ok (c.procs p) (c.hist p))
    (hsp : Spares X c₀ c) :
    Runs L S N h₀ (sleepBack p ia k) (.locked {.proc p} b) c (Ends L S X c₀) := by
  refine .bind (Locked.setIntena hq (.bind (Locked.release_last hg (.bind
    (Unlocked.observeBack fun c₁ hd₁ hg₁ => ?_)))))
  have hw₁ := hw.drift (N.drift hd₁)
  have hback : (c₁.emit (.back p ia 0)).hist p =
      { c₁.hist p with paused := none, window := false } := by
    simp [Core.hist, Core.emit, observe]
  refine ⟨Good.back hg₁ hw₁.cproc hw₁.chan (by rw [(N.drift hd₁).hist, hpause]), does_pure ?_⟩
  refine ⟨⟨⟨ia, rfl⟩, ⟨hw₁.toBusy.emit (by simp [observe, Core.hist]), hw₁.chan⟩, ?_⟩,
    (hsp.trans (N.drift hd₁).spares).trans (.of_eq rfl rfl)⟩
  rw [hback]
  exact (hk.drift (N.drift hd₁)).observe

/-- The callers of `sleep` and `yield` go on. -/
theorem awake_ends (hw : Working p c) (hk : k.Ok (c.procs p) (c.hist p)) (hsp : Spares X c₀ c) :
    Runs L S N h₀ (awake p k) (.unlocked b) c (Ends L S X c₀) := by
  cases k with
  | kwait addr =>
    refine .bind (Unlocked.acquire fun c₁ hd₁ hg₁ => does_pure ?_)
    obtain ⟨hcall, hquiet⟩ := hk.drift (N.drift hd₁)
    exact ⟨⟨⟨b, rfl⟩, hg₁, hw.drift (N.drift hd₁), hcall, hquiet⟩, hsp.trans (N.drift hd₁).spares⟩
  | consoleread dst n target =>
    refine .bind (Unlocked.acquire fun c₁ hd₁ hg₁ => does_pure ?_)
    obtain ⟨hcall, hn, hr⟩ := hk.drift (N.drift hd₁)
    exact ⟨⟨⟨b, rfl⟩, hg₁, hw.drift (N.drift hd₁), hcall, hn, hr⟩, hsp.trans (N.drift hd₁).spares⟩
  | usertrap => exact does_pure ⟨⟨⟨b, rfl⟩, hw, hk.1, hk.2⟩, hsp⟩

end OsKernel
