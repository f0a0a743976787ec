import OsKernel.Kernel.Labels

/-!
# Sleeping and waking

`wakeup` wakes all processes on a channel; `sched` saves the context of the running process and
returns to the scheduler. A process that calls `sleep` either finds that it was woken since
`sleep_prepare` and goes on, or it is switched out; in both cases its history records with which
`SIE` it called, and its saved context restores it.
-/

namespace OsKernel

variable {L : Layout} {S : Site} {N : Env} {D : Discipline} {h₀ : Hart} {α : Type} {b : Bool}
  {ls : Finset Lock} {c c' : Core} {p : Slot} {ch : Option Chan} {k : Resume}

/-! ### Small sections -/

/-- `killed` inside a critical section. -/
theorem Locked.killed {Q : Bool → Mode → Core → Prop} (hlk : Lock.proc p ∉ ls)
    (hls : ls.Nonempty) (h : Q (c.procs p).killed (.locked ls b) c) :
    Does L D h₀ (killed p) (.locked ls b) c Q := by
  refine .bind (Locked.acquire hlk (.bind (Locked.getCore (.bind ?_))))
  exact Locked.release_inner hlk hls (does_pure h)

theorem Unlocked.killed {Q : Bool → Mode → Core → Prop}
    (h : ∀ c', D.Drift c c' → D.Good c' → Q (c'.procs p).killed (.unlocked b) c') :
    Does L D h₀ (killed p) (.unlocked b) c Q := by
  refine .bind (Unlocked.acquire fun c' hd hg => .bind (Locked.getCore (.bind ?_)))
  exact Locked.release_last hg (does_pure (h c' hd hg))

/-- The change of `setkilled`. -/
def Core.kill (p : Slot) (c : Core) : Core := c.setProc p fun pr => { pr with killed := true }

theorem Unlocked.setkilled {Q : Unit → Mode → Core → Prop}
    (h : ∀ c', D.Drift c c' → D.Good c' → D.Good (c'.kill p) ∧ Q () (.unlocked b) (c'.kill p)) :
    Does L D h₀ (setkilled p) (.unlocked b) c Q := by
  refine .bind (Unlocked.acquire fun c' hd hg => .bind (Locked.modCore ?_))
  exact Locked.release_last (h c' hd hg).1 (h c' hd hg).2

/-- The change of `sleep_prepare`. -/
def Core.prepare (p : Slot) (chan : Chan) (c : Core) : Core :=
  (c.setProc p fun pr => { pr with chan := some chan }).emit (.prepare p)

theorem Locked.sleepPrepare {Q : Unit → Mode → Core → Prop} {chan : Chan} (hp : c.cproc = some p)
    (hlk : Lock.proc p ∉ ls) (hls : ls.Nonempty) (h : Q () (.locked ls b) (c.prepare p chan)) :
    Does L D h₀ (sleepPrepare chan) (.locked ls b) c Q := by
  refine .bind (Locked.myproc (.bind ?_))
  rw [hp]
  refine does_deref (.bind (Locked.acquire hlk (.bind (Locked.modCore ?_))))
  exact Locked.release_inner hlk hls h

/-! ### `wakeup` -/

/-- All processes on a channel are woken. -/
def Core.wakeAll (ch : Option Chan) (c : Core) : Core :=
  { c with procs := fun i => (c.procs i).wake ch }

theorem Proc.wake_wake (pr : Proc) (ch : Option Chan) : (pr.wake ch).wake ch = pr.wake ch := by
  by_cases h : pr.chan = ch
  · rw [Proc.wake_self h]
    by_cases hn : pr.woken.chan = ch
    · rw [Proc.wake_self hn]
      by_cases hs : pr.state = .sleeping <;> simp [Proc.woken, hs]
    · rw [Proc.wake_ne hn]
  · rw [Proc.wake_ne h, Proc.wake_ne h]

/-- `wakeup` for the processes of a list. -/
def Core.wakeThese (ch : Option Chan) (ps : List Slot) (c : Core) : Core :=
  { c with procs := fun i => if i ∈ ps then (c.procs i).wake ch else c.procs i }

theorem Core.wakeThese_cons (ch : Option Chan) (p : Slot) (ps : List Slot) (c : Core) :
    (c.setProc p (Proc.wake ch)).wakeThese ch ps = c.wakeThese ch (p :: ps) := by
  have hprocs : ∀ i, ((c.setProc p (Proc.wake ch)).wakeThese ch ps).procs i =
      (c.wakeThese ch (p :: ps)).procs i := by
    intro i
    simp only [Core.wakeThese, List.mem_cons]
    by_cases hi : i = p
    · subst hi
      rw [Core.setProc_self, Proc.wake_wake]
      simp
    · rw [Core.setProc_ne _ _ hi]
      simp [hi]
  exact congrArg (fun procs => { c with procs := procs }) (funext hprocs)

theorem wakeupLoop_runs (hlk : ∀ p, Lock.proc p ∉ ls) (hls : ls.Nonempty) : ∀ (ps : List Slot)
    {c : Core} {Q : Unit → Mode → Core → Prop}, Q () (.locked ls b) (c.wakeThese ch ps) →
    Does L D h₀ (wakeupLoop ch ps) (.locked ls b) c Q
  | [], c, Q, h => does_pure (by simpa [Core.wakeThese] using h)
  | p :: ps, c, Q, h => by
    refine .bind (Locked.acquire (hlk p) (.bind (Locked.modCore (.bind ?_))))
    refine Locked.release_inner (hlk p) hls (wakeupLoop_runs hlk hls ps ?_)
    rwa [Core.wakeThese_cons]

/-- **`wakeup`** inside a critical section wakes all processes on the channel. -/
theorem Locked.wakeup {Q : Unit → Mode → Core → Prop} (hlk : ∀ p, Lock.proc p ∉ ls)
    (hls : ls.Nonempty) (h : Q () (.locked ls b) (c.wakeAll ch)) :
    Does L D h₀ (wakeup ch) (.locked ls b) c Q := by
  refine wakeupLoop_runs hlk hls slots ?_
  simpa [Core.wakeThese, Core.wakeAll, slots] using h

theorem Core.wakeAll_procs (ch : Option Chan) (c : Core) (i : Slot) :
    (c.wakeAll ch).procs i = c.procs i ∨
      (c.procs i).chan = ch ∧ (c.wakeAll ch).procs i = (c.procs i).woken := by
  by_cases hc : (c.procs i).chan = ch
  · exact .inr ⟨hc, Proc.wake_self hc⟩
  · exact .inl (Proc.wake_ne hc)

theorem Core.tame_wakeAll (ch : Option Chan) (c : Core) (i : Slot) :
    (c.procs i).Tame ((c.wakeAll ch).procs i) := by
  rcases c.wakeAll_procs ch i with h | ⟨-, h⟩
  · rw [h]
    exact .refl _
  · rw [h]
    exact Proc.tame_woken _

theorem SlotOk.wakeAll {cproc : Option Slot} {m : Mem} {k : Cons} {h : History} {i : Slot}
    (hs : SlotOk cproc m k h i (c.procs i)) (ch : Option Chan) :
    SlotOk cproc m k h i ((c.wakeAll ch).procs i) := by
  rcases c.wakeAll_procs ch i with he | ⟨-, he⟩
  · rwa [he]
  · rw [he]
    exact hs.woken

/-! ### `sched` -/

/-- The change of `sched`. -/
def Core.saveContext (p : Slot) (l : Label) (c : Core) : Core :=
  c.setProc p fun pr => { pr with context := some l }

/-- **`sched`** goes on where the CPU's context leads. -/
theorem Locked.sched {Q : Label → Mode → Core → Prop} {back : Bool → Label} {l : Label}
    (hp : c.cproc = some p) (hst : (c.procs p).state ≠ .running) (hl : c.ccontext = some l)
    (h : Q l (.locked {.proc p} b) (c.saveContext p (back b))) :
    Does L D h₀ (sched back) (.locked {.proc p} b) c Q := by
  refine .bind (Locked.myproc (.bind ?_))
  rw [hp]
  refine does_deref (.bind (Locked.getHart fun h₁ _ _ _ hheld => ?_))
  rw [if_neg (by simp [hheld])]
  refine .bind (Locked.getHart fun h₂ hnoff _ _ _ => ?_)
  rw [if_neg (by simp [hnoff])]
  refine .bind (Locked.getCore ?_)
  rw [if_neg hst]
  refine .bind (Locked.getHart fun h₃ _ hsie _ _ => ?_)
  rw [if_neg (by simp [hsie])]
  refine .bind (Locked.getHart fun h₄ _ _ hia _ =>
    .bind (Locked.modCore (.bind (Locked.getCore ?_))))
  rw [hia]
  show Does L D h₀ (swtch c.ccontext) _ _ _
  rw [hl]
  exact does_pure h

/-! ### `sleep` and `yield` -/

/-- The observer's view of the call. -/
theorem Unlocked.observePause {Q : Unit → Mode → Core → Prop}
    (h : ∀ c', D.Drift c c' → D.Good c' → D.Good (c'.emit (.pause p b)) ∧
      Q () (.unlocked b) (c'.emit (.pause p b))) :
    Does L D h₀ (observePause p) (.unlocked b) c Q := by
  intro s hs hc
  refine ⟨hs.unlocked.inv, fun t ht => ?_⟩
  have hu := hs.after ht.after (ht.unlocked hs.unlocked)
  obtain ⟨hgood, hq⟩ := h t.core (hc ▸ ht.after.drift) hu.unlocked.good
  have hu' := hu.core hgood
  simp only [hu.sie]
  exact ⟨hu'.unlocked.inv, .unlocked b, hu', hq⟩

/-- The observer's view of the return. -/
theorem Unlocked.observeBack {Q : Unit → Mode → Core → Prop}
    (h : ∀ c', D.Drift c c' → D.Good c' → D.Good (c'.emit (.back p b 0)) ∧
      Q () (.unlocked b) (c'.emit (.back p b 0))) :
    Does L D h₀ (observeBack p) (.unlocked b) c Q := by
  intro s hs hc
  refine ⟨hs.unlocked.inv, fun t ht => ?_⟩
  have hu := hs.after ht.after (ht.unlocked hs.unlocked)
  obtain ⟨hgood, hq⟩ := h t.core (hc ▸ ht.after.drift) hu.unlocked.good
  have hu' := hu.core hgood
  simp only [hu.sie, hu.unlocked.noff]
  exact ⟨hu'.unlocked.inv, .unlocked b, hu', hq⟩

/-- An event of the running process that changes nothing of what it resumes with. -/
theorem Good.emit_running {e : Event} (hg : Good L S c) (hp : c.cproc = some p) (he : e.Own p)
    (hsilent : e.Silent) (hadm : Admissible S.init c.log e)
    (hw : (history (e :: c.log) p).window = true ∨ (c.procs p).chan = none)
    (hk : (history (e :: c.log) p).trap = (c.hist p).trap ∧
      (history (e :: c.log) p).ctx = (c.hist p).ctx) : Good L S (c.emit e) := by
  obtain ⟨hpar, -, -, hend⟩ := he.kin (l := c.log) p
  refine hg.emit he hsilent hadm ((hg.slot p).observe (hg.state_running hp) hw
    (.inl hk.1) hend hpar)
    ?_
  rw [hk.1, hk.2]
  exact fun hf => hg.boot hf p

theorem Good.pause (hg : Good L S c) (hp : c.cproc = some p) (b : Bool) :
    Good L S (c.emit (.pause p b)) := by
  refine hg.emit_running hp rfl trivial trivial ?_ (by simp [observe, Core.hist])
  by_cases hc : (c.procs p).chan = none
  · exact .inr hc
  · refine .inl ?_
    have := ((hg.slot p).chan hc).2
    simpa [observe, Core.hist] using this

theorem Good.back (hg : Good L S c) (hp : c.cproc = some p) (hc : (c.procs p).chan = none)
    (hb : (c.hist p).paused = some b) : Good L S (c.emit (.back p b 0)) :=
  hg.emit_running hp rfl trivial ⟨hb, rfl⟩ (.inr hc) (by simp [observe, Core.hist])

/-- What the running process relies on survives its own events. -/
theorem Busy.emit {e : Event} (hw : Busy p c)
    (hk : (history (e :: c.log) p).ctx = (c.hist p).ctx) : Busy p (c.emit e) :=
  ⟨hw.cproc, fun x hx => hw.frame x (hk.symm.trans hx), hw.complete⟩

theorem Working.emit {e : Event} (hw : Working p c)
    (hk : (history (e :: c.log) p).ctx = (c.hist p).ctx) : Working p (c.emit e) :=
  ⟨hw.toBusy.emit hk, hw.chan⟩

/-- A process inside a system call is not killed. -/
theorem Good.not_killed (hg : Good L S c) (hc : (c.hist p).Called) :
    (c.procs p).killed = false := by
  by_contra hk
  obtain ⟨t, ht, hu⟩ := (hg.slot p).killed (Bool.eq_true_of_not_eq_false hk)
  obtain ⟨t', ht', hcall⟩ := hc
  rw [ht, Option.some.injEq] at ht'
  exact hu.1 (ht' ▸ hcall)

/-! ### The window between `sleep_prepare` and the end of `sleep` -/

theorem Core.prepare_self (c : Core) (p : Slot) (ch : Chan) :
    (c.prepare p ch).procs p = { c.procs p with chan := some ch } :=
  c.setProc_self p fun pr => { pr with chan := some ch }

theorem Core.prepare_ne (c : Core) {p i : Slot} (ch : Chan) (h : i ≠ p) :
    (c.prepare p ch).procs i = c.procs i := c.setProc_ne (fun pr => { pr with chan := some ch }) h

/-- The process registers on a channel: nothing is there to read, or it has a child to wait
for. -/
theorem Good.prepare {chan : Chan} (hg : Good L S c) (hp : c.cproc = some p)
    (hempty : chan = .consR → c.cons.r = c.cons.w)
    (hwait : ∀ j, chan = .proc j → j = p ∧ (∃ i, (c.procs i).parent = some p) ∧
      ∀ i, (c.procs i).parent = some p → (c.procs i).state ≠ .zombie) :
    Good L S (c.prepare p chan) := by
  have hg' : Good L S (c.emit (.prepare p)) := hg.emit_running hp rfl trivial trivial
    (.inl (by simp [observe])) (by simp [observe, Core.hist])
  have hsteady : ∀ i, (c.procs i).Steady ((c.prepare p chan).procs i) := by
    intro i
    by_cases hi : i = p
    · rw [hi, c.prepare_self]
      exact ⟨rfl, rfl, rfl, Iff.rfl, Iff.rfl, Iff.rfl, Iff.rfl⟩
    · rw [c.prepare_ne chan hi]
      exact .refl _
  refine hg'.withProcs (f := (c.prepare p chan).procs) hsteady (fun i j hj => ?_) (fun i => ?_)
    hg.home
  · -- who waits in the new table waits by `hwait` or did so before
    suffices hold : j = i ∧ (∃ ch, (c.procs ch).parent = some i) ∧
        ∀ ch, (c.procs ch).parent = some i → (c.procs ch).state ≠ .zombie by
      obtain ⟨hji, ⟨ch, hch⟩, hz⟩ := hold
      refine ⟨hji, ⟨ch, (hsteady ch).parent.trans hch⟩, fun ch' hch' => ?_⟩
      rw [ne_eq, (hsteady ch').zombie]
      exact hz ch' ((hsteady ch').parent ▸ hch')
    by_cases hi : i = p
    · subst hi
      rw [c.prepare_self, Option.some.injEq] at hj
      exact hwait j hj
    · rw [c.prepare_ne chan hi] at hj
      exact hg.waiting i j hj
  · by_cases hi : i = p
    · subst hi
      rw [c.prepare_self]
      have hrun := hg.state_running hp
      refine { hg'.slot i with
        blank := fun hu => ?_
        asleep := fun _ => by simp
        chan := fun _ => ⟨.inr hrun, by simp [Core.hist, Core.emit, observe]⟩
        empty := fun hc => hempty (Option.some.inj hc)
        saved := fun hpark => absurd hrun hpark.not_running
        frame := fun hpark => absurd hrun hpark.not_running }
      rw [hrun] at hu
      cases hu
    · rw [c.prepare_ne chan hi]
      exact hg'.slot i

theorem Busy.prepare (hw : Busy p c) (chan : Chan) : Busy p (c.prepare p chan) where
  cproc := hw.cproc
  frame x hx := by
    rw [c.prepare_self]
    exact hw.frame x (by simpa [Core.hist, Core.prepare, Core.emit, Core.setProc, observe] using hx)
  complete := Core.forall_setProc (f := fun pr => { pr with chan := some chan })
    (P := fun _ pr => pr.state ≠ .used) (hw.complete p) fun i _ => hw.complete i

theorem Resume.Ok.prepare (hk : k.Ok (c.procs p) (c.hist p)) (chan : Chan) :
    k.Ok ((c.prepare p chan).procs p) ((c.prepare p chan).hist p) := by
  have hhist : (c.prepare p chan).hist p = { c.hist p with window := true } := by
    simp [Core.hist, Core.prepare, Core.emit, Core.setProc, OsKernel.observe]
  rw [hhist, c.prepare_self]
  exact Resume.Ok.congr (Resume.Ok.observe (r := (c.hist p).paused) hk) rfl

theorem Core.spaces_prepare (c : Core) (p : Slot) (chan : Chan) :
    (c.prepare p chan).spaces = c.spaces :=
  Core.spaces_setProc (f := fun pr => { pr with chan := some chan }) Iff.rfl rfl

/-! ### Switching out -/

theorem SlotOk.park {m : Mem} {kc : Cons} {h : History} {pr : Proc} {st : ProcState}
    (hs : SlotOk (some p) m kc h p pr)
    (hst : st = .sleeping ∧ pr.chan ≠ none ∨ st = .runnable ∧ pr.chan = none)
    (hpause : h.paused = some b) (hk : k.Ok pr h)
    (hframe : ∀ x, h.ctx = some x → Framed m pr.trapframe x) :
    SlotOk none m kc h p { pr with state := st, context := some (.sleepBack p b k) } := by
  have hrun := hs.running.mpr rfl
  have hne : st ≠ .running ∧ st ≠ .unused ∧ st ≠ .zombie ∧ st ≠ .used := by
    rcases hst with ⟨rfl, -⟩ | ⟨rfl, -⟩ <;> decide
  constructor
  case running => exact ⟨fun he => absurd he hne.1, fun he => by cases he⟩
  case kstack => exact hs.kstack
  case name => exact hs.name
  case blank => exact fun he => absurd he hne.2.1
  case asleep =>
    rintro rfl
    exact (hst.resolve_right fun hr => by cases hr.1).2
  case chan =>
    intro hc
    have hsl := hst.resolve_right fun hr => hc hr.2
    exact ⟨.inl hsl.1, (hs.chan hc).2⟩
  case empty => exact hs.empty
  case killed => exact hs.killed
  case ended => rw [hs.ended, if_neg (by rw [hrun]; decide), if_neg hne.2.2.1]
  case parent => exact hs.parent
  case saved => exact fun _ => .inr ⟨b, k, rfl, hne.2.2.2, hpause, hk.congr rfl⟩
  case frame => exact fun _ => hframe

/-- **The running process is switched out** with its context saved. -/
theorem Good.park {st : ProcState} (hg : Good L S c) (hw : Busy p c)
    (hst : st = .sleeping ∧ (c.procs p).chan ≠ none ∨ st = .runnable ∧ (c.procs p).chan = none)
    (hpause : (c.hist p).paused = some b) (hk : k.Ok (c.procs p) (c.hist p)) :
    Good L S ((c.setProc p fun pr => { pr with state := st }).saveContext p
      (.sleepBack p b k)).idle := by
  have hslot := hg.slot p
  rw [hw.cproc] at hslot
  rw [Core.saveContext, Core.setProc_setProc]
  refine hg.setProc (.of_started (.inr (.inr (hslot.running.mpr rfl))) ?_ rfl rfl rfl fun _ => id)
    (fun i hi => ?_) (hslot.park hst hpause hk hw.frame) fun _ h => by cases h
  · exact hst.elim (fun hl => .inr (.inl hl.1)) fun hr => .inl hr.1
  · rw [hw.cproc, Option.some.injEq]
    exact iff_of_false (by simp) fun h => hi h.symm

/-- The scheduler finds the invariant when a process is switched out. -/
theorem Good.park_ends {st : ProcState} {X : Slot → Prop} (hg : Good L S c) (hw : Busy p c)
    (hst : st = .sleeping ∧ (c.procs p).chan ≠ none ∨ st = .runnable ∧ (c.procs p).chan = none)
    (hpause : (c.hist p).paused = some b) (hk : k.Ok (c.procs p) (c.hist p)) {c₀ : Core}
    (hsp : Spares X c₀ c) :
    Ends L S X c₀ (.schedulerBack p) (.locked {.proc p} b)
      ((c.setProc p fun pr => { pr with state := st }).saveContext p (.sleepBack p b k)) := by
  have hne : st ≠ .unused ∧ st ≠ .used := by
    rcases hst with ⟨rfl, -⟩ | ⟨rfl, -⟩ <;> decide
  have hrun := hg.state_running hw.cproc
  refine ⟨⟨⟨b, rfl⟩, hg.park hw hst hpause hk, ?_⟩, hsp.trans (.of_eq rfl ?_)⟩
  all_goals rw [Core.saveContext, Core.setProc_setProc]
  · exact Core.forall_setProc (P := fun _ pr => pr.state ≠ .used) hne.2 fun i _ => hw.complete i
  · exact Core.spaces_setProc (iff_of_false hne.1 (by rw [hrun]; decide)) rfl

/-- The calls of `sleep` and `yield` up to the lock of the process. -/
theorem pause_runs {Q : Label → Mode → Core → Prop} {X : Slot → Prop} {c₀ : Core}
    {body : Slot → KernelM Label} (hw : Busy p c) (hk : k.Ok (c.procs p) (c.hist p))
    (hsp : Spares X c₀ c)
    (h : ∀ c', Good L S c' → Busy p c' → (c'.hist p).paused = some b →
      k.Ok (c'.procs p) (c'.hist p) → Spares X c₀ c' →
      ((c.procs p).chan = none → (c'.procs p).chan = none) →
      Runs L S N h₀ (body p) (.locked {.proc p} b) c' Q) :
    Runs L S N h₀ (do
      let p ← myproc
      let p ← deref p
      observePause p
      acquire (.proc p)
      body p) (.unlocked b) c Q := by
  refine .bind (Unlocked.myproc fun c₁ hd₁ _ => .bind ?_)
  have hw₁ := hw.drift (N.drift hd₁)
  have hk₁ := hk.drift (N.drift hd₁)
  rw [hw₁.cproc]
  refine does_deref (.bind (Unlocked.observePause fun c₂ hd₂ hg₂ => ?_))
  have hw₂ := hw₁.drift (N.drift hd₂)
  have hk₂ := hk₁.drift (N.drift hd₂)
  have hhist : (c₂.emit (.pause p b)).hist p = { c₂.hist p with paused := some b } := by
    simp [Core.hist, Core.emit, observe]
  have hk₂' : k.Ok ((c₂.emit (.pause p b)).procs p) ((c₂.emit (.pause p b)).hist p) := by
    rw [hhist]
    exact Resume.Ok.observe (w := (c₂.hist p).window) hk₂
  refine ⟨Good.pause hg₂ hw₂.cproc b, .bind (Unlocked.acquire fun c₃ hd₃ hg₃ => ?_)⟩
  refine h c₃ hg₃ ((hw₂.emit (by simp [observe, Core.hist])).drift (N.drift hd₃)) ?_
    (hk₂'.drift (N.drift hd₃)) ?_ fun hc => ?_
  · rw [(N.drift hd₃).hist, hhist]
  · exact ((hsp.trans (N.drift hd₁).spares).trans (N.drift hd₂).spares).trans
      ((Spares.of_eq rfl rfl : Spares X c₂ (c₂.emit (.pause p b))).trans (N.drift hd₃).spares)
  · have h₁ := (N.drift hd₁).proc_eq hc
    have h₂ := (N.drift hd₂).proc_eq (i := p) (by rw [h₁, hc])
    rw [(N.drift hd₃).proc_eq (i := p) (by show (c₂.procs p).chan = none; rw [h₂, h₁, hc])]
    show (c₂.procs p).chan = none
    rw [h₂, h₁, hc]

/-- **`sleep`** returns, or the process is switched out. -/
theorem sleep_ends {X : Slot → Prop} {c₀ : Core} (hw : Busy p c)
    (hk : k.Ok (c.procs p) (c.hist p)) (hsp : Spares X c₀ c) :
    Runs L S N h₀ (sleep k) (.unlocked b) c (Ends L S X c₀) := by
  refine pause_runs hw hk hsp fun c₃ hg₃ hw₃ hpause hk₃ hsp₃ _ => ?_
  refine .bind (Locked.getCore (does_ite (fun hc => ?_) fun hc => ?_))
  · refine .bind (Locked.modCore (Locked.sched (l := .schedulerBack p) hw₃.cproc ?_ ?_ ?_))
    · simp
    · exact hg₃.home p hw₃.cproc
    · exact hg₃.park_ends hw₃ (.inl ⟨rfl, hc⟩) hpause hk₃ hsp₃
  · rw [not_not] at hc
    refine .bind (Locked.release_last hg₃ (.bind (Unlocked.observeBack fun c₄ hd₄ hg₄ => ?_)))
    have hw₄ : Working p c₄ := Working.drift ⟨hw₃, hc⟩ (N.drift hd₄)
    have hback : (c₄.emit (.back p b 0)).hist p =
        { c₄.hist p with paused := none, window := false } := by
      simp [Core.hist, Core.emit, observe]
    refine ⟨Good.back hg₄ hw₄.cproc hw₄.chan (by rw [(N.drift hd₄).hist, hpause]), does_pure ?_⟩
    refine ⟨⟨⟨b, rfl⟩, ⟨hw₄.toBusy.emit (by simp [observe, Core.hist]), hw₄.chan⟩, ?_⟩,
      (hsp₃.trans (N.drift hd₄).spares).trans (.of_eq rfl rfl)⟩
    rw [hback]
    exact (hk₃.drift (N.drift hd₄)).observe

/-- **`yield`** switches the process out. -/
theorem yield_ends {X : Slot → Prop} {c₀ : Core} (hw : Working p c)
    (hk : k.Ok (c.procs p) (c.hist p)) (hsp : Spares X c₀ c) :
    Runs L S N h₀ (yield k) (.unlocked b) c (Ends L S X c₀) := by
  refine pause_runs hw.toBusy hk hsp fun c₃ hg₃ hw₃ hpause hk₃ hsp₃ hc => ?_
  refine .bind (Locked.modCore (Locked.sched (l := .schedulerBack p) hw₃.cproc ?_ ?_ ?_))
  · simp
  · exact hg₃.home p hw₃.cproc
  · exact hg₃.park_ends hw₃ (.inr ⟨rfl, hc hw.chan⟩) hpause hk₃ hsp₃

end OsKernel
