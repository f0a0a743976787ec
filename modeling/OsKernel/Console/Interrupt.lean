import OsKernel.Console.Ring
import OsKernel.Proc.Sleep

/-!
# Interrupts

`consoleintr` takes a character into the ring and wakes the readers when it commits what was
typed; `clockintr` counts. Both run with their lock held, so other code sees them as one change
of the data structures, which lies within `Drift` and keeps `Good`. The readers that `consoleintr`
wakes are all those on the channel `&cons.r`, so that none of them sleeps on while there is
something to read.
-/

namespace OsKernel

variable {L : Layout} {S : Site} {N : Env} {D : Discipline} {h₀ : Hart} {b : Bool}
  {ls : Finset Lock} {c c' : Core} {p : Slot}

/-! ### The transmitter -/

/-- The change of `uartputc_sync`. -/
def Core.send (ch : UInt8) (c : Core) : Core := { c with tx := c.tx ++ [ch] }

theorem Good.send (hg : Good L S c) (ch : UInt8) : Good L S (c.send ch) :=
  ⟨hg.kernel, hg.initproc, hg.spaces, hg.slot, hg.kin, hg.waiting, hg.ring, hg.fails,
    hg.pids, hg.boot, hg.unloaded, hg.home, hg.legal, hg.exits⟩

theorem Drift.send (c : Core) (ch : UInt8) : Drift c (c.send ch) :=
  ⟨rfl, rfl, rfl, rfl, rfl, rfl, rfl, fun _ => .inl rfl, rfl⟩

/-- The bytes have been sent one after the other. -/
inductive Sent (N : Env) : List UInt8 → Core → Core → Prop
  | nil {c c' : Core} (h : N.Rel c c') : Sent N [] c c'
  | cons {ch : UInt8} {bytes : List UInt8} {c c₁ c' : Core} (h : N.Rel c c₁)
      (hsent : Sent N bytes (c₁.send ch) c') : Sent N (ch :: bytes) c c'

theorem Sent.drift {bytes : List UInt8} (h : Sent N bytes c c') : Drift c c' := by
  induction h with
  | nil h => exact N.drift h
  | cons h _ ih => exact (N.drift h).trans ((Drift.send _ _).trans ih)

/-- Without interrupts nothing else changes. -/
theorem Sent.alone {bytes : List UInt8} (h : Sent .alone bytes c c') :
    c' = { c with tx := c.tx ++ bytes } := by
  induction h with
  | nil h =>
    obtain rfl : _ = _ := h
    simp
  | cons h _ ih =>
    obtain rfl : _ = _ := h
    rw [ih]
    simp [Core.send]

/-- Sending bytes outside critical sections. -/
theorem putBytes_runs : ∀ (bytes : List UInt8) {c : Core} {Q : Unit → Mode → Core → Prop},
    Good L S c → (∀ c', Sent N bytes c c' → Good L S c' → Q () (.unlocked b) c') →
    Runs L S N h₀ (putBytes bytes) (.unlocked b) c Q
  | [], c, Q, hg, h => does_pure (h c (.nil (N.refl c)) hg)
  | ch :: bytes, c, Q, _, h => by
    refine .bind (Unlocked.section fun c₁ hd₁ hg₁ => ⟨Good.send hg₁ ch, ?_⟩)
    exact putBytes_runs bytes (Good.send hg₁ ch) fun c' hs hg' => h c' (.cons hd₁ hs) hg'

theorem printf_runs {Q : Unit → Mode → Core → Prop} (hg : Good L S c) (fmt : String)
    (args : List Arg) (h : ∀ c', Drift c c' → Good L S c' → Q () (.unlocked b) c') :
    Runs L S N h₀ (printf fmt args) (.unlocked b) c Q :=
  putBytes_runs _ hg fun c' hs => h c' hs.drift

/-! ### What the devices hold -/

theorem Good.devices {claim : BitVec 32} {rx input : List UInt8} (hg : Good L S c) :
    Good L S { c with claim := claim, rx := rx, input := input } :=
  ⟨hg.kernel, hg.initproc, hg.spaces, hg.slot, hg.kin, hg.waiting, hg.ring, hg.fails,
    hg.pids, hg.boot, hg.unloaded, hg.home, hg.legal, hg.exits⟩

theorem Drift.devices {claim : BitVec 32} {rx input : List UInt8} :
    Drift c { c with claim := claim, rx := rx, input := input } :=
  ⟨rfl, rfl, rfl, rfl, rfl, rfl, rfl, fun _ => .inl rfl, rfl⟩

/-! ### The ring -/

/-- The change of `consoleintr` for a character it takes. -/
def Core.typed (ch : UInt8) (commit : Bool) (c : Core) : Core :=
  let k := c.cons.push (normalize ch)
  let c := { c with
    cons := if commit then k.commit else k
    tx := c.tx ++ [normalize ch]
    log := .echoed (normalize ch) :: .arrived ch :: c.log }
  if commit then c.wakeAll (some .consR) else c

/-- Readers are woken before they could miss what is committed. -/
theorem Good.typed (hg : Good L S c) {ch : UInt8} (hch : ch ≠ 0)
    (hroom : (c.cons.e - c.cons.r).toNat < inputBufSize) {commit : Bool}
    (hc : commit = false → ((c.cons.push (normalize ch)).e - c.cons.r).toNat ≠ inputBufSize) :
    Good L S (c.typed ch commit) := by
  have hlegal : Legal S.init (.echoed (normalize ch) :: .arrived ch :: c.log) :=
    ⟨trivial, trivial, hg.legal⟩
  have hexits : PositiveExits c.log →
      PositiveExits (.echoed (normalize ch) :: .arrived ch :: c.log) :=
    fun h => (h.cons (by simp)).cons (by simp)
  cases commit with
  | false =>
    have hring := hg.ring.push (d := c.cons.push (normalize ch)) hch hroom rfl rfl rfl
      (.inl ⟨rfl, hc rfl⟩)
    exact hg.device (fun i => .refl _)
      (fun i => (hg.slot i).congr (.inl (.refl _ _ _)) fun _ => id) rfl hring hlegal hexits
  | true =>
    have hring := hg.ring.push (d := (c.cons.push (normalize ch)).commit) hch hroom rfl rfl rfl
      (.inr rfl)
    refine hg.device (f := (c.wakeAll (some .consR)).procs) (c.tame_wakeAll _) (fun i => ?_) rfl
      hring hlegal hexits
    refine ((hg.slot i).wakeAll (some .consR)).congr (.inl (.refl _ _ _)) fun hchan => ?_
    -- after the wakeup nobody is left on the channel
    rcases c.wakeAll_procs (some .consR) i with he | ⟨-, he⟩
    · rw [he] at hchan
      have hw := congrArg Proc.chan he
      rw [hchan, show (c.wakeAll (some .consR)).procs i = (c.procs i).woken from
        Proc.wake_self hchan] at hw
      cases hw
    · rw [he] at hchan
      cases hchan

theorem Drift.wakeAll {k : Cons} {tx : List UInt8} {l : List Event} {ticks : BitVec 32} {ch : Chan}
    (hl : history l = history c.log) : Drift c { c.wakeAll (some ch) with
      cons := k, tx := tx, log := l, ticks := ticks } := by
  refine ⟨rfl, rfl, rfl, rfl, rfl, rfl, rfl, fun i => ?_, hl⟩
  rcases c.wakeAll_procs (some ch) i with he | ⟨hch, he⟩
  · exact .inl he
  · exact .inr ⟨by rw [hch]; simp, he⟩

theorem Drift.typed (c : Core) (ch : UInt8) (commit : Bool) : Drift c (c.typed ch commit) := by
  cases commit with
  | false => exact ⟨rfl, rfl, rfl, rfl, rfl, rfl, rfl, fun _ => .inl rfl, rfl⟩
  | true => exact Drift.wakeAll rfl

/-- **`consoleintr`** keeps the invariant and stays within the interference. -/
theorem consoleintr_runs (ch : UInt8) :
    Runs L S N h₀ (consoleintr L ch) (.unlocked b) c fun _ μ c' => μ = .unlocked b ∧
      Drift c c' := by
  refine .bind (Unlocked.acquire fun c₁ hd₁ hg₁ => .bind ?_)
  replace hg₁ : Good L S c₁ := hg₁
  have hd₁ := N.drift hd₁
  have hcons : ∀ c', Good L S c' → Drift c₁ c' → Runs L S N h₀ (release .cons)
      (.locked {.cons} b) c'
      fun _ μ c' => μ = .unlocked b ∧ Drift c c' := fun c' hg' hd' =>
    Locked.release_last hg' ⟨rfl, hd₁.trans hd'⟩
  refine .bind (Locked.modCore (.bind (Locked.getCore (does_ite (fun hacc => ?_) fun hacc => ?_))))
  · -- the character is taken; whether it is committed decides about the wakeup
    refine .bind (Locked.section (.bind (Locked.modCore (.bind (Locked.getCore ?_)))))
    refine does_ite (fun _ => .bind (Locked.modCore (Locked.wakeup (by simp) (by simp) ?_)))
      fun hnot => does_pure ?_
    · exact hcons (c₁.typed ch true) (hg₁.typed hacc.1 hacc.2 fun h => by cases h) (.typed _ _ _)
    · rw [not_or, not_or] at hnot
      exact hcons (c₁.typed ch false) (hg₁.typed hacc.1 hacc.2 fun _ => hnot.2.2) (.typed _ _ _)
  · refine does_pure (hcons (c₁.emit (.arrived ch)) ?_ ?_)
    · exact hg₁.device (fun i => .refl _)
        (fun i => (hg₁.slot i).congr (.inl (.refl _ _ _)) fun _ => id) rfl (hg₁.ring.reject hacc)
        ⟨trivial, hg₁.legal⟩ fun h => h.cons (by simp)
    · exact ⟨rfl, rfl, rfl, rfl, rfl, rfl, rfl, fun _ => .inl rfl, rfl⟩

/-- The loop of `uartintr`. -/
theorem uartintrLoop_runs : ∀ (rx : List UInt8) {c : Core},
    Runs L S N h₀ (uartintrLoop L rx) (.unlocked b) c fun _ μ c' => μ = .unlocked b ∧ Drift c c'
  | [], c => does_pure ⟨rfl, .refl c⟩
  | ch :: rx, c => by
    refine .bind (Unlocked.modCore fun c₁ hd₁ hg₁ => ⟨Good.devices hg₁, .bind
      ((consoleintr_runs ch).mono ?_)⟩)
    rintro _ _ c₂ ⟨rfl, hd₂⟩
    refine (uartintrLoop_runs rx).mono ?_
    rintro _ _ c₃ ⟨rfl, hd₃⟩
    exact ⟨rfl, (N.drift hd₁).trans (Drift.devices.trans (hd₂.trans hd₃))⟩

/-! ### The clock and `devintr` -/

theorem Good.tick (hg : Good L S c) {ticks : BitVec 32} :
    Good L S { c.wakeAll (some .ticks) with ticks := ticks } :=
  hg.device (c.tame_wakeAll _) (fun i => (hg.slot i).wakeAll _) rfl hg.ring hg.legal id

theorem clockintr_runs :
    Runs L S N h₀ clockintr (.unlocked b) c fun _ μ c' => μ = .unlocked b ∧ Drift c c' := by
  refine .bind (Unlocked.getHart fun c₁ _ hd₁ _ _ => does_ite (fun _ => ?_)
    fun _ => does_pure ⟨rfl, N.drift hd₁⟩)
  refine .bind (Unlocked.acquire fun c₂ hd₂ hg₂ => .bind (Locked.modCore (.bind
    (Locked.wakeup (by simp) (by simp) ?_))))
  refine Locked.release_last (Good.tick (L := L) (S := S) hg₂) ⟨rfl, ?_⟩
  exact (N.drift hd₁).trans ((N.drift hd₂).trans (Drift.wakeAll rfl))

/-- `scause` names a device. -/
def IsDevice (scause : BitVec 64) : Prop := scause = causeExternal ∨ scause = causeTimer

/-- The part of `devintr` for the PLIC. -/
theorem devintr_external_runs :
    Runs L S N h₀ (do
      let irq ← getCore Core.claim
      if irq = uart0Irq then
        uartintr L
        return 1
      else if irq ≠ 0 then
        printf "unexpected interrupt irq=%d\n" [.word (irq.signExtend 64)]
        return 1
      else
        return 1) (.unlocked b) c fun d μ c' => d = 1 ∧ μ = .unlocked b ∧ Drift c c' := by
  refine .bind (Unlocked.getCore fun c₁ hd₁ hg₁ => does_ite (fun _ => ?_) fun _ =>
    does_ite (fun _ => ?_) fun _ => does_pure ⟨rfl, rfl, N.drift hd₁⟩)
  · refine .bind (.bind (Unlocked.getCore fun c₂ hd₂ _ => (uartintrLoop_runs _).mono ?_))
    rintro _ _ c₃ ⟨rfl, hd₃⟩
    exact does_pure ⟨rfl, rfl, (N.drift hd₁).trans ((N.drift hd₂).trans hd₃)⟩
  · refine .bind ?_
    refine printf_runs hg₁ _ _ ?_
    intro c₂ hd₂ _
    exact does_pure ⟨rfl, rfl, (N.drift hd₁).trans hd₂⟩

/-- **`devintr`**: what it does to the data structures is `Drift`, and its result tells whether
`scause` names a device. -/
theorem devintr_wp {s : K} (hs : Mode.IsUnlocked L (N.discipline L S) h₀ false s) :
    (N.discipline L S).wp L (devintr L) (fun dev t =>
      Mode.IsUnlocked L (N.discipline L S) h₀ false t ∧ Drift s.core t.core ∧
        (dev ≠ 0 ↔ IsDevice s.hart.scause)) s := by
  have hend : ∀ {x : KernelM ℕ} (dev : ℕ), (dev ≠ 0 ↔ IsDevice s.hart.scause) →
      Runs L S N h₀ x (.unlocked false) s.core (fun d μ c' => d = dev ∧ μ = .unlocked false ∧
        Drift s.core c') →
      (N.discipline L S).wp L x (fun dev t =>
        Mode.IsUnlocked L (N.discipline L S) h₀ false t ∧ Drift s.core t.core ∧
          (dev ≠ 0 ↔ IsDevice s.hart.scause)) s := by
    intro x dev hdev hx
    refine Discipline.wp_mono ?_ (hx s hs rfl)
    rintro d t - ⟨μ, hμ, rfl, rfl, hd⟩
    exact ⟨hμ, hd, hdev⟩
  refine Discipline.wp_bind (Discipline.quiet_getHart hs.sie hs.unlocked.inv ?_)
  by_cases hext : s.hart.scause = causeExternal
  · rw [if_pos hext]
    exact hend 1 (iff_of_true one_ne_zero (.inl hext)) devintr_external_runs
  rw [if_neg hext]
  by_cases htimer : s.hart.scause = causeTimer
  · rw [if_pos htimer]
    refine hend 2 (iff_of_true two_ne_zero (.inr htimer)) (.bind (clockintr_runs.mono ?_))
    rintro _ _ c₁ ⟨rfl, hd₁⟩
    exact does_pure ⟨rfl, rfl, hd₁⟩
  · rw [if_neg htimer]
    refine hend 0 (iff_of_false (fun h => h rfl) ?_) (does_pure ⟨rfl, rfl, .refl _⟩)
    exact fun h => h.elim hext htimer

end OsKernel
