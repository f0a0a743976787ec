import OsKernel.Kernel.State

/-!
# `spinlock.c` and the discipline of locks and interrupts

`push_off`, `pop_off`, `acquire` and `release`, and the rules by which the rest of the
kernel reasons about them. The rules do not know what the locks protect: a `Discipline`
gives the property `Good` that the data structures have whenever no lock is held, the
relation `Drift` that the interrupt handlers keep to, and the panics that count as expected.

`HartInv` is the invariant of the hart: `noff` counts the held locks and the open `push_off`
sections, and interrupts are off while it is positive. `Discipline.Inv` adds `Good` for the
states without a lock. There are two kinds of rules:

* while `noff` is positive nothing can interfere, so `acquire`, `release` and `myproc` have an
  exact effect (`Hart.lock`, `Hart.unlock`, none), and the data may be changed at will;
* at `noff = 0` the handlers may run before each step, so what is known after an `acquire` is
  known up to `Drift`, and the `release` that ends a critical section has to give `Good` back.
-/

namespace OsKernel

namespace Hart

/-- `intr_on`. -/
def intrOn (h : Hart) : Hart := { h with sie := true }

/-- `intr_off`. -/
def intrOff (h : Hart) : Hart := { h with sie := false }

/-- The assignment of `push_off` to `intena`. -/
def saveIntena (old : Bool) (h : Hart) : Hart := if h.noff = 0 then { h with intena := old } else h

/-- The last statement of `pop_off`. -/
def restore (h : Hart) : Hart := if h.noff = 0 ∧ h.intena then h.intrOn else h

/-- The count of `push_off`. -/
def push (h : Hart) : Hart := { h with noff := h.noff + 1, opens := h.opens + 1 }

/-- The count of `pop_off`. -/
def pop (h : Hart) : Hart := { h with noff := h.noff - 1, opens := h.opens - 1 }

/-- The step of `acquire` that takes the lock. -/
def take (h : Hart) (lk : Lock) : Hart :=
  { h with held := insert lk h.held, opens := if lk ∈ h.held then h.opens else h.opens - 1 }

/-- The step of `release` that gives the lock back. -/
def drop (h : Hart) (lk : Lock) : Hart :=
  { h with held := h.held.erase lk, opens := h.opens + 1 }

end Hart

/-- `push_off`. -/
def pushOff : KernelM Unit := do
  let old ← getHart Hart.sie
  modHart Hart.intrOff
  modHart (Hart.saveIntena old)
  modHart Hart.push

/-- `pop_off`. -/
def popOff : KernelM Unit := do
  let sie ← getHart Hart.sie
  if sie then
    kpanic .popOffInterruptible
  else
    let noff ← getHart Hart.noff
    if noff < 1 then
      kpanic .popOff
    else
      modHart Hart.pop
      modHart Hart.restore

/-- `holding`. -/
def holding (lk : Lock) : KernelM Bool := getHart fun h => decide (lk ∈ h.held)

/-- `__sync_lock_test_and_set(&lk->locked, 1)`. The `push_off` section of `acquire` belongs to
the lock from here on. -/
def testAndSet (lk : Lock) : KernelM Bool :=
  .step (fun s => { s with hart := s.hart.take lk }) fun s => .ret (decide (lk ∈ s.hart.held))

/-- `acquire`. On one hart a lock found locked is never released. -/
def acquire (lk : Lock) : KernelM Unit := do
  pushOff
  let held ← holding lk
  if held then
    kpanic .acquire
  else
    let old ← testAndSet lk
    if old then kpanic .hang else pure ()

/-- `release`. -/
def release (lk : Lock) : KernelM Unit := do
  let held ← holding lk
  if held then
    modHart fun h => h.drop lk
    popOff
  else
    kpanic .release

/-- `myproc`. -/
def myproc : KernelM (Option Slot) := do
  pushOff
  let p ← getCore Core.cproc
  popOff
  return p

/-- The hart in a `push_off` section. -/
def Hart.pushed (h : Hart) : Hart := (h.intrOff.saveIntena h.sie).push

theorem run_pushOff_bind {α : Type} (s : K) (k : Unit → KernelM α) :
    (pushOff >>= k).run s = (k ()).run { s with hart := s.hart.pushed } := rfl

/-- By itself `pop_off` ends a section. -/
theorem run_popOff {s : K} (hsie : s.hart.sie = false) (hnoff : 0 < s.hart.noff) :
    popOff.run s = .ok ((), { s with hart := s.hart.pop.restore }) := by
  rw [popOff, getHart, Prog.run_read_bind, if_neg (by simp [hsie]), getHart, Prog.run_read_bind,
    if_neg (by omega)]
  rfl

theorem Hart.sie_pushed (h : Hart) : h.pushed.sie = false := by
  simp only [pushed, saveIntena, push]
  split_ifs <;> rfl

theorem Hart.noff_pushed (h : Hart) : h.pushed.noff = h.noff + 1 := by
  simp only [pushed, saveIntena, push]
  split_ifs <;> rfl

theorem Hart.intena_pushed (h : Hart) :
    h.pushed.intena = if h.noff = 0 then h.sie else h.intena := by
  show (if h.noff = 0 then _ else _ : Hart).intena = _
  split_ifs <;> rfl

@[simp] theorem Hart.held_pushed (h : Hart) : h.pushed.held = h.held := by
  simp only [pushed, saveIntena, push]
  split_ifs <;> rfl

/-- By itself `acquire` takes a lock that is free. -/
theorem run_acquire_bind {α : Type} {s : K} (lk : Lock) (hlk : lk ∉ s.hart.held)
    (k : Unit → KernelM α) :
    (acquire lk >>= k).run s = (k ()).run { s with hart := s.hart.pushed.take lk } := by
  have hfree : decide (lk ∈ s.hart.pushed.held) = false := by simpa using hlk
  refine Prog.run_bind_of_ok ?_
  rw [acquire, run_pushOff_bind, holding, getHart, Prog.run_read_bind, hfree, if_neg (by decide)]
  show (if decide (lk ∈ s.hart.pushed.held) = true then _ else _ : KernelM Unit).run _ = _
  rw [hfree, if_neg (by decide)]
  rfl

/-- By itself `release` gives back a lock that is held. -/
theorem run_release_bind {α : Type} {s : K} (lk : Lock) (hlk : lk ∈ s.hart.held)
    (hsie : s.hart.sie = false) (hnoff : 0 < s.hart.noff) (k : Unit → KernelM α) :
    (release lk >>= k).run s = (k ()).run { s with hart := (s.hart.drop lk).pop.restore } := by
  refine Prog.run_bind_of_ok ?_
  rw [release, holding, getHart, Prog.run_read_bind, if_pos (by simpa using hlk), modHart,
    Prog.run_update_bind]
  exact run_popOff hsie hnoff

/-- The hart after a `push_off` section. -/
def Hart.visited (h : Hart) : Hart := h.pushed.pop.restore

/-- By itself `release` ends the section that `acquire` began. -/
theorem run_release_taken_bind {α : Type} {c : Core} {h : Hart} (lk : Lock) (hlk : lk ∉ h.held)
    (k : Unit → KernelM α) :
    (release lk >>= k).run ⟨c, h.pushed.take lk⟩ = (k ()).run ⟨c, h.visited⟩ := by
  have hopens : h.pushed.opens - 1 + 1 = h.pushed.opens := rfl
  have hdrop : (h.pushed.take lk).drop lk = h.pushed := by
    simp only [Hart.take, Hart.drop, Hart.held_pushed, if_neg hlk, hopens, Finset.erase_insert hlk]
    rw [← h.held_pushed]
  rw [run_release_bind lk (Finset.mem_insert_self ..) h.sie_pushed (Nat.succ_pos _), hdrop]
  rfl

theorem Hart.visited_of_unlocked {h : Hart} (h0 : h.noff = 0) :
    h.visited = { h with intena := h.sie } := by
  cases hs : h.sie <;> simp [visited, pushed, saveIntena, push, pop, restore, intrOff, intrOn, h0,
    hs]

/-- A section leaves its trace in `intena` only, if interrupts are off while one is open. -/
theorem Hart.visited_eq {h : Hart} (hoff : 0 < h.noff → h.sie = false) :
    ∃ b, h.visited = { h with intena := b } := by
  rcases Nat.eq_zero_or_pos h.noff with h0 | hpos
  · exact ⟨h.sie, visited_of_unlocked h0⟩
  · refine ⟨h.intena, ?_⟩
    have := hoff hpos
    simp [visited, pushed, saveIntena, push, pop, restore, intrOff, hpos.ne', ← this]

/-- By itself `myproc` reads `cpus[0].proc`, and leaves the data structures alone. -/
theorem run_myproc (s : K) :
    myproc.run s = .ok (s.core.cproc, { s with hart := s.hart.visited }) := by
  rw [myproc, run_pushOff_bind, getCore, Prog.run_read_bind,
    Prog.run_bind_of_ok (run_popOff s.hart.sie_pushed (Nat.succ_pos _))]
  rfl

/-- Code that goes on with the running process. -/
theorem run_myproc_bind {α : Type} {s : K} {p : Slot} (hp : s.core.cproc = some p)
    (k : Slot → KernelM α) : (do let p ← myproc; let p ← deref p; k p : KernelM α).run s =
      (k p).run { s with hart := s.hart.visited } := by
  rw [Prog.run_bind_of_ok (run_myproc s), hp]
  rfl

/-! ### What leaves the data structures alone -/

theorem pushOff_post (s : K) : pushOff.Post s fun _ t => t.core = s.core := by
  rintro _ _ ⟨⟩
  rfl

theorem popOff_post (s : K) : popOff.Post s fun _ t => t.core = s.core := by
  refine .bind (Prog.post_read (Prog.post_ite (fun _ => Prog.post_panic) fun _ => .bind
    (Prog.post_read (Prog.post_ite (fun _ => Prog.post_panic) fun _ => ?_))))
  rintro _ _ ⟨⟩
  rfl

theorem release_post (lk : Lock) (s : K) : (release lk).Post s fun _ t => t.core = s.core :=
  .bind (Prog.post_read (Prog.post_ite (fun _ => .bind (Prog.post_update (popOff_post _)))
    fun _ => Prog.post_panic))

theorem acquire_post (lk : Lock) (s : K) : (acquire lk).Post s fun _ t => t.core = s.core := by
  refine .bind ((pushOff_post s).mono fun _ t ht => .bind (Prog.post_read (Prog.post_ite
    (fun _ => Prog.post_panic) fun _ => .bind ?_)))
  rintro _ _ ⟨⟩
  exact Prog.post_ite (fun _ => Prog.post_panic) fun _ => Prog.post_pure ht

theorem myproc_post (s : K) : myproc.Post s fun q t => q = s.core.cproc ∧ t.core = s.core := by
  intro q t hrun
  rw [run_myproc] at hrun
  cases hrun
  exact ⟨rfl, rfl⟩

/-- Code that goes on with the running process. -/
theorem myproc_bind_post {α : Type} {s : K} {p : Slot} {k : Slot → KernelM α} {Q : α → K → Prop}
    (hp : s.core.cproc = some p) (h : ∀ t : K, t.core = s.core → (k p).Post t Q) :
    (do let q ← myproc; let q ← deref q; k q : KernelM α).Post s Q := by
  refine .bind ((myproc_post s).mono ?_)
  rintro _ t ⟨rfl, ht⟩
  rw [hp]
  exact .bind (Prog.post_pure (h t ht))

/-! ### The invariant of the hart -/

/-- An interrupt can be taken by the kernel. -/
def Hart.Enabled (h : Hart) : Prop := h.sie = true ∧ h.supervisor = true

/-- The invariant of locks and interrupts. While the trap vector is the user's, interrupts
are off and no lock is held; in an interrupt handler (`q`) interrupts are off throughout. -/
structure HartInv (L : Layout) (q : Prop) (h : Hart) : Prop where
  count : h.noff = h.held.card + h.opens
  masked : 0 < h.noff → h.sie = false
  vector : h.supervisor = true →
    h.stvec = BitVec.ofNat 64 L.kernelvec ∨ h.sie = false ∧ h.noff = 0
  quiet : q → h.sie = false ∧ (0 < h.noff → h.intena = false)

/-- The harts agree on all that an interrupt handler leaves as it found it: all but `intena`
and the registers of the trap itself. -/
structure Hart.Same (h h' : Hart) : Prop where
  sie : h'.sie = h.sie
  supervisor : h'.supervisor = h.supervisor
  stvec : h'.stvec = h.stvec
  satp : h'.satp = h.satp
  regs : h'.regs = h.regs
  held : h'.held = h.held
  noff : h'.noff = h.noff
  opens : h'.opens = h.opens

namespace Hart

theorem Same.refl (h : Hart) : h.Same h := ⟨rfl, rfl, rfl, rfl, rfl, rfl, rfl, rfl⟩

theorem Same.trans {h h' h'' : Hart} (a : h.Same h') (b : h'.Same h'') : h.Same h'' :=
  ⟨b.sie.trans a.sie, b.supervisor.trans a.supervisor, b.stvec.trans a.stvec, b.satp.trans a.satp,
    b.regs.trans a.regs, b.held.trans a.held, b.noff.trans a.noff, b.opens.trans a.opens⟩

/-- `acquire` of a free lock when interrupts are already off. -/
def lock (h : Hart) (lk : Lock) : Hart := { h with noff := h.noff + 1, held := insert lk h.held }

/-- `release` of one of several locks. -/
def unlock (h : Hart) (lk : Lock) : Hart :=
  { h with noff := h.noff - 1, held := h.held.erase lk }

/-- `acquire` of the first lock. -/
def enter (h : Hart) (lk : Lock) : Hart :=
  { h with sie := false, intena := h.sie, noff := 1, held := insert lk h.held }

/-- `release` of the last lock. -/
def leave (h : Hart) (lk : Lock) : Hart :=
  { h with sie := h.intena, noff := 0, held := h.held.erase lk }

/-- `pop_off` of the only section. -/
def finish (h : Hart) : Hart := { h with sie := h.intena, noff := 0, opens := h.opens - 1 }

/-- `push_off` that opens the first section. -/
def start (h : Hart) : Hart := { h with sie := false, intena := h.sie, noff := 1, opens := 1 }

theorem finish_drop (h : Hart) (lk : Lock) : (h.drop lk).finish = h.leave lk := by
  simp [drop, finish, leave]

theorem take_push {h : Hart} {lk : Lock} (hlk : lk ∉ h.held) : h.push.take lk = h.lock lk := by
  simp [push, take, lock, hlk]

theorem pop_push (h : Hart) : h.push.pop = h := by simp [push, pop]

theorem pop_drop (h : Hart) (lk : Lock) : (h.drop lk).pop = h.unlock lk := by
  simp [drop, pop, unlock]

end Hart

section HartInv

variable {L : Layout} {q : Prop} {h h' : Hart} {lk : Lock}

theorem HartInv.same (hi : HartInv L q h) (a : h.Same h') (h0 : h.noff = 0) :
    HartInv L q h' where
  count := by rw [a.noff, a.held, a.opens, hi.count]
  masked := by rw [a.noff, a.sie]; exact hi.masked
  vector := by rw [a.supervisor, a.stvec, a.sie, a.noff]; exact hi.vector
  quiet hq := by
    rw [a.noff, a.sie, h0]
    exact ⟨(hi.quiet hq).1, fun hlt => absurd hlt (by omega)⟩

theorem HartInv.noff_of_enabled (hi : HartInv L q h) (he : h.Enabled) :
    h.noff = 0 := by
  rcases Nat.eq_zero_or_pos h.noff with h0 | hpos
  · exact h0
  · exact absurd he.1 (by rw [hi.masked hpos]; decide)

theorem HartInv.push (hi : HartInv L q h) (hpos : 0 < h.noff) :
    HartInv L q h.push where
  count := by
    simp only [Hart.push, hi.count]
    omega
  masked _ := hi.masked hpos
  vector hs := .inl ((hi.vector hs).resolve_right fun hn => by omega)
  quiet hq := ⟨(hi.quiet hq).1, fun _ => (hi.quiet hq).2 (by omega)⟩

theorem HartInv.pop (hi : HartInv L q h) (hopen : 0 < h.opens)
    (hpos : 1 < h.noff) : HartInv L q h.pop where
  count := by
    simp only [Hart.pop, hi.count]
    omega
  masked _ := hi.masked (by omega)
  vector hs := .inl ((hi.vector hs).resolve_right fun hn => by omega)
  quiet hq := ⟨(hi.quiet hq).1, fun _ => (hi.quiet hq).2 (by omega)⟩

theorem HartInv.drop (hi : HartInv L q h) (hlk : lk ∈ h.held) :
    HartInv L q (h.drop lk) where
  count := by
    have := Finset.card_pos.mpr ⟨lk, hlk⟩
    simp only [Hart.drop, Finset.card_erase_of_mem hlk, hi.count]
    omega
  masked := hi.masked
  vector := hi.vector
  quiet := hi.quiet

theorem HartInv.lock (hi : HartInv L q h) (hpos : 0 < h.noff)
    (hlk : lk ∉ h.held) : HartInv L q (h.lock lk) where
  count := by
    simp only [Hart.lock, Finset.card_insert_of_notMem hlk, hi.count]
    omega
  masked _ := hi.masked hpos
  vector hs := .inl ((hi.vector hs).resolve_right fun hn => by omega)
  quiet hq := ⟨(hi.quiet hq).1, fun _ => (hi.quiet hq).2 (by omega)⟩

theorem HartInv.unlock (hi : HartInv L q h) (hpos : 1 < h.noff)
    (hlk : lk ∈ h.held) : HartInv L q (h.unlock lk) where
  count := by
    have := Finset.card_pos.mpr ⟨lk, hlk⟩
    simp only [Hart.unlock, Finset.card_erase_of_mem hlk, hi.count]
    omega
  masked _ := hi.masked (by omega)
  vector hs := .inl ((hi.vector hs).resolve_right fun hn => by omega)
  quiet hq := ⟨(hi.quiet hq).1, fun _ => (hi.quiet hq).2 (by omega)⟩

end HartInv

/-! ### Disciplines -/

/-- What the users of the locks agree on. -/
structure Discipline where
  /-- Holds of the data structures whenever no lock is held. -/
  Good : Core → Prop
  /-- What interrupt handlers may change. -/
  Drift : Core → Core → Prop
  /-- The panics that can happen. -/
  Stops : Panic → Prop
  /-- The program is an interrupt handler. -/
  Quiet : Prop
  refl : ∀ c, Drift c c
  trans : ∀ {c c' c''}, Drift c c' → Drift c' c'' → Drift c c''

namespace Discipline

variable {L : Layout} (L) (D : Discipline)

/-- The invariant of every state. -/
def Inv (s : K) : Prop := HartInv L D.Quiet s.hart ∧ (s.hart.noff = 0 → D.Good s.core)

/-- What can happen between two steps. -/
def Interferes (s t : K) : Prop :=
  s = t ∨ s.hart.Enabled ∧ s.hart.Same t.hart ∧ D.Drift s.core t.core ∧ D.Good t.core

/-- The program keeps to the discipline and returns with `Q`. -/
def wp {α : Type} (p : KernelM α) (Q : α → K → Prop) (s : K) : Prop :=
  Prog.wp (D.Inv L) D.Interferes D.Stops p Q s

/-- What is known at `noff = 0` after a step: what was known before it, up to interrupts and
up to `intena`. -/
def After (s t : K) : Prop :=
  s.hart.Same t.hart ∧ (s.core = t.core ∨ s.hart.sie = true ∧ D.Drift s.core t.core)

variable {L} {D} {α β : Type} {s t : K} {p : KernelM α} {f : α → KernelM β}
  {Q Q' : α → K → Prop} {P : β → K → Prop} {lk : Lock}

theorem After.refl (s : K) : D.After s s := ⟨.refl _, .inl rfl⟩

theorem After.trans {u : K} (h : D.After s t) (h' : D.After t u) : D.After s u := by
  refine ⟨h.1.trans h'.1, ?_⟩
  rcases h.2 with hc | ⟨hs, hc⟩
  · rcases h'.2 with hc' | ⟨hs', hc'⟩
    · exact .inl (hc.trans hc')
    · exact .inr ⟨h.1.sie.symm.trans hs', hc ▸ hc'⟩
  · rcases h'.2 with hc' | ⟨hs', hc'⟩
    · exact .inr ⟨hs, hc' ▸ hc⟩
    · exact .inr ⟨hs, D.trans hc hc'⟩

/-- Up to interrupts a property they respect stays. -/
theorem After.drift (h : D.After s t) : D.Drift s.core t.core := by
  rcases h.2 with hc | ⟨-, hc⟩
  · exact hc ▸ D.refl _
  · exact hc

theorem interferes_refl (s : K) : D.Interferes s s := .inl rfl

theorem interferes_trans {u : K} (h : D.Interferes s t) (h' : D.Interferes t u) :
    D.Interferes s u := by
  rcases h with rfl | ⟨he, hs, hc, hg⟩
  · exact h'
  · rcases h' with rfl | ⟨-, hs', hc', hg'⟩
    · exact .inr ⟨he, hs, hc, hg⟩
    · exact .inr ⟨he, hs.trans hs', D.trans hc hc', hg'⟩

theorem Interferes.after (h : D.Interferes s t) : D.After s t := by
  rcases h with rfl | ⟨he, hs, hc, -⟩
  · exact .refl _
  · exact ⟨hs, .inr ⟨he.1, hc⟩⟩

theorem Interferes.inv (h : D.Interferes s t) (hI : D.Inv L s) : D.Inv L t := by
  rcases h with rfl | ⟨he, hs, -, hg⟩
  · exact hI
  · exact ⟨hI.1.same hs (hI.1.noff_of_enabled he), fun _ => hg⟩

/-- With interrupts off nothing interferes. -/
theorem Interferes.eq (h : D.Interferes s t) (hs : s.hart.sie = false) : s = t := by
  rcases h with rfl | ⟨he, -, -⟩
  · rfl
  · exact absurd he.1 (by rw [hs]; decide)

/-! ### Rules for single steps -/

theorem wp_mono (hQ : ∀ a t, D.Inv L t → Q a t → Q' a t) (h : D.wp L p Q s) : D.wp L p Q' s :=
  Prog.wp_mono hQ h

theorem wp_bind (h : D.wp L p (fun a t => D.wp L (f a) P t) s) : D.wp L (p >>= f) P s :=
  Prog.wp_bind h

theorem wp_pure {a : α} (hI : D.Inv L s) (h : Q a s) : D.wp L (pure a) Q s := ⟨hI, h⟩

theorem wp_kpanic {e : Panic} (hI : D.Inv L s) (h : D.Stops e) : D.wp L (kpanic e) Q s := ⟨hI, h⟩

theorem wp_getHart {g : Hart → α} (hI : D.Inv L s)
    (h : ∀ t, D.Interferes s t → Q (g t.hart) t) : D.wp L (getHart g) Q s :=
  ⟨hI, fun t ht => ⟨ht.inv hI, h t ht⟩⟩

theorem wp_getCore {g : Core → α} (hI : D.Inv L s)
    (h : ∀ t, D.Interferes s t → Q (g t.core) t) : D.wp L (getCore g) Q s :=
  ⟨hI, fun t ht => ⟨ht.inv hI, h t ht⟩⟩

theorem wp_modHart {g : Hart → Hart} {Q : Unit → K → Prop} (hI : D.Inv L s)
    (h : ∀ t, D.Interferes s t →
      D.Inv L { t with hart := g t.hart } ∧ Q () { t with hart := g t.hart }) :
    D.wp L (modHart g) Q s := ⟨hI, h⟩

theorem wp_modCore {g : Core → Core} {Q : Unit → K → Prop} (hI : D.Inv L s)
    (h : ∀ t, D.Interferes s t →
      D.Inv L { t with core := g t.core } ∧ Q () { t with core := g t.core }) :
    D.wp L (modCore g) Q s := ⟨hI, h⟩

theorem wp_coreAtomic {x : CoreM α} (hI : D.Inv L s)
    (hok : ∀ t, D.Interferes s t → ∀ a c, x t.core = .ok (a, c) →
      D.Inv L { t with core := c } ∧ Q a { t with core := c })
    (herr : ∀ t, D.Interferes s t → ∀ e, x t.core = .error e → D.Stops e) :
    D.wp L (coreAtomic x) Q s := by
  refine Prog.wp_atomic hI (fun t ht a u hx => ?_) fun t ht e hx => ⟨ht.inv hI, ?_⟩
  · obtain ⟨c, hc, rfl⟩ := PanicM.zoom_eq_ok_iff.mp hx
    exact hok t ht a c hc
  · exact herr t ht e (PanicM.zoom_eq_error_iff.mp hx)

/-! ### With interrupts off -/

section Quiet

variable (hs : s.hart.sie = false)

include hs

theorem quiet_getHart {g : Hart → α} (hI : D.Inv L s) (h : Q (g s.hart) s) :
    D.wp L (getHart g) Q s :=
  wp_getHart hI fun t ht => by rwa [← ht.eq hs]

theorem quiet_getCore {g : Core → α} (hI : D.Inv L s) (h : Q (g s.core) s) :
    D.wp L (getCore g) Q s :=
  wp_getCore hI fun t ht => by rwa [← ht.eq hs]

theorem quiet_modHart {g : Hart → Hart} {Q : Unit → K → Prop} (hI : D.Inv L s)
    (hI' : D.Inv L { s with hart := g s.hart }) (h : Q () { s with hart := g s.hart }) :
    D.wp L (modHart g) Q s :=
  wp_modHart hI fun t ht => by rw [← ht.eq hs]; exact ⟨hI', h⟩

theorem quiet_modCore {g : Core → Core} {Q : Unit → K → Prop} (hI : D.Inv L s)
    (hgood : s.hart.noff = 0 → D.Good (g s.core)) (h : Q () { s with core := g s.core }) :
    D.wp L (modCore g) Q s :=
  wp_modCore hI fun t ht => by rw [← ht.eq hs]; exact ⟨⟨hI.1, hgood⟩, h⟩

theorem quiet_coreAtomic {x : CoreM α} (hI : D.Inv L s)
    (hok : ∀ a c, x s.core = .ok (a, c) →
      (s.hart.noff = 0 → D.Good c) ∧ Q a { s with core := c })
    (herr : ∀ e, x s.core = .error e → D.Stops e) : D.wp L (coreAtomic x) Q s := by
  refine wp_coreAtomic hI (fun t ht a c hx => ?_) fun t ht e hx => ?_
  · rw [← ht.eq hs] at hx ⊢
    obtain ⟨hgood, hq⟩ := hok a c hx
    exact ⟨⟨hI.1, hgood⟩, hq⟩
  · rw [← ht.eq hs] at hx
    exact herr e hx

end Quiet

/-! ### While a lock is held -/

/-- Interrupts are off because a lock is held or a `push_off` section is open. -/
structure Masked (L : Layout) (D : Discipline) (s : K) : Prop where
  hart : HartInv L D.Quiet s.hart
  pos : 0 < s.hart.noff

namespace Masked

variable (h : Masked L D s)

include h

theorem inv : D.Inv L s := ⟨h.hart, fun h0 => absurd h.pos (by omega)⟩

theorem sie : s.hart.sie = false := h.hart.masked h.pos

theorem core (c : Core) : Masked L D { s with core := c } := ⟨h.hart, h.pos⟩

theorem getCore {g : Core → α} (hq : Q (g s.core) s) : D.wp L (getCore g) Q s :=
  quiet_getCore h.sie h.inv hq

theorem getHart {g : Hart → α} (hq : Q (g s.hart) s) : D.wp L (getHart g) Q s :=
  quiet_getHart h.sie h.inv hq

theorem modCore {g : Core → Core} {Q : Unit → K → Prop} (hq : Q () { s with core := g s.core }) :
    D.wp L (modCore g) Q s :=
  quiet_modCore h.sie h.inv (fun h0 => absurd h.pos (by omega)) hq

theorem coreAtomic {x : CoreM α} (hok : ∀ a c, x s.core = .ok (a, c) → Q a { s with core := c })
    (herr : ∀ e, x s.core = .error e → D.Stops e) : D.wp L (coreAtomic x) Q s :=
  quiet_coreAtomic h.sie h.inv
    (fun a c hx => ⟨fun h0 => absurd h.pos (by omega), hok a c hx⟩) herr

/-- A computation that returns, as one step. -/
theorem coreReturns {x : CoreM α} (hx : x.Returns s.core fun a c => Q a { s with core := c }) :
    D.wp L (OsKernel.coreAtomic x) Q s := by
  obtain ⟨a, c, hx, hq⟩ := hx
  refine h.coreAtomic (fun b d hb => ?_) fun e he => ?_
  · rw [hx] at hb
    cases hb
    exact hq
  · rw [hx] at he
    cases he

theorem push : Masked L D { s with hart := s.hart.push } :=
  ⟨h.hart.push h.pos, by simp [Hart.push]⟩

theorem pushOff {Q : Unit → K → Prop} (hq : Q () { s with hart := s.hart.push }) :
    D.wp L pushOff Q s := by
  have hpos := h.pos
  have hsie := h.sie
  have hoff : s.hart.intrOff = s.hart := by rw [Hart.intrOff, ← hsie]
  have hsave : s.hart.saveIntena s.hart.sie = s.hart := if_neg (by omega)
  refine wp_bind (h.getHart (wp_bind (quiet_modHart hsie h.inv ?_ ?_)))
  all_goals rw [hoff]
  · exact h.inv
  refine wp_bind (quiet_modHart hsie h.inv ?_ ?_)
  all_goals rw [hsave]
  · exact h.inv
  exact quiet_modHart hsie h.inv h.push.inv hq

/-- `pop_off` of a section inside another one. -/
theorem popOff {Q : Unit → K → Prop} (hopen : 0 < s.hart.opens) (hpos : 1 < s.hart.noff)
    (hq : Q () { s with hart := s.hart.pop }) : D.wp L popOff Q s := by
  have hsie := h.sie
  have hrestore : s.hart.pop.restore = s.hart.pop := if_neg (by simp only [Hart.pop]; omega)
  have h' : Masked L D { s with hart := s.hart.pop } :=
    ⟨h.hart.pop hopen hpos, by simp only [Hart.pop]; omega⟩
  refine wp_bind (h.getHart ?_)
  rw [if_neg (by rw [hsie]; decide)]
  refine wp_bind (h.getHart ?_)
  rw [if_neg (by omega)]
  refine wp_bind (quiet_modHart hsie h.inv h'.inv ?_)
  refine quiet_modHart h'.sie h'.inv ?_ ?_
  all_goals rw [hrestore]
  · exact h'.inv
  · exact hq

theorem acquire {Q : Unit → K → Prop} (hlk : lk ∉ s.hart.held)
    (hq : Q () { s with hart := s.hart.lock lk }) : D.wp L (acquire lk) Q s := by
  have hlock : Masked L D { s with hart := s.hart.lock lk } :=
    ⟨h.hart.lock h.pos hlk, by simp [Hart.lock]⟩
  refine wp_bind (h.pushOff (wp_bind (h.push.getHart ?_)))
  rw [if_neg (by simp [Hart.push, hlk])]
  refine wp_bind ⟨h.push.inv, fun t ht => ?_⟩
  rw [← ht.eq h.push.sie]
  have hfree : decide (lk ∈ s.hart.push.held) = false := by simp [Hart.push, hlk]
  simp only [Hart.take_push hlk, hfree]
  exact ⟨hlock.inv, wp_pure hlock.inv hq⟩

/-- `release` of a lock while another one is held. -/
theorem release {Q : Unit → K → Prop} (hlk : lk ∈ s.hart.held) (hpos : 1 < s.hart.noff)
    (hq : Q () { s with hart := s.hart.unlock lk }) : D.wp L (release lk) Q s := by
  have h' : Masked L D { s with hart := s.hart.drop lk } := ⟨h.hart.drop hlk, h.pos⟩
  refine wp_bind (h.getHart ?_)
  rw [if_pos (by simpa using hlk)]
  refine wp_bind (quiet_modHart h.sie h.inv h'.inv ?_)
  refine h'.popOff (by simp [Hart.drop]) hpos ?_
  rw [Hart.pop_drop]
  exact hq

theorem myproc {Q : Option Slot → K → Prop} (hq : Q s.core.cproc s) : D.wp L myproc Q s := by
  have hpos := h.pos
  refine wp_bind (h.pushOff (wp_bind (h.push.getCore (wp_bind (h.push.popOff ?_ ?_ ?_)))))
  · simp [Hart.push]
  · simp only [Hart.push]
    omega
  · rw [Hart.pop_push]
    exact wp_pure h.inv hq

/-- `pop_off` of the only section. -/
theorem popOff_last {Q : Unit → K → Prop} (hopen : 0 < s.hart.opens) (hone : s.hart.noff = 1)
    (hgood : D.Good s.core) (hq : Q () { s with hart := s.hart.finish }) :
    D.wp L OsKernel.popOff Q s := by
  have hsie := h.sie
  have hcount := h.hart.count
  have hvec : s.hart.supervisor = true → s.hart.stvec = BitVec.ofNat 64 L.kernelvec := fun hv =>
    (h.hart.vector hv).resolve_right fun hn => by omega
  -- between the decrement and `intr_on` interrupts are still off
  have hpop : D.Inv L { s with hart := s.hart.pop } := by
    refine ⟨⟨?_, fun hp => ?_, fun hv => .inl (hvec hv), fun hq => ?_⟩, fun _ => hgood⟩
    · simp only [Hart.pop]
      omega
    · simp only [Hart.pop, hone] at hp
      omega
    · exact ⟨hsie, fun _ => (h.hart.quiet hq).2 h.pos⟩
  have hlast : D.Inv L { s with hart := s.hart.finish } := by
    refine ⟨⟨?_, fun hp => ?_, fun hv => .inl (hvec hv), fun hq => ?_⟩, fun _ => hgood⟩
    · simp only [Hart.finish]
      omega
    · exact absurd hp (by simp [Hart.finish])
    · exact ⟨(h.hart.quiet hq).2 h.pos, fun hp => absurd hp (by simp [Hart.finish])⟩
  have hrestore : s.hart.pop.restore = s.hart.finish := by
    cases hi : s.hart.intena <;>
      simp [Hart.restore, Hart.intrOn, Hart.pop, Hart.finish, hone, hi, hsie]
  refine wp_bind (h.getHart ?_)
  rw [if_neg (by rw [hsie]; decide)]
  refine wp_bind (h.getHart ?_)
  rw [if_neg (by omega)]
  refine wp_bind (quiet_modHart hsie h.inv hpop ?_)
  refine quiet_modHart (s := { s with hart := s.hart.pop }) hsie hpop ?_ ?_
  all_goals rw [hrestore]
  · exact hlast
  · exact hq

/-- The `release` that ends a critical section. -/
theorem release_last {Q : Unit → K → Prop} (hlk : lk ∈ s.hart.held) (hone : s.hart.noff = 1)
    (hgood : D.Good s.core) (hq : Q () { s with hart := s.hart.leave lk }) :
    D.wp L (OsKernel.release lk) Q s := by
  have h' : Masked L D { s with hart := s.hart.drop lk } := ⟨h.hart.drop hlk, h.pos⟩
  refine wp_bind (h.getHart ?_)
  rw [if_pos (by simpa using hlk)]
  refine wp_bind (quiet_modHart h.sie h.inv h'.inv ?_)
  refine h'.popOff_last (by simp [Hart.drop]) hone hgood ?_
  rw [Hart.finish_drop]
  exact hq

end Masked

/-! ### While no lock is held -/

/-- The kernel runs without a lock. -/
structure Unlocked (L : Layout) (D : Discipline) (s : K) : Prop where
  hart : HartInv L D.Quiet s.hart
  noff : s.hart.noff = 0
  good : D.Good s.core
  vector : s.hart.stvec = BitVec.ofNat 64 L.kernelvec

theorem After.unlocked (h : D.After s t) (hs : Unlocked L D s) (hgood : D.Good t.core) :
    Unlocked L D t :=
  ⟨hs.hart.same h.1 hs.noff, h.1.noff.trans hs.noff, hgood, h.1.stvec.trans hs.vector⟩

theorem Interferes.unlocked (h : D.Interferes s t) (hs : Unlocked L D s) : Unlocked L D t :=
  h.after.unlocked hs ((h.inv ⟨hs.hart, fun _ => hs.good⟩).2 (h.after.1.noff.trans hs.noff))

namespace Unlocked

variable (h : Unlocked L D s)

include h

theorem inv : D.Inv L s := ⟨h.hart, fun _ => h.good⟩

theorem held : s.hart.held = ∅ := by
  have := h.hart.count
  rw [h.noff] at this
  exact Finset.card_eq_zero.mp (by omega)

theorem opens : s.hart.opens = 0 := by
  have := h.hart.count
  rw [h.noff] at this
  omega

theorem start : Masked L D { s with hart := s.hart.start } := by
  refine ⟨⟨?_, fun _ => rfl, fun _ => .inl h.vector, fun hq => ⟨rfl, fun _ => ?_⟩⟩, ?_⟩
  · simp [Hart.start, h.held]
  · exact (h.hart.quiet hq).1
  · simp [Hart.start]

theorem enter (lk : Lock) : Masked L D { s with hart := s.hart.enter lk } := by
  refine ⟨⟨?_, fun _ => rfl, fun _ => .inl h.vector, fun hq => ⟨rfl, fun _ => ?_⟩⟩, ?_⟩
  · simp [Hart.enter, h.held, h.opens]
  · exact (h.hart.quiet hq).1
  · simp [Hart.enter]

theorem getCore {g : Core → α} (hq : ∀ t, D.After s t → Unlocked L D t → Q (g t.core) t) :
    D.wp L (getCore g) Q s :=
  wp_getCore h.inv fun t ht => hq t ht.after (ht.unlocked h)

theorem getHart {g : Hart → α} (hq : ∀ t, D.After s t → Unlocked L D t → Q (g t.hart) t) :
    D.wp L (getHart g) Q s :=
  wp_getHart h.inv fun t ht => hq t ht.after (ht.unlocked h)

theorem modCore {g : Core → Core} {Q : Unit → K → Prop}
    (hq : ∀ t, D.After s t → Unlocked L D t →
      D.Good (g t.core) ∧ Q () { t with core := g t.core }) : D.wp L (modCore g) Q s :=
  wp_modCore h.inv fun t ht => by
    obtain ⟨hgood, hq⟩ := hq t ht.after (ht.unlocked h)
    exact ⟨⟨(ht.unlocked h).hart, fun _ => hgood⟩, hq⟩

theorem pushOff {Q : Unit → K → Prop}
    (hq : ∀ t, D.Interferes s t → Unlocked L D t → Q () { t with hart := t.hart.start }) :
    D.wp L pushOff Q s := by
  refine wp_bind (wp_getHart h.inv fun t ht => ?_)
  have hu := ht.unlocked h
  refine wp_bind (wp_modHart hu.inv fun u hu' => ?_)
  -- from here on interrupts are off
  have hsie := hu'.after.1.sie
  replace hu' := And.intro (interferes_trans ht hu') (hu'.unlocked hu)
  obtain ⟨hsu, hunl⟩ := hu'
  have hnone : ¬0 < u.hart.noff := by simp [hunl.noff]
  have hoff : D.Inv L { u with hart := u.hart.intrOff } :=
    ⟨⟨hunl.hart.count, fun _ => rfl, fun _ => .inl hunl.vector,
      fun _ => ⟨rfl, fun hp => absurd hp hnone⟩⟩, fun _ => hunl.good⟩
  have hsave : D.Inv L { u with hart := u.hart.intrOff.saveIntena t.hart.sie } := by
    simp only [Hart.saveIntena, Hart.intrOff, hunl.noff, if_true]
    exact ⟨⟨hunl.noff ▸ hunl.hart.count, fun _ => rfl, fun _ => .inl hunl.vector,
      fun _ => ⟨rfl, fun hp => absurd hp (by simp)⟩⟩, fun _ => hunl.good⟩
  have hpush : (u.hart.intrOff.saveIntena t.hart.sie).push = u.hart.start := by
    simp [Hart.saveIntena, Hart.intrOff, Hart.push, Hart.start, hunl.noff, hunl.opens, hsie]
  have hquiet : (u.hart.intrOff.saveIntena t.hart.sie).sie = false := by
    simp [Hart.saveIntena, Hart.intrOff, hunl.noff]
  refine ⟨hoff, wp_bind (quiet_modHart rfl hoff hsave ?_)⟩
  refine quiet_modHart hquiet hsave ?_ ?_
  all_goals rw [hpush]
  · exact hunl.start.inv
  · exact hq u hsu hunl

theorem acquire {Q : Unit → K → Prop}
    (hq : ∀ t, D.After s t → Unlocked L D t → Q () { t with hart := t.hart.enter lk }) :
    D.wp L (acquire lk) Q s := by
  refine wp_bind (h.pushOff fun t ht hu => wp_bind (hu.start.getHart ?_))
  have hfree : decide (lk ∈ t.hart.start.held) = false := by simp [Hart.start, hu.held]
  rw [hfree, if_neg (by decide)]
  refine wp_bind ⟨hu.start.inv, fun u hu' => ?_⟩
  rw [← hu'.eq hu.start.sie]
  have htake : t.hart.start.take lk = t.hart.enter lk := by
    simp [Hart.start, Hart.take, Hart.enter, hu.held, hu.opens]
  simp only [htake, hfree]
  exact ⟨(hu.enter lk).inv, wp_pure (hu.enter lk).inv (hq t ht.after hu)⟩

/-- A section that changes nothing leaves its mark in `intena`. -/
theorem start_finish : s.hart.start.finish = { s.hart with intena := s.hart.sie } := by
  simp [Hart.start, Hart.finish, h.noff, h.opens]

omit h in
theorem mark : D.After s { s with hart := { s.hart with intena := s.hart.sie } } :=
  ⟨⟨rfl, rfl, rfl, rfl, rfl, rfl, rfl, rfl⟩, .inl rfl⟩

/-- `myproc`, up to interrupts before its `push_off`. -/
theorem myproc_exact {Q : Option Slot → K → Prop} (hq : ∀ t, D.Interferes s t → Unlocked L D t →
      Q t.core.cproc { t with hart := { t.hart with intena := t.hart.sie } }) :
    D.wp L OsKernel.myproc Q s := by
  refine wp_bind (h.pushOff fun t ht hu => wp_bind (hu.start.getCore (wp_bind ?_)))
  refine hu.start.popOff_last (by simp [Hart.start]) rfl hu.good ?_
  rw [hu.start_finish]
  exact wp_pure (mark.unlocked hu hu.good).inv (hq t ht hu)

theorem myproc {Q : Option Slot → K → Prop}
    (hq : ∀ t, D.After s t → Unlocked L D t → Q t.core.cproc t) : D.wp L myproc Q s :=
  h.myproc_exact fun _ ht hu => hq _ (ht.after.trans mark) (mark.unlocked hu hu.good)

end Unlocked

/-! ### With interrupts off and no lock -/

/-- Interrupts are off though no lock is held. -/
structure Still (D : Discipline) (s : K) : Prop where
  sie : s.hart.sie = false
  noff : s.hart.noff = 0
  held : s.hart.held = ∅
  opens : s.hart.opens = 0
  good : D.Good s.core

namespace Still

variable (h : Still D s)

include h

theorem inv : D.Inv L s := by
  have hpos : ¬0 < s.hart.noff := by simp [h.noff]
  refine ⟨⟨?_, fun hp => absurd hp hpos, fun _ => .inr ⟨h.sie, h.noff⟩,
    fun _ => ⟨h.sie, fun hp => absurd hp hpos⟩⟩, fun _ => h.good⟩
  rw [h.noff, h.held, h.opens]
  rfl

theorem unlocked (hvec : s.hart.stvec = BitVec.ofNat 64 L.kernelvec) : Unlocked L D s :=
  ⟨(h.inv (L := L)).1, h.noff, h.good, hvec⟩

theorem getHart {g : Hart → α} (hq : Q (g s.hart) s) : D.wp L (getHart g) Q s :=
  quiet_getHart h.sie h.inv hq

theorem getCore {g : Core → α} (hq : Q (g s.core) s) : D.wp L (getCore g) Q s :=
  quiet_getCore h.sie h.inv hq

theorem modHart {g : Hart → Hart} {Q : Unit → K → Prop} (h' : Still D { s with hart := g s.hart })
    (hq : Q () { s with hart := g s.hart }) : D.wp L (modHart g) Q s :=
  quiet_modHart h.sie h.inv h'.inv hq

theorem modCore {g : Core → Core} {Q : Unit → K → Prop} (hgood : D.Good (g s.core))
    (hq : Q () { s with core := g s.core }) : D.wp L (modCore g) Q s :=
  quiet_modCore h.sie h.inv (fun _ => hgood) hq

theorem atomic {x : PanicM K Panic α} {a : α} {u : K} (hx : x s = .ok (a, u)) (hu : Still D u)
    (hq : Q a u) : D.wp L (Prog.atomic x) Q s := by
  refine Prog.wp_atomic h.inv (fun t ht a' u' hx' => ?_) fun t ht e he => ?_
  · rw [← ht.eq h.sie, hx] at hx'
    cases hx'
    exact ⟨hu.inv, hq⟩
  · rw [← ht.eq h.sie, hx] at he
    cases he

theorem update {g : K → K} {Q : Unit → K → Prop} (hI : D.Inv L (g s)) (hq : Q () (g s)) :
    D.wp L (Prog.update g) Q s :=
  Prog.wp_update h.inv fun t ht => by rw [← ht.eq h.sie]; exact ⟨hI, hq⟩

/-- Changes of the hart outside the discipline. -/
theorem hart {x : Hart} (hsie : x.sie = s.hart.sie) (hnoff : x.noff = s.hart.noff)
    (hheld : x.held = s.hart.held) (hopens : x.opens = s.hart.opens) :
    Still D { s with hart := x } :=
  ⟨hsie.trans h.sie, hnoff.trans h.noff, hheld.trans h.held, hopens.trans h.opens, h.good⟩

theorem core {c : Core} (hgood : D.Good c) :
    Still D { s with core := c } := { h with good := hgood }

theorem myproc {Q : Option Slot → K → Prop} (hvec : s.hart.stvec = BitVec.ofNat 64 L.kernelvec)
    (hq : Q s.core.cproc { s with hart := { s.hart with intena := false } }) :
    D.wp L myproc Q s := by
  refine (h.unlocked hvec).myproc_exact fun t ht _ => ?_
  rw [← ht.eq h.sie, h.sie]
  exact hq

end Still

theorem Still.of_inv (hI : D.Inv L s) (hsie : s.hart.sie = false) (hnoff : s.hart.noff = 0) :
    Still D s := by
  have hcount := hI.1.count
  rw [hnoff] at hcount
  exact ⟨hsie, hnoff, Finset.card_eq_zero.mp (by omega), by omega, hI.2 hnoff⟩

theorem Unlocked.still (h : Unlocked L D s) (hs : s.hart.sie = false) : Still D s :=
  ⟨hs, h.noff, h.held, h.opens, h.good⟩

end Discipline

end OsKernel
