import OsKernel.Kernel.Spinlock

/-!
# Programs between locks

Most of the kernel does not look at the hart: it takes and gives back locks and works on the data
structures in between. For such code two facts about the hart are enough, its `Mode`: no lock is
held, with interrupts on or off, or some locks are held, and `intena` says what the last `release`
is going to restore. `Does x μ c Q` is the weakest precondition of the program `x` in mode `μ` on
the data `c`, with a postcondition on the mode and the data only.

The rules come in two kinds. While locks are held a step has exactly its own effect. While none
is held, interrupts may come before each step, so the data are known up to `Drift` and satisfy
`Good`, and every change has to restore `Good`.
-/

namespace OsKernel

/-- The harts agree on what kernel code between traps leaves alone. -/
structure Hart.Frame (h h' : Hart) : Prop where
  supervisor : h'.supervisor = h.supervisor
  stvec : h'.stvec = h.stvec
  satp : h'.satp = h.satp
  regs : h'.regs = h.regs

theorem Hart.Frame.refl (h : Hart) : h.Frame h := ⟨rfl, rfl, rfl, rfl⟩

theorem Hart.Frame.trans {h h' h'' : Hart} (a : h.Frame h') (b : h'.Frame h'') : h.Frame h'' :=
  ⟨b.supervisor.trans a.supervisor, b.stvec.trans a.stvec, b.satp.trans a.satp,
    b.regs.trans a.regs⟩

theorem Hart.Same.frame {h h' : Hart} (a : h.Same h') : h.Frame h' :=
  ⟨a.supervisor, a.stvec, a.satp, a.regs⟩

/-- The locks that are held. -/
inductive Mode where
  /-- None, with interrupts on or off. -/
  | unlocked (sie : Bool)
  /-- Some, with the value `SIE` is going to have after them. -/
  | locked (locks : Finset Lock) (intena : Bool)

/-- No lock is held. -/
structure Mode.IsUnlocked (L : Layout) (D : Discipline) (h₀ : Hart) (b : Bool) (s : K) : Prop where
  unlocked : Discipline.Unlocked L D s
  frame : h₀.Frame s.hart
  sie : s.hart.sie = b

/-- The locks `ls` are held. -/
structure Mode.IsLocked (L : Layout) (D : Discipline) (h₀ : Hart) (ls : Finset Lock) (b : Bool)
    (s : K) : Prop where
  masked : Discipline.Masked L D s
  frame : h₀.Frame s.hart
  held : s.hart.held = ls
  opens : s.hart.opens = 0
  intena : s.hart.intena = b
  vector : s.hart.stvec = BitVec.ofNat 64 L.kernelvec

/-- The hart is in a mode, and otherwise as `h₀`. -/
def Mode.At (L : Layout) (D : Discipline) (h₀ : Hart) : Mode → K → Prop
  | .unlocked b => Mode.IsUnlocked L D h₀ b
  | .locked ls b => Mode.IsLocked L D h₀ ls b

/-- The program keeps to the discipline and returns with `Q`. -/
def Does (L : Layout) (D : Discipline) (h₀ : Hart) {α : Type} (x : KernelM α) (μ : Mode) (c : Core)
    (Q : α → Mode → Core → Prop) : Prop :=
  ∀ s, μ.At L D h₀ s → s.core = c → D.wp L x (fun a t => ∃ μ', μ'.At L D h₀ t ∧ Q a μ' t.core) s

section Modes

variable {L : Layout} {D : Discipline} {h₀ : Hart} {α β : Type} {x : KernelM α}
  {f : α → KernelM β} {μ : Mode} {ls : Finset Lock} {b : Bool} {lk : Lock} {c : Core} {s t : K}
  {Q Q' : α → Mode → Core → Prop} {P : β → Mode → Core → Prop}

namespace Mode

namespace IsLocked

variable (h : IsLocked L D h₀ ls b s)

include h

theorem noff : s.hart.noff = ls.card := by
  rw [h.masked.hart.count, h.held, h.opens, Nat.add_zero]

/-- The data can be replaced while a lock is held. -/
theorem core (c : Core) : IsLocked L D h₀ ls b { s with core := c } :=
  { h with masked := h.masked.core c }

end IsLocked

namespace IsUnlocked

variable (h : IsUnlocked L D h₀ b s)

include h

/-- The data can be replaced by good ones while no lock is held. -/
theorem core (hgood : D.Good c) : IsUnlocked L D h₀ b { s with core := c } :=
  { h with unlocked := { h.unlocked with good := hgood } }

theorem after (ha : D.After s t) (hu : Discipline.Unlocked L D t) : IsUnlocked L D h₀ b t :=
  ⟨hu, h.frame.trans ha.1.frame, ha.1.sie.trans h.sie⟩

end IsUnlocked

theorem At.inv (h : μ.At L D h₀ s) : D.Inv L s := by
  cases μ with
  | unlocked b => exact h.unlocked.inv
  | locked ls b => exact h.masked.inv

end Mode

/-! ### Structural rules -/

theorem Does.mono (h : Does L D h₀ x μ c Q) (hQ : ∀ a μ' c', Q a μ' c' → Q' a μ' c') :
    Does L D h₀ x μ c Q' := fun s hs hc =>
  Discipline.wp_mono (fun a _ _ ⟨μ', hμ, hq⟩ => ⟨μ', hμ, hQ a μ' _ hq⟩) (h s hs hc)

theorem does_pure {a : α} (h : Q a μ c) : Does L D h₀ (pure a) μ c Q := fun _ hs hc =>
  Discipline.wp_pure hs.inv ⟨μ, hs, hc ▸ h⟩

theorem Does.bind (h : Does L D h₀ x μ c fun a μ' c' => Does L D h₀ (f a) μ' c' P) :
    Does L D h₀ (x >>= f) μ c P := fun s hs hc =>
  Discipline.wp_bind (Discipline.wp_mono (fun _ t _ ⟨_, hμ, hq⟩ => hq t hμ rfl) (h s hs hc))

theorem does_kpanic {e : Panic} (h : D.Stops e) : Does L D h₀ (kpanic e : KernelM α) μ c Q :=
  fun _ hs _ => Discipline.wp_kpanic hs.inv h

theorem does_deref {i : Slot} {Q : Slot → Mode → Core → Prop} (h : Q i μ c) :
    Does L D h₀ (deref (some i)) μ c Q := does_pure h

theorem does_ite {p : Prop} [Decidable p] {y : KernelM α} (hx : p → Does L D h₀ x μ c Q)
    (hy : ¬p → Does L D h₀ y μ c Q) : Does L D h₀ (if p then x else y) μ c Q := by
  split_ifs with hp
  · exact hx hp
  · exact hy hp

/-! ### While locks are held -/

namespace Locked

theorem getCore {g : Core → α} (h : Q (g c) (.locked ls b) c) :
    Does L D h₀ (getCore g) (.locked ls b) c Q := fun _ hs hc =>
  hs.masked.getCore ⟨_, hs, hc ▸ h⟩

theorem modCore {g : Core → Core} {Q : Unit → Mode → Core → Prop}
    (h : Q () (.locked ls b) (g c)) : Does L D h₀ (modCore g) (.locked ls b) c Q := fun _ hs hc =>
  hs.masked.modCore ⟨.locked ls b, hs.core _, hc ▸ h⟩

/-- A computation that returns, as one step. -/
theorem coreAtomic {x : CoreM α} (h : x.Returns c fun a c' => Q a (.locked ls b) c') :
    Does L D h₀ (coreAtomic x) (.locked ls b) c Q := by
  intro s hs hc
  refine hs.masked.coreReturns ?_
  rw [hc]
  exact h.mono fun a c' hq => ⟨.locked ls b, hs.core c', hq⟩

theorem getHart {g : Hart → α} (h : ∀ h : Hart, h.noff = ls.card → h.sie = false →
    h.intena = b → h.held = ls → Q (g h) (.locked ls b) c) :
    Does L D h₀ (getHart g) (.locked ls b) c Q := fun s hs hc =>
  hs.masked.getHart ⟨_, hs, hc ▸ h s.hart hs.noff hs.masked.sie hs.intena hs.held⟩

theorem acquire {Q : Unit → Mode → Core → Prop} (hlk : lk ∉ ls)
    (h : Q () (.locked (insert lk ls) b) c) :
    Does L D h₀ (acquire lk) (.locked ls b) c Q := by
  intro s hs hc
  have hnot : lk ∉ s.hart.held := hs.held ▸ hlk
  refine hs.masked.acquire hnot ⟨.locked (insert lk ls) b, ?_, hc ▸ h⟩
  exact {
    masked := ⟨hs.masked.hart.lock hs.masked.pos hnot, Nat.succ_pos _⟩
    frame := hs.frame.trans ⟨rfl, rfl, rfl, rfl⟩
    held := by rw [← hs.held]; rfl
    opens := hs.opens
    intena := hs.intena
    vector := hs.vector }

/-- `release` of a lock while another one is held. -/
theorem release {Q : Unit → Mode → Core → Prop} (hlk : lk ∈ ls) (hmore : 1 < ls.card)
    (h : Q () (.locked (ls.erase lk) b) c) : Does L D h₀ (OsKernel.release lk)
      (.locked ls b) c Q := by
  intro s hs hc
  have hmem : lk ∈ s.hart.held := hs.held ▸ hlk
  have hone : 1 < s.hart.noff := hs.noff ▸ hmore
  refine hs.masked.release hmem hone ⟨.locked (ls.erase lk) b, ?_, hc ▸ h⟩
  exact {
    masked := ⟨hs.masked.hart.unlock hone hmem, Nat.sub_pos_of_lt hone⟩
    frame := hs.frame.trans ⟨rfl, rfl, rfl, rfl⟩
    held := by rw [← hs.held]; rfl
    opens := hs.opens
    intena := hs.intena
    vector := hs.vector }

theorem release_inner {Q : Unit → Mode → Core → Prop} (hlk : lk ∉ ls) (hls : ls.Nonempty)
    (h : Q () (.locked ls b) c) : Does L D h₀ (OsKernel.release lk)
      (.locked (insert lk ls) b) c Q := by
  refine release (Finset.mem_insert_self ..) ?_ ?_
  · rw [Finset.card_insert_of_notMem hlk]
    have := hls.card_pos
    omega
  · rwa [Finset.erase_insert hlk]

/-- `release` of the lock that was taken first. -/
theorem release_outer {Q : Unit → Mode → Core → Prop} {lk' : Lock} (hne : lk' ≠ lk)
    (h : Q () (.locked {lk'} b) c) :
    Does L D h₀ (OsKernel.release lk) (.locked {lk', lk} b) c Q := by
  refine release (by simp) ?_ ?_
  · rw [Finset.card_pair hne]
    exact Nat.one_lt_two
  · rwa [show ({lk', lk} : Finset Lock).erase lk = {lk'} from ?_]
    rw [Finset.pair_comm, Finset.erase_insert (by simpa using hne.symm)]

/-- The `release` that ends a critical section. -/
theorem release_last {Q : Unit → Mode → Core → Prop} (hgood : D.Good c)
    (h : Q () (.unlocked b) c) : Does L D h₀ (OsKernel.release lk) (.locked {lk} b) c Q := by
  intro s hs hc
  have hmem : lk ∈ s.hart.held := by rw [hs.held]; exact Finset.mem_singleton_self lk
  have hone : s.hart.noff = 1 := hs.noff
  refine Discipline.wp_mono ?_ (hs.masked.release_last (Q := fun _ t => t = { s with
    hart := s.hart.leave lk }) hmem hone (hc ▸ hgood) rfl)
  rintro _ _ hinv rfl
  refine ⟨.unlocked b, ⟨⟨hinv.1, rfl, hc ▸ hgood, hs.vector⟩, ?_, hs.intena⟩, hc ▸ h⟩
  exact hs.frame.trans ⟨rfl, rfl, rfl, rfl⟩

theorem myproc {Q : Option Slot → Mode → Core → Prop} (h : Q c.cproc (.locked ls b) c) :
    Does L D h₀ myproc (.locked ls b) c Q := fun _ hs hc =>
  hs.masked.myproc ⟨_, hs, hc ▸ h⟩

end Locked

/-! ### While none is held -/

namespace Unlocked

theorem getCore {g : Core → α} (h : ∀ c', D.Drift c c' → D.Good c' → Q (g c') (.unlocked b) c') :
    Does L D h₀ (getCore g) (.unlocked b) c Q := by
  intro s hs hc
  refine hs.unlocked.getCore fun t ht hu => ⟨.unlocked b, hs.after ht hu, h _ ?_ hu.good⟩
  exact hc ▸ ht.drift

theorem modCore {g : Core → Core} {Q : Unit → Mode → Core → Prop}
    (h : ∀ c', D.Drift c c' → D.Good c' → D.Good (g c') ∧ Q () (.unlocked b) (g c')) :
    Does L D h₀ (modCore g) (.unlocked b) c Q := by
  intro s hs hc
  refine hs.unlocked.modCore fun t ht hu => ?_
  obtain ⟨hgood, hq⟩ := h t.core (hc ▸ ht.drift) hu.good
  exact ⟨hgood, .unlocked b, (hs.after ht hu).core hgood, hq⟩

/-- A computation as one step: it returns, or panics in a way that is expected. -/
theorem coreAtomic {x : CoreM α} (h : ∀ c', D.Drift c c' → D.Good c' →
    (x.Returns c' fun a c'' => D.Good c'' ∧ Q a (.unlocked b) c'') ∨
      ∃ e, x c' = .error e ∧ D.Stops e) :
    Does L D h₀ (coreAtomic x) (.unlocked b) c Q := by
  intro s hs hc
  have hcase : ∀ t, D.Interferes s t → Mode.IsUnlocked L D h₀ b t ∧
      ((x.Returns t.core fun a c'' => D.Good c'' ∧ Q a (.unlocked b) c'') ∨
        ∃ e, x t.core = .error e ∧ D.Stops e) := fun t ht =>
    ⟨hs.after ht.after (ht.unlocked hs.unlocked),
      h t.core (hc ▸ ht.after.drift) (ht.unlocked hs.unlocked).good⟩
  refine Discipline.wp_coreAtomic hs.unlocked.inv (fun t ht a c' hx => ?_) fun t ht e hx => ?_
  · obtain ⟨hu, ⟨a', c'', hx', hgood, hq⟩ | ⟨e, he, -⟩⟩ := hcase t ht
    · rw [hx] at hx'
      cases hx'
      have hu' := hu.core hgood
      exact ⟨hu'.unlocked.inv, .unlocked b, hu', hq⟩
    · rw [hx] at he
      cases he
  · obtain ⟨-, ⟨a', c'', hx', -⟩ | ⟨e', he, hstop⟩⟩ := hcase t ht
    · rw [hx] at hx'
      cases hx'
    · rw [hx] at he
      cases he
      exact hstop

theorem acquire {Q : Unit → Mode → Core → Prop}
    (h : ∀ c', D.Drift c c' → D.Good c' → Q () (.locked {lk} b) c') :
    Does L D h₀ (acquire lk) (.unlocked b) c Q := by
  intro s hs hc
  refine hs.unlocked.acquire fun t ht hu => ⟨.locked {lk} b, ?_, h _ (hc ▸ ht.drift) hu.good⟩
  have ht' := hs.after ht hu
  exact {
    masked := hu.enter lk
    frame := ht'.frame.trans ⟨rfl, rfl, rfl, rfl⟩
    held := by
      show insert lk t.hart.held = _
      rw [hu.held]
      rfl
    opens := hu.opens
    intena := ht'.sie
    vector := hu.vector }

theorem myproc {Q : Option Slot → Mode → Core → Prop}
    (h : ∀ c', D.Drift c c' → D.Good c' → Q c'.cproc (.unlocked b) c') :
    Does L D h₀ myproc (.unlocked b) c Q := by
  intro s hs hc
  refine hs.unlocked.myproc fun t ht hu => ⟨.unlocked b, hs.after ht hu, h _ ?_ hu.good⟩
  exact hc ▸ ht.drift

/-- A value read from the hart. -/
theorem getHart {g : Hart → α}
    (h : ∀ c' (h : Hart), D.Drift c c' → D.Good c' → h₀.Frame h → Q (g h) (.unlocked b) c') :
    Does L D h₀ (getHart g) (.unlocked b) c Q := by
  intro s hs hc
  refine hs.unlocked.getHart fun t ht hu => ?_
  have hu' := hs.after ht hu
  exact ⟨.unlocked b, hu', h _ _ (hc ▸ ht.drift) hu.good hu'.frame⟩

end Unlocked

/-! ### `push_off` sections -/

/-- A change of the data in a `push_off` section inside a critical section. -/
theorem Locked.section {g : Core → Core} {Q : Unit → Mode → Core → Prop}
    (h : Q () (.locked ls b) (g c)) :
    Does L D h₀ (do pushOff; OsKernel.modCore g; popOff) (.locked ls b) c Q := by
  intro s hs hc
  have hpos := hs.masked.pos
  refine Discipline.wp_bind (hs.masked.pushOff (Discipline.wp_bind (hs.masked.push.modCore ?_)))
  refine (hs.masked.push.core _).popOff (Nat.succ_pos _) (Nat.succ_lt_succ hpos) ?_
  refine ⟨.locked ls b, ?_, hc ▸ h⟩
  rw [Hart.pop_push]
  exact hs.core _

/-- The same while no lock is held. -/
theorem Unlocked.section {g : Core → Core} {Q : Unit → Mode → Core → Prop}
    (h : ∀ c', D.Drift c c' → D.Good c' → D.Good (g c') ∧ Q () (.unlocked b) (g c')) :
    Does L D h₀ (do pushOff; OsKernel.modCore g; popOff) (.unlocked b) c Q := by
  intro s hs hc
  refine Discipline.wp_bind (hs.unlocked.pushOff fun t ht hu => Discipline.wp_bind
    (hu.start.modCore ?_))
  obtain ⟨hgood, hq⟩ := h t.core (hc ▸ ht.after.drift) hu.good
  refine (hu.start.core _).popOff_last Nat.one_pos rfl hgood ⟨.unlocked b, ?_, hq⟩
  rw [hu.start_finish]
  exact ((hs.after ht.after hu).after Discipline.Unlocked.mark
    (Discipline.Unlocked.mark.unlocked hu hu.good)).core hgood

/-! ### Interrupts on and off -/

section Sie

variable (hq : ¬D.Quiet)

include hq

/-- `intr_on` outside critical sections. -/
theorem Unlocked.intrOn {Q : Unit → Mode → Core → Prop}
    (h : ∀ c', D.Drift c c' → D.Good c' → Q () (.unlocked true) c') :
    Does L D h₀ (OsKernel.modHart Hart.intrOn) (.unlocked b) c Q := by
  intro s hs hc
  refine Discipline.wp_modHart hs.unlocked.inv fun t ht => ?_
  have hu := hs.after ht.after (ht.unlocked hs.unlocked)
  have hon : Discipline.Unlocked L D { t with hart := t.hart.intrOn } :=
    { hart := ⟨hu.unlocked.hart.count, fun hpos => absurd hu.unlocked.noff hpos.ne',
        fun _ => .inl hu.unlocked.vector, fun h => absurd h hq⟩
      noff := hu.unlocked.noff
      good := hu.unlocked.good
      vector := hu.unlocked.vector }
  exact ⟨hon.inv, .unlocked true, ⟨hon, hu.frame.trans ⟨rfl, rfl, rfl, rfl⟩, rfl⟩,
    h _ (hc ▸ ht.after.drift) hu.unlocked.good⟩

/-- The assignment to `intena` after `swtch`. -/
theorem Locked.setIntena {Q : Unit → Mode → Core → Prop} {ia : Bool}
    (h : Q () (.locked ls ia) c) :
    Does L D h₀ (modHart fun h => { h with intena := ia }) (.locked ls b) c Q := by
  intro s hs hc
  have hm : Discipline.Masked L D { s with hart := { s.hart with intena := ia } } :=
    ⟨⟨hs.masked.hart.count, hs.masked.hart.masked, hs.masked.hart.vector, fun h => absurd h hq⟩,
      hs.masked.pos⟩
  refine Discipline.quiet_modHart hs.masked.sie hs.masked.inv hm.inv ⟨.locked ls ia, ?_, hc ▸ h⟩
  exact ⟨hm, hs.frame.trans ⟨rfl, rfl, rfl, rfl⟩, hs.held, hs.opens, rfl, hs.vector⟩

end Sie

/-! ### Programs that are not interrupted -/

/-- The discipline of a program that is left alone: nothing changes between its steps, nothing is
asked of the data structures, and it must not panic. So `Does` says exactly what it does. -/
def Discipline.solo : Discipline where
  Good _ := True
  Drift := Eq
  Stops _ := False
  Quiet := False
  refl _ := rfl
  trans := Eq.trans

theorem Mode.At.solo (h : μ.At L D h₀ s) : μ.At L .solo h₀ s := by
  have hinv : ∀ {h : Hart}, HartInv L D.Quiet h → HartInv L Discipline.solo.Quiet h := fun h =>
    ⟨h.count, h.masked, h.vector, False.elim⟩
  cases μ with
  | unlocked b =>
    obtain ⟨⟨hart, noff, -, vector⟩, frame, sie⟩ := h
    exact ⟨⟨hinv hart, noff, trivial, vector⟩, frame, sie⟩
  | locked ls b =>
    obtain ⟨⟨hart, pos⟩, frame, held, opens, intena, vector⟩ := h
    exact ⟨⟨hinv hart, pos⟩, frame, held, opens, intena, vector⟩

theorem Mode.IsLocked.solo (h : IsLocked L D h₀ ls b s) : (Mode.locked ls b).At L .solo h₀ s :=
  Mode.At.solo (D := D) h

/-- What a program does when it is left alone. -/
theorem Does.run (h : Does L .solo h₀ x μ c Q) (hs : μ.At L .solo h₀ s) (hc : s.core = c) :
    ∃ a t μ', x.run s = .ok (a, t) ∧ μ'.At L .solo h₀ t ∧ Q a μ' t.core := by
  rcases Prog.wp_run Discipline.interferes_refl (h s hs hc) with
    ⟨a, t, hrun, -, μ', hμ', hq⟩ | ⟨e, -, hstop⟩
  · exact ⟨a, t, μ', hrun, hμ', hq⟩
  · exact absurd hstop id

/-- A program left alone, whatever comes after it. -/
theorem Does.run_bind (h : Does L .solo h₀ x μ c Q) (hs : μ.At L .solo h₀ s) (hc : s.core = c) :
    ∃ a t μ', (∀ {β : Type} (f : α → KernelM β), (x >>= f).run s = (f a).run t) ∧
      μ'.At L .solo h₀ t ∧ Q a μ' t.core := by
  obtain ⟨a, t, μ', hrun, hμ', hq⟩ := h.run hs hc
  exact ⟨a, t, μ', fun f => Prog.run_bind_of_ok hrun, hμ', hq⟩

namespace Solo

theorem getCore {g : Core → α} (h : Q (g c) μ c) :
    Does L .solo h₀ (OsKernel.getCore g) μ c Q := by
  cases μ with
  | unlocked b =>
    refine Unlocked.getCore fun c' hc _ => ?_
    obtain rfl : c = c' := hc
    exact h
  | locked ls b => exact Locked.getCore h

theorem modCore {g : Core → Core} {Q : Unit → Mode → Core → Prop} (h : Q () μ (g c)) :
    Does L .solo h₀ (OsKernel.modCore g) μ c Q := by
  cases μ with
  | unlocked b =>
    refine Unlocked.modCore fun c' hc _ => ?_
    obtain rfl : c = c' := hc
    exact ⟨trivial, h⟩
  | locked ls b => exact Locked.modCore h

theorem coreAtomic {x : CoreM α} (h : x.Returns c fun a c' => Q a μ c') :
    Does L .solo h₀ (OsKernel.coreAtomic x) μ c Q := by
  cases μ with
  | unlocked b =>
    refine Unlocked.coreAtomic fun c' hc _ => ?_
    obtain rfl : c = c' := hc
    exact .inl (h.mono fun _ _ hq => ⟨trivial, hq⟩)
  | locked ls b => exact Locked.coreAtomic h

theorem myproc {p : Slot} (hp : c.cproc = some p) : Does L .solo h₀ OsKernel.myproc μ c
    fun q μ' c' => q = some p ∧ μ' = μ ∧ c' = c := by
  cases μ with
  | unlocked b =>
    refine Unlocked.myproc fun c' hc _ => ?_
    obtain rfl : c = c' := hc
    exact ⟨hp, rfl, rfl⟩
  | locked ls b => exact Locked.myproc ⟨hp, rfl, rfl⟩

/-- Code that goes on with the running process. -/
theorem myproc_bind {p : Slot} {k : Slot → KernelM α} (hp : c.cproc = some p)
    (h : Does L .solo h₀ (k p) μ c Q) : Does L .solo h₀ (do
      let p ← OsKernel.myproc
      let p ← deref p
      k p) μ c Q := by
  refine .bind ((myproc hp).mono ?_)
  rintro _ _ _ ⟨rfl, rfl, rfl⟩
  exact .bind (does_deref h)

theorem acquire {Q : Unit → Mode → Core → Prop} (h : Q () (.locked {lk} b) c) :
    Does L .solo h₀ (OsKernel.acquire lk) (.unlocked b) c Q := by
  refine Unlocked.acquire fun c' hc _ => ?_
  obtain rfl : c = c' := hc
  exact h

theorem release {Q : Unit → Mode → Core → Prop} (h : Q () (.unlocked b) c) :
    Does L .solo h₀ (OsKernel.release lk) (.locked {lk} b) c Q := Locked.release_last trivial h

end Solo

end Modes

end OsKernel
