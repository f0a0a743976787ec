import OsKernel.Console.Code
import OsKernel.Exec.Load
import OsKernel.Kernel.History
import OsKernel.Trap.Code

/-!
# The invariant of the kernel

`Good` is what the data structures of the kernel satisfy whenever no lock is held. Its parts:

* `Spaces`: who owns which page of memory;
* `SlotOk` for every slot: the state of a process against `cpus[0].proc`, its channel, its saved
  context and trapframe, and what the log says about it;
* `Kin` and `Waiting`: the tree of processes, and who waits for whom;
* `RingOk`: the console ring against the characters that arrived and were taken;
* `Pids`: pids are distinct, as long as `kalloc` fails only for want of memory;
* `Legal`: every event so far was right when it happened.

Interrupt handlers change little of this, `Drift`: they wake processes and work on the ring. What
a process relies on while it runs is `Working`, which survives `Drift`.
-/

namespace OsKernel

/-! ### One slot -/

/-- The memory of a process. -/
def Proc.space (pr : Proc) : Space := ⟨pr.trapframe, pr.pagetable, pr.sz⟩

/-- What a slot without a process holds. -/
structure Proc.Blank (pr : Proc) : Prop where
  pid : pr.pid = 0
  parent : pr.parent = none
  killed : pr.killed = false
  xstate : pr.xstate = 0
  sz : pr.sz = 0
  pagetable : pr.pagetable = 0
  trapframe : pr.trapframe = 0
  chan : pr.chan = none

/-- The process has begun and has not terminated. -/
def Proc.Started (pr : Proc) : Prop :=
  pr.state = .runnable ∨ pr.state = .sleeping ∨ pr.state = .running

/-- The process is switched out and is going to run. -/
def Proc.Parked (pr : Proc) : Prop :=
  pr.state = .used ∨ pr.state = .runnable ∨ pr.state = .sleeping

/-- The trapframe in page `tf` holds the registers `x`. -/
structure Framed (m : Mem) (tf : ℕ) (x : Ctx) : Prop where
  regs : ∀ r : Reg, BitVec.ofNat 64 (m.load64 (tf + r.offset)) = x.regs r
  pc : BitVec.ofNat 64 (m.load64 (tf + tfEpc)) = x.pc

/-- How far a read of `target` bytes has come: `n` bytes are left, and their place is `dst`. -/
def Reads (pr : Proc) (h : History) (dst : ℕ) (n target : BitVec 32) : Prop :=
  (0 < n.toInt → 0 < target.toInt) ∧
    ∃ r, h.reading = some r ∧ r.n = target ∧ (r.writable = true → 0 < target.toInt →
      r.bytes.length + n.toNat = target.toNat ∧ (10 : UInt8) ∉ r.bytes ∧
        ∀ k, k < n.toNat → (dst + k) / 4096 * 4096 < pr.sz)

/-- What the callers of `sleep` and `yield` rely on. -/
def Resume.Ok (pr : Proc) (h : History) : Resume → Prop
  | .kwait _ => (∃ t, h.InCall t) ∧ h.quiet = true
  | .consoleread dst n target => (∃ t, h.InCall t) ∧ 0 < n.toInt ∧ Reads pr h dst n target
  | .usertrap => (∃ t, h.trap = some t) ∧ h.Settled

/-- The saved context of a process leads to code that may go on. -/
def Saved (i : Slot) (pr : Proc) (h : History) : Prop :=
  pr.context = some .forkret ∧ pr.state ≠ .sleeping ∧ h.trap = none ∨
    ∃ intena k, pr.context = some (.sleepBack i intena k) ∧ pr.state ≠ .used ∧
      h.paused = some intena ∧ k.Ok pr h

/-- **The invariant of a slot.** -/
structure SlotOk (cproc : Option Slot) (m : Mem) (k : Cons) (h : History) (i : Slot) (pr : Proc) :
    Prop where
  running : pr.state = .running ↔ cproc = some i
  kstack : pr.kstack = kstackVa i
  name : IsName pr.name
  blank : pr.state = .unused → pr.Blank
  asleep : pr.state = .sleeping → pr.chan ≠ none
  chan : pr.chan ≠ none → (pr.state = .sleeping ∨ pr.state = .running) ∧ h.window = true
  empty : pr.chan = some .consR → k.r = k.w
  killed : pr.killed = true → ∃ t, h.trap = some t ∧ t.Unhandled
  ended : h.ended = if pr.state = .zombie then some (pr.pid, pr.xstate) else none
  parent : h.parent = pr.parent
  saved : pr.Parked → Saved i pr h
  frame : pr.Parked → ∀ x, h.ctx = some x → Framed m pr.trapframe x

/-! ### The whole -/

namespace Core

/-- The memory of the processes there are. -/
def spaces (c : Core) : SpaceTable := fun i =>
  if (c.procs i).state = .unused then none else some (c.procs i).space

/-- What the log says about a slot. -/
def hist (c : Core) (i : Slot) : History := history c.log i

end Core

/-- The processes form a tree with `init` at the root. -/
structure Kin (init : Slot) (procs : Slot → Proc) (H : Slot → History) : Prop where
  init_started : (procs init).Started
  init_parent : (procs init).parent = none
  parent : ∀ i j, (procs i).parent = some j → (procs j).Started
  orphan : ∀ i, (procs i).parent = none → i = init ∨ (procs i).state = .unused ∨
    (procs i).state = .used
  lineage : ∀ i j, (procs i).parent = some j → (H i).Heir init j
  rank : ∃ rank : Slot → ℕ, rank init = 0 ∧ ∀ i j, (procs i).parent = some j → rank j < rank i

/-- Only a process with children, none of which has terminated, waits for one. -/
def Waiting (procs : Slot → Proc) : Prop :=
  ∀ i j, (procs i).chan = some (.proc j) → j = i ∧ (∃ ch, (procs ch).parent = some i) ∧
    ∀ ch, (procs ch).parent = some i → (procs ch).state ≠ .zombie

/-- The bytes in the ring that were not taken. -/
def Cons.unread (k : Cons) : List UInt8 :=
  (List.range (k.e - k.r).toNat).map fun j => k.get (k.r + BitVec.ofNat 32 j)

/-- The ring holds what was accepted and not taken. -/
structure RingOk (k : Cons) (l : List Event) : Prop where
  fits : (k.e - k.r).toNat ≤ inputBufSize
  committed : (k.w - k.r).toNat ≤ (k.e - k.r).toNat
  full : (k.e - k.r).toNat = inputBufSize → k.w = k.e
  content : acceptedBytes l = takenBytes l ++ k.unread
  echo : echoedBytes l = acceptedBytes l

/-- Pids are positive and distinct. A pid costs a page while there are pages, so that the counter
cannot wrap around before memory is exhausted, and no process is made after that. -/
structure Pids (L : Layout) (vm : Vm) (nextpid : BitVec 32) (procs : Slot → Proc) : Prop where
  pos : ∀ i, (procs i).state ≠ .unused → 0 < (procs i).pid.toInt
  inj : ∀ i j, (procs i).state ≠ .unused → (procs j).state ≠ .unused →
    (procs i).pid = (procs j).pid → i = j
  next : L.phystop < vm.freemem + 4096 ∨ 0 < nextpid.toNat ∧
    L.heap + nextpid.toNat * 4096 ≤ vm.freemem + 4096 ∧
      ∀ i, (procs i).state ≠ .unused → (procs i).pid.toNat < nextpid.toNat

/-- What stays the same once the kernel runs. -/
structure Site where
  /-- The memory below the heap. -/
  image : Mem
  /-- `kernel_pagetable`. -/
  kpt : ℕ
  /-- `initproc`. -/
  init : Slot
  /-- `kalloc` fails only for want of memory. -/
  bump : Prop

/-- **The invariant of the kernel.** -/
structure Good (L : Layout) (S : Site) (c : Core) : Prop where
  kernel : c.kernelPagetable = S.kpt
  initproc : c.initproc = some S.init
  spaces : ∃ o, Spaces L S.image S.kpt c.vm c.spaces o noRole
  slot : ∀ i, SlotOk c.cproc c.vm.mem c.cons (c.hist i) i (c.procs i)
  kin : Kin S.init c.procs c.hist
  waiting : Waiting c.procs
  ring : RingOk c.cons c.log
  fails : S.bump → ∀ n, c.vm.fails n = false
  pids : S.bump → Pids L c.vm c.nextpid c.procs
  boot : c.first = true → ∀ i, (c.hist i).ctx = none ∧ (c.hist i).trap = none
  unloaded : c.first = true → ∀ i, (c.procs i).sz = 0
  home : ∀ p, c.cproc = some p → c.ccontext = some (.schedulerBack p)
  legal : Legal S.init c.log
  exits : S.bump → PositiveExits c.log

/-! ### Interrupts -/

/-- A process that was woken. -/
def Proc.woken (pr : Proc) : Proc :=
  { pr with chan := none, state := if pr.state = .sleeping then .runnable else pr.state }

/-- What interrupt handlers change. -/
structure Drift (c c' : Core) : Prop where
  vm : c'.vm = c.vm
  kernelPagetable : c'.kernelPagetable = c.kernelPagetable
  initproc : c'.initproc = c.initproc
  nextpid : c'.nextpid = c.nextpid
  first : c'.first = c.first
  cproc : c'.cproc = c.cproc
  ccontext : c'.ccontext = c.ccontext
  procs : ∀ i, c'.procs i = c.procs i ∨ (c.procs i).chan ≠ none ∧ c'.procs i = (c.procs i).woken
  hist : c'.hist = c.hist

/-- No process is half made. -/
def Core.Complete (c : Core) : Prop := ∀ i, (c.procs i).state ≠ .used

/-- What a process relies on while it runs. -/
structure Busy (p : Slot) (c : Core) : Prop where
  cproc : c.cproc = some p
  frame : ∀ x, (c.hist p).ctx = some x → Framed c.vm.mem (c.procs p).trapframe x
  complete : c.Complete

/-- What a process relies on outside `sleep`. -/
structure Working (p : Slot) (c : Core) : Prop extends Busy p c where
  chan : (c.procs p).chan = none

section Drift

variable {c c' c'' : Core} {p i : Slot}

theorem Proc.wake_self {pr : Proc} {ch : Option Chan} (h : pr.chan = ch) : pr.wake ch = pr.woken :=
  if_pos h

theorem Proc.wake_ne {pr : Proc} {ch : Option Chan} (h : pr.chan ≠ ch) : pr.wake ch = pr := if_neg h

namespace Drift

theorem refl (c : Core) : Drift c c := ⟨rfl, rfl, rfl, rfl, rfl, rfl, rfl, fun _ => .inl rfl, rfl⟩

theorem trans (h : Drift c c') (h' : Drift c' c'') : Drift c c'' where
  vm := h'.vm.trans h.vm
  kernelPagetable := h'.kernelPagetable.trans h.kernelPagetable
  initproc := h'.initproc.trans h.initproc
  nextpid := h'.nextpid.trans h.nextpid
  first := h'.first.trans h.first
  cproc := h'.cproc.trans h.cproc
  ccontext := h'.ccontext.trans h.ccontext
  procs i := by
    rcases h.procs i with he | ⟨hch, he⟩
    · rw [← he]
      exact h'.procs i
    · refine .inr ⟨hch, ?_⟩
      rcases h'.procs i with he' | ⟨hch', -⟩
      · rw [he', he]
      · exact absurd (by rw [he]; rfl) hch'
  hist := h'.hist.trans h.hist

/-- A process without a channel is left alone. -/
theorem proc_eq (h : Drift c c') (hch : (c.procs i).chan = none) : c'.procs i = c.procs i :=
  (h.procs i).resolve_right fun hw => hw.1 hch

/-- What a wakeup leaves of a process. -/
theorem fields (h : Drift c c') (i : Slot) :
    ∃ st ch, c'.procs i = { c.procs i with state := st, chan := ch } := by
  rcases h.procs i with he | ⟨-, he⟩
  · exact ⟨_, _, he⟩
  · exact ⟨_, _, he⟩

theorem space (h : Drift c c') (i : Slot) : (c'.procs i).space = (c.procs i).space := by
  obtain ⟨st, ch, he⟩ := h.fields i
  rw [he]
  rfl

theorem parent (h : Drift c c') (i : Slot) : (c'.procs i).parent = (c.procs i).parent := by
  obtain ⟨st, ch, he⟩ := h.fields i
  rw [he]

/-- A wakeup makes a sleeping process runnable. -/
theorem state (h : Drift c c') (i : Slot) : (c'.procs i).state = (c.procs i).state ∨
    (c.procs i).state = .sleeping ∧ (c'.procs i).state = .runnable := by
  rcases h.procs i with he | ⟨-, he⟩
  · exact .inl (by rw [he])
  · rw [he, Proc.woken]
    by_cases hs : (c.procs i).state = .sleeping
    · exact .inr ⟨hs, if_pos hs⟩
    · exact .inl (if_neg hs)

theorem state_iff (h : Drift c c') {st : ProcState} (h₁ : st ≠ .sleeping) (h₂ : st ≠ .runnable) :
    (c'.procs i).state = st ↔ (c.procs i).state = st := by
  rcases h.state i with he | ⟨he, he'⟩
  · rw [he]
  · rw [he, he']
    exact ⟨fun h => absurd h.symm h₂, fun h => absurd h.symm h₁⟩

end Drift

theorem Core.Complete.drift (h : c.Complete) (hd : Drift c c') : c'.Complete := fun i => by
  rw [ne_eq, hd.state_iff (by decide) (by decide)]
  exact h i

theorem Busy.drift (h : Busy p c) (hd : Drift c c') : Busy p c' where
  cproc := hd.cproc.trans h.cproc
  frame x hx := by
    rw [hd.hist] at hx
    rw [hd.vm, show (c'.procs p).trapframe = (c.procs p).trapframe from
      congrArg Space.trapframe (hd.space p)]
    exact h.frame x hx
  complete := h.complete.drift hd

theorem Working.drift (h : Working p c) (hd : Drift c c') : Working p c' :=
  ⟨h.toBusy.drift hd, by rw [hd.proc_eq h.chan, h.chan]⟩

end Drift

/-! ### The discipline of the kernel -/

/-- How the kernel may stop: init exits, or the program table is not in order and `kexec` follows
it outside memory. -/
def Stops (L : Layout) (S : Site) (e : Panic) : Prop :=
  e = .initExiting ∨ ¬TableOk L S.image ∧ (e = .walk ∨ e = .fault)

/-- What may happen between two steps of a program. -/
structure Env where
  Rel : Core → Core → Prop
  /-- The program is an interrupt handler. -/
  Quiet : Prop
  refl : ∀ c, Rel c c
  trans : ∀ {c c' c''}, Rel c c' → Rel c' c'' → Rel c c''
  drift : ∀ {c c'}, Rel c c' → Drift c c'

namespace Env

/-- Interrupts happen. -/
def interrupts : Env := ⟨Drift, False, Drift.refl, Drift.trans, id⟩

/-- Nothing happens. -/
def alone : Env := ⟨Eq, False, fun _ => rfl, Eq.trans, fun h => h ▸ Drift.refl _⟩

/-- Nothing happens, in an interrupt handler. -/
def handler : Env := ⟨Eq, True, fun _ => rfl, Eq.trans, fun h => h ▸ Drift.refl _⟩

/-- The discipline of the kernel. -/
def discipline (N : Env) (L : Layout) (S : Site) : Discipline where
  Good := Good L S
  Drift := N.Rel
  Stops := Stops L S
  Quiet := N.Quiet
  refl := N.refl
  trans := N.trans

end Env

/-! ### What an operation leaves to the other processes -/

/-- Every process outside `X` has the memory and the trapframe it had. -/
structure Spares (X : Slot → Prop) (c c' : Core) : Prop where
  space : ∀ i sp, ¬X i → c.spaces i = some sp → c'.spaces i = some sp
  frame : ∀ i sp, ¬X i → c.spaces i = some sp → Mem.AgreeOn c.vm.mem c'.vm.mem sp.trapframe 4096
  user : ∀ i sp, ¬X i → c.spaces i = some sp → SameSpace c.vm.mem c'.vm.mem sp.pagetable

namespace Spares

variable {X Y : Slot → Prop} {c c' c'' : Core}

/-- Memory stays, and so does what the process table says about it. -/
theorem of_eq (hm : c'.vm.mem = c.vm.mem) (hs : c'.spaces = c.spaces) : Spares X c c' :=
  ⟨fun _ _ _ h => hs ▸ h, fun _ _ _ _ => hm ▸ .refl _ _ _, fun _ _ _ _ => hm ▸ .refl _ _⟩

theorem refl (c : Core) : Spares X c c := of_eq rfl rfl

theorem trans (h : Spares X c c') (h' : Spares X c' c'') : Spares X c c'' where
  space i sp hX hi := h'.space i sp hX (h.space i sp hX hi)
  frame i sp hX hi := (h.frame i sp hX hi).trans (h'.frame i sp hX (h.space i sp hX hi))
  user i sp hX hi := (h.user i sp hX hi).trans (h'.user i sp hX (h.space i sp hX hi))

theorem mono (h : Spares X c c') (hXY : ∀ i, X i → Y i) : Spares Y c c' :=
  ⟨fun i sp hY => h.space i sp (hY ∘ hXY i), fun i sp hY => h.frame i sp (hY ∘ hXY i),
    fun i sp hY => h.user i sp (hY ∘ hXY i)⟩

end Spares

/-! ### How the invariant is kept -/

section Keep

variable {L : Layout} {S : Site} {c c' : Core} {p i : Slot} {cproc : Option Slot} {m m' : Mem}
  {k k' : Cons} {h h' : History} {pr : Proc} {e : Event} {v : Vm}

theorem Framed.congr {tf : ℕ} {x : Ctx} (hf : Framed m tf x) (hm : Mem.AgreeOn m m' tf 4096) :
    Framed m' tf x where
  regs r := by
    rw [(hm.mono (by omega) (by cases r <;> simp [Reg.offset])).load64_eq]
    exact hf.regs r
  pc := by
    rw [(hm.mono (by omega) (by simp [tfEpc])).load64_eq]
    exact hf.pc

theorem Proc.Parked.not_running (h : pr.Parked) : pr.state ≠ .running := by
  rintro he
  rcases h with h | h | h <;> rw [he] at h <;> cases h

theorem Proc.Parked.not_unused (h : pr.Parked) : pr.state ≠ .unused := by
  rintro he
  rcases h with h | h | h <;> rw [he] at h <;> cases h

theorem Proc.Started.ne {st : ProcState} (h : pr.Started) (h₁ : st ≠ .runnable)
    (h₂ : st ≠ .sleeping)
    (h₃ : st ≠ .running) : pr.state ≠ st := by
  rintro rfl
  rcases h with h | h | h
  · exact h₁ h
  · exact h₂ h
  · exact h₃ h

theorem Proc.woken_state_iff {st : ProcState} (h₁ : st ≠ .sleeping) (h₂ : st ≠ .runnable) :
    pr.woken.state = st ↔ pr.state = st := by
  rw [Proc.woken]
  split_ifs with hs
  · rw [hs]
    exact ⟨fun h => absurd h.symm h₂, fun h => absurd h.symm h₁⟩
  · exact Iff.rfl

/-- The callers of `sleep` rely on the size of the process and on what led to the call. -/
theorem Resume.Ok.congr {k : Resume} {pr' : Proc} (hk : k.Ok pr h) (hsz : pr'.sz = pr.sz) :
    k.Ok pr' h := by
  cases k with
  | consoleread dst n target =>
    obtain ⟨hc, hn, hpos, r, hr, ht, hw⟩ := hk
    exact ⟨hc, hn, hpos, r, hr, ht, by rw [hsz]; exact hw⟩
  | _ => exact hk

theorem Resume.Ok.observe {k : Resume} {r : Option Bool} {w : Bool} (hk : k.Ok pr h) :
    k.Ok pr { h with paused := r, window := w } := by
  cases k <;> exact hk

theorem Resume.Ok.drift {k : Resume} (hk : k.Ok (c.procs p) (c.hist p)) (hd : Drift c c') :
    k.Ok (c'.procs p) (c'.hist p) := by
  rw [hd.hist]
  exact hk.congr (congrArg Space.sz (hd.space p))

namespace SlotOk

variable (hs : SlotOk cproc m k h i pr)

include hs

/-- A wakeup keeps the invariant. -/
theorem woken : SlotOk cproc m k h i pr.woken where
  running := (Proc.woken_state_iff (by decide) (by decide)).trans hs.running
  kstack := hs.kstack
  name := hs.name
  blank hu := by
    rw [Proc.woken_state_iff (by decide) (by decide)] at hu
    obtain ⟨h₁, h₂, h₃, h₄, h₅, h₆, h₇, -⟩ := hs.blank hu
    exact ⟨h₁, h₂, h₃, h₄, h₅, h₆, h₇, rfl⟩
  asleep hu := by
    -- no process sleeps after its wakeup
    by_cases hsl : pr.state = .sleeping <;> simp [Proc.woken, hsl] at hu
  chan hc := absurd rfl hc
  empty hc := by cases hc
  killed := hs.killed
  ended := by
    rw [hs.ended]
    have hzombie : ∀ pr : Proc, pr.woken.state = .zombie ↔ pr.state = .zombie := fun pr =>
      Proc.woken_state_iff (by decide) (by decide)
    simp only [hzombie]
    rfl
  parent := hs.parent
  saved hp := by
    by_cases hsl : pr.state = .sleeping
    · rcases hs.saved (.inr (.inr hsl)) with ⟨-, hne, -⟩ | ⟨ia, r, hctx, -, hpause, hk⟩
      · exact absurd hsl hne
      · refine .inr ⟨ia, r, hctx, ?_, hpause, hk.congr rfl⟩
        simp [Proc.woken, hsl]
    · have hst : pr.woken.state = pr.state := if_neg hsl
      rw [Proc.Parked, hst] at hp
      rw [Saved, hst]
      rcases hs.saved hp with hf | ⟨ia, r, hctx, hne, hpause, hk⟩
      · exact .inl hf
      · exact .inr ⟨ia, r, hctx, hne, hpause, hk.congr rfl⟩
  frame hp := by
    refine hs.frame ?_
    by_cases hsl : pr.state = .sleeping
    · exact .inr (.inr hsl)
    · have hst : pr.woken.state = pr.state := if_neg hsl
      rwa [Proc.Parked, hst] at hp

/-- A switched out process does not notice changes elsewhere. -/
theorem congr (hm : Mem.AgreeOn m m' pr.trapframe 4096 ∨ ¬pr.Parked)
    (hk : pr.chan = some .consR → k.r = k.w → k'.r = k'.w) : SlotOk cproc m' k' h i pr :=
  { hs with
    empty := fun hc => hk hc (hs.empty hc)
    frame := fun hp x hx => (hs.frame hp x hx).congr (hm.resolve_right (absurd hp)) }

/-- The scheduler runs a process. -/
theorem resume (hst : pr.state = .runnable) :
    SlotOk (some i) m k h i { pr with state := .running } := by
  have hchan : pr.chan = none := by
    by_contra hc
    rcases (hs.chan hc).1 with h | h <;> rw [hst] at h <;> cases h
  refine { hs with
    running := iff_of_true rfl rfl
    blank := fun he => by cases he
    asleep := fun he => by cases he
    chan := fun hc => absurd hchan hc
    ended := by rw [hs.ended, if_neg (by rw [hst]; decide), if_neg (by simp)]
    saved := fun hp => absurd rfl hp.not_running
    frame := fun hp => absurd rfl hp.not_running }

/-- The running process may go on in its history. -/
theorem observe (hrun : pr.state = .running) (hw : h'.window = true ∨ pr.chan = none)
    (hk : h'.trap = h.trap ∨ pr.killed = false) (hended : h'.ended = h.ended)
    (hparent : h'.parent = h.parent) : SlotOk cproc m k h' i pr :=
  { hs with
    chan := fun hc => ⟨.inr hrun, hw.resolve_right hc⟩
    killed := fun hkill => by
      rw [hk.resolve_right (by rw [hkill]; decide)]
      exact hs.killed hkill
    ended := hended.trans hs.ended
    parent := hparent.trans hs.parent
    saved := fun hp => absurd hrun hp.not_running
    frame := fun hp => absurd hrun hp.not_running }

end SlotOk

/-- A change of a process that does not concern memory, kinship and pids. -/
structure Proc.Steady (pr pr' : Proc) : Prop where
  space : pr'.space = pr.space
  pid : pr'.pid = pr.pid
  parent : pr'.parent = pr.parent
  started : pr'.Started ↔ pr.Started
  unused : pr'.state = .unused ↔ pr.state = .unused
  used : pr'.state = .used ↔ pr.state = .used
  zombie : pr'.state = .zombie ↔ pr.state = .zombie

/-- A change after which the process waits for nothing new. -/
structure Proc.Tame (pr pr' : Proc) : Prop extends Proc.Steady pr pr' where
  chan : ∀ j, pr'.chan = some (.proc j) → pr.chan = some (.proc j)

theorem Proc.Steady.refl (pr : Proc) : pr.Steady pr :=
  ⟨rfl, rfl, rfl, Iff.rfl, Iff.rfl, Iff.rfl, Iff.rfl⟩

theorem Proc.Tame.refl (pr : Proc) : pr.Tame pr := ⟨.refl pr, fun _ => id⟩

/-- A process that has begun changes its state, and stays so. -/
theorem Proc.Tame.of_started {pr' : Proc} (hs : pr.Started) (hs' : pr'.Started)
    (hspace : pr'.space = pr.space) (hpid : pr'.pid = pr.pid) (hparent : pr'.parent = pr.parent)
    (hchan : ∀ j, pr'.chan = some (.proc j) → pr.chan = some (.proc j)) : pr.Tame pr' := by
  have hne : ∀ {q : Proc}, q.Started → q.state ≠ .unused ∧ q.state ≠ .used ∧ q.state ≠ .zombie := by
    rintro q (h | h | h) <;> rw [h] <;> decide
  exact ⟨⟨hspace, hpid, hparent, iff_of_true hs' hs, iff_of_false (hne hs').1 (hne hs).1,
    iff_of_false (hne hs').2.1 (hne hs).2.1, iff_of_false (hne hs').2.2 (hne hs).2.2⟩, hchan⟩

theorem Proc.tame_woken (pr : Proc) : pr.Tame pr.woken := by
  by_cases hs : pr.state = .sleeping
  · exact .of_started (.inr (.inl hs)) (.inl (if_pos hs)) rfl rfl rfl fun j hj => by cases hj
  · have hst : pr.woken.state = pr.state := if_neg hs
    exact ⟨⟨rfl, rfl, rfl, by rw [Proc.Started, hst]; rfl, by rw [hst], by rw [hst], by rw [hst]⟩,
      fun j hj => by cases hj⟩

theorem Kin.congr {init : Slot} {procs procs' : Slot → Proc} {H : Slot → History}
    (hk : Kin init procs H) (ht : ∀ i, (procs i).Steady (procs' i)) : Kin init procs' H where
  init_started := (ht init).started.mpr hk.init_started
  init_parent := (ht init).parent.trans hk.init_parent
  parent i j hj := (ht j).started.mpr (hk.parent i j ((ht i).parent ▸ hj))
  orphan i hi := by
    rw [(ht i).unused, (ht i).used]
    exact hk.orphan i ((ht i).parent ▸ hi)
  lineage i j hj := hk.lineage i j ((ht i).parent ▸ hj)
  rank := by
    obtain ⟨rank, h0, hlt⟩ := hk.rank
    exact ⟨rank, h0, fun i j hj => hlt i j ((ht i).parent ▸ hj)⟩

/-- Kinship is a matter of states and parents. -/
theorem Kin.of_eq {init : Slot} {procs procs' : Slot → Proc} {H : Slot → History}
    (hk : Kin init procs H) (hp : ∀ i, (procs' i).parent = (procs i).parent)
    (hs : ∀ i, (procs' i).state = (procs i).state) : Kin init procs' H where
  init_started := by
    rw [Proc.Started, hs]
    exact hk.init_started
  init_parent := (hp init).trans hk.init_parent
  parent i j hj := by
    rw [Proc.Started, hs]
    exact hk.parent i j (hp i ▸ hj)
  orphan i hi := by
    rw [hs]
    exact hk.orphan i (hp i ▸ hi)
  lineage i j hj := hk.lineage i j (hp i ▸ hj)
  rank := by
    obtain ⟨rank, h0, hlt⟩ := hk.rank
    exact ⟨rank, h0, fun i j hj => hlt i j (hp i ▸ hj)⟩

theorem Waiting.of_eq {procs procs' : Slot → Proc} (hw : Waiting procs)
    (hc : ∀ i, (procs' i).chan = (procs i).chan) (hp : ∀ i, (procs' i).parent = (procs i).parent)
    (hs : ∀ i, (procs' i).state = (procs i).state) : Waiting procs' := by
  intro i j hj
  simp only [hp, hs]
  exact hw i j (hc i ▸ hj)

theorem Waiting.congr {procs procs' : Slot → Proc} (hw : Waiting procs)
    (ht : ∀ i, (procs i).Tame (procs' i)) : Waiting procs' := by
  intro i j hj
  obtain ⟨rfl, ⟨ch, hch⟩, hz⟩ := hw i j ((ht i).chan j hj)
  refine ⟨rfl, ⟨ch, (ht ch).parent.trans hch⟩, fun ch' hch' => ?_⟩
  rw [ne_eq, (ht ch').zombie]
  exact hz ch' ((ht ch').parent ▸ hch')

theorem Pids.congr {n : BitVec 32} {procs procs' : Slot → Proc} (hp : Pids L v n procs)
    (ht : ∀ i, (procs' i).pid = (procs i).pid)
    (hu : ∀ i, (procs' i).state = .unused ↔ (procs i).state = .unused) : Pids L v n procs' where
  pos i hi := by
    rw [ht i]
    exact hp.pos i (by rwa [ne_eq, ← hu i])
  inj i j hi hj hij := by
    rw [ht i, ht j] at hij
    exact hp.inj i j (by rwa [ne_eq, ← hu i]) (by rwa [ne_eq, ← hu j]) hij
  next := hp.next.imp_right fun ⟨hpos, hle, hlt⟩ => ⟨hpos, hle, fun i hi => by
    rw [ht i]
    exact hlt i (by rwa [ne_eq, ← hu i])⟩

/-- More pages have been handed out. -/
theorem Pids.mono {n : BitVec 32} {procs : Slot → Proc} {v' : Vm} (hp : Pids L v n procs)
    (hmono : v.freemem ≤ v'.freemem) : Pids L v' n procs :=
  { hp with
    next := by
      rcases hp.next with hnext | ⟨hpos, hle, hlt⟩
      · exact .inl (hnext.trans_le (Nat.add_le_add_right hmono _))
      · exact .inr ⟨hpos, hle.trans (Nat.add_le_add_right hmono _), hlt⟩ }

theorem Core.spaces_of_ne (hne : (c.procs i).state ≠ .unused) :
    c.spaces i = some (c.procs i).space := if_neg hne

theorem Core.spaces_of_unused (h : (c.procs i).state = .unused) : c.spaces i = none := if_pos h

theorem Core.spaces_congr (hs : ∀ i, ((c'.procs i).state = .unused ↔ (c.procs i).state = .unused) ∧
    (c'.procs i).space = (c.procs i).space) : c'.spaces = c.spaces := by
  funext i
  simp only [Core.spaces, (hs i).1, (hs i).2]

theorem Core.spaces_setProc {f : Proc → Proc}
    (hu : (f (c.procs p)).state = .unused ↔ (c.procs p).state = .unused)
    (hs : (f (c.procs p)).space = (c.procs p).space) : (c.setProc p f).spaces = c.spaces := by
  exact Core.spaces_congr (Core.forall_setProc (P := fun i pr => (pr.state = .unused ↔
    (c.procs i).state = .unused) ∧ pr.space = (c.procs i).space) ⟨hu, hs⟩ fun _ _ => ⟨Iff.rfl, rfl⟩)

theorem Drift.spaces (hd : Drift c c') : c'.spaces = c.spaces :=
  Core.spaces_congr fun i => ⟨hd.state_iff (by decide) (by decide), hd.space i⟩

theorem Drift.spares {X : Slot → Prop} (hd : Drift c c') : Spares X c c' :=
  .of_eq (by rw [hd.vm]) hd.spaces

/-- What `Kept` says of a change of memory alone. -/
theorem Kept.spares (hk : Kept (Function.update c.spaces p none) c.vm c'.vm)
    (hs : ∀ i, i ≠ p → c'.spaces i = c.spaces i) : Spares (· = p) c c' where
  space i sp hi h := (hs i hi).trans h
  frame i sp hi h := hk.frames i sp (by rw [Function.update_of_ne hi, h])
  user i sp hi h := hk.space i sp (by rw [Function.update_of_ne hi, h])

namespace Good

variable (hg : Good L S c)

include hg

theorem state_running (hp : c.cproc = some p) : (c.procs p).state = .running :=
  (hg.slot p).running.mpr hp

theorem spaces_running (hp : c.cproc = some p) : c.spaces p = some (c.procs p).space :=
  Core.spaces_of_ne (by rw [hg.state_running hp]; decide)

/-- An event of one process, together with a change of the ring. -/
theorem record (he : e.Own p) (hadm : Admissible S.init c.log e)
    (hslot : SlotOk c.cproc c.vm.mem k (history (e :: c.log) p) p (c.procs p))
    (hothers : ∀ i, i ≠ p → (c.procs i).chan = some .consR → c.cons.r = c.cons.w → k.r = k.w)
    (hboot : c.first = true → (history (e :: c.log) p).ctx = none ∧
      (history (e :: c.log) p).trap = none)
    (hring : RingOk k (e :: c.log)) : Good L S ({ c with cons := k }.emit e) := by
  have hhist : ∀ i, i ≠ p → ({ c with cons := k }.emit e).hist i = c.hist i := fun i =>
    he.history_of_ne
  constructor
  case kernel => exact hg.kernel
  case initproc => exact hg.initproc
  case spaces => exact hg.spaces
  case slot =>
    intro i
    by_cases hi : i = p
    · exact hi ▸ hslot
    · rw [hhist i hi]
      exact (hg.slot i).congr (.inl (.refl _ _ _)) (hothers i hi)
  case kin =>
    refine { hg.kin with lineage := fun i j hj => ?_ }
    obtain ⟨-, hcr, hor, -⟩ := he.kin (l := c.log) i
    have hheir := hg.kin.lineage i j hj
    rw [History.Heir, Core.hist, ← hcr, ← hor] at hheir
    exact hheir
  case waiting => exact hg.waiting
  case ring => exact hring
  case fails => exact hg.fails
  case pids => exact hg.pids
  case boot =>
    intro hf i
    by_cases hi : i = p
    · exact hi ▸ hboot hf
    · rw [hhist i hi]
      exact hg.boot hf i
  case unloaded => exact hg.unloaded
  case home => exact hg.home
  case legal => exact hg.legal.cons hadm
  case exits => exact fun hb => he.positiveExits (hg.exits hb)

/-- An event of one process that does not concern the console. -/
theorem emit (he : e.Own p) (hsilent : e.Silent) (hadm : Admissible S.init c.log e)
    (hslot : SlotOk c.cproc c.vm.mem c.cons (history (e :: c.log) p) p (c.procs p))
    (hboot : c.first = true → (history (e :: c.log) p).ctx = none ∧
      (history (e :: c.log) p).trap = none) : Good L S (c.emit e) := by
  refine hg.record he hadm hslot (fun _ _ _ => id) hboot ?_
  obtain ⟨ht, ha, hec⟩ := hsilent.ring (l := c.log)
  refine ⟨hg.ring.fits, hg.ring.committed, hg.ring.full, ?_, ?_⟩
  · rw [ha, ht, hg.ring.content]
  · rw [hec, ha, hg.ring.echo]

/-- A process whose memory is kept does not notice what happens to the rest of memory. -/
theorem slot_kept {pm : SpaceTable} (hkept : Kept pm c.vm v) (hi : pm i = c.spaces i) :
    SlotOk c.cproc v.mem c.cons (c.hist i) i (c.procs i) := by
  refine (hg.slot i).congr ?_ fun _ => id
  by_cases hu : (c.procs i).state = .unused
  · exact .inr fun hpark => hpark.not_unused hu
  · exact .inl (hkept.frames i (c.procs i).space (hi.trans (Core.spaces_of_ne hu)))

/-- The running process works on memory: its own, or what belongs to nobody. -/
theorem setVm (hp : c.cproc = some p) (hkept : Kept (Function.update c.spaces p none) c.vm v)
    (hsp : ∃ o, Spaces L S.image S.kpt v c.spaces o noRole) : Good L S (c.setVm v) where
  kernel := hg.kernel
  initproc := hg.initproc
  spaces := hsp
  slot i := by
    by_cases hi : i = p
    · exact (hg.slot i).congr (.inr fun hpark => hpark.not_running (hi ▸ hg.state_running hp))
        fun _ => id
    · exact hg.slot_kept hkept (Function.update_of_ne hi ..)
  kin := hg.kin
  waiting := hg.waiting
  ring := hg.ring
  fails hb := hkept.not_fails (hg.fails hb)
  pids hb := (hg.pids hb).mono hkept.mono
  boot := hg.boot
  unloaded := hg.unloaded
  home := hg.home
  legal := hg.legal
  exits := hg.exits

/-- What devices change: processes are woken, the ring and the log go on. -/
theorem device {f : Slot → Proc} {l : List Event} {tx : List UInt8} {ticks : BitVec 32}
    (htame : ∀ i, (c.procs i).Tame (f i))
    (hslot : ∀ i, SlotOk c.cproc c.vm.mem k (c.hist i) i (f i))
    (hhist : history l = history c.log) (hring : RingOk k l) (hlegal : Legal S.init l)
    (hexits : PositiveExits c.log → PositiveExits l) :
    Good L S { c with procs := f, cons := k, log := l, tx := tx, ticks := ticks } := by
  have hh : ∀ i, Core.hist { c with procs := f, cons := k, log := l, tx := tx, ticks := ticks } i =
      c.hist i := fun i => congrFun hhist i
  constructor
  case kernel => exact hg.kernel
  case initproc => exact hg.initproc
  case spaces =>
    rw [Core.spaces_congr (c := c) fun i => ⟨(htame i).unused, (htame i).space⟩]
    exact hg.spaces
  case slot =>
    intro i
    rw [hh]
    exact hslot i
  case kin =>
    rw [show Core.hist _ = c.hist from funext hh]
    exact hg.kin.congr fun i => (htame i).toSteady
  case waiting => exact hg.waiting.congr htame
  case ring => exact hring
  case fails => exact hg.fails
  case pids => exact fun hb => (hg.pids hb).congr (fun i => (htame i).pid) fun i => (htame i).unused
  case boot =>
    intro hf i
    rw [hh]
    exact hg.boot hf i
  case unloaded => exact fun hf i => (congrArg Space.sz (htame i).space).trans (hg.unloaded hf i)
  case home => exact hg.home
  case legal => exact hlegal
  case exits => exact fun hb => hexits (hg.exits hb)

/-- The first process has been started before any process can trap. -/
theorem booted (ht : ∃ t, (c.hist p).trap = some t) : c.first = false := by
  by_contra hf
  obtain ⟨t, ht⟩ := ht
  rw [(hg.boot (Bool.eq_true_of_not_eq_false hf) p).2] at ht
  cases ht

/-- Changes of the process table that do not concern memory, kinship and pids. -/
theorem withProcs {f : Slot → Proc} {cp : Option Slot} {cc : Option Label}
    (hsteady : ∀ i, (c.procs i).Steady (f i)) (hwaiting : Waiting f)
    (hslot : ∀ i, SlotOk cp c.vm.mem c.cons (c.hist i) i (f i))
    (hhome : ∀ p, cp = some p → cc = some (.schedulerBack p)) :
    Good L S { c with procs := f, cproc := cp, ccontext := cc } where
  kernel := hg.kernel
  initproc := hg.initproc
  spaces := by
    rw [Core.spaces_congr fun i => ⟨(hsteady i).unused, (hsteady i).space⟩]
    exact hg.spaces
  slot := hslot
  kin := hg.kin.congr hsteady
  waiting := hwaiting
  ring := hg.ring
  fails := hg.fails
  pids hb := (hg.pids hb).congr (fun i => (hsteady i).pid) fun i => (hsteady i).unused
  boot := hg.boot
  unloaded hf i := (congrArg Space.sz (hsteady i).space).trans (hg.unloaded hf i)
  home := hhome
  legal := hg.legal
  exits := hg.exits

/-- The same for one process. -/
theorem setProc {f : Proc → Proc} {cp : Option Slot} {cc : Option Label}
    (htame : (c.procs p).Tame (f (c.procs p)))
    (hothers : ∀ i, i ≠ p → (cp = some i ↔ c.cproc = some i))
    (hslot : SlotOk cp c.vm.mem c.cons (c.hist p) p (f (c.procs p)))
    (hhome : ∀ p, cp = some p → cc = some (.schedulerBack p)) :
    Good L S { c.setProc p f with cproc := cp, ccontext := cc } := by
  have htame : ∀ i, (c.procs i).Tame ((c.setProc p f).procs i) :=
    Core.forall_setProc (P := fun i pr => (c.procs i).Tame pr) htame fun i _ => .refl _
  refine hg.withProcs (fun i => (htame i).toSteady) (hg.waiting.congr htame) (Core.forall_setProc
    (P := fun i pr => SlotOk cp c.vm.mem c.cons (c.hist i) i pr) hslot fun i hi => ?_) hhome
  exact { hg.slot i with running := (hg.slot i).running.trans (hothers i hi).symm }

end Good

end Keep

end OsKernel
