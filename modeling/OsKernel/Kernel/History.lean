import OsKernel.Kernel.State

/-!
# What the record of a run says

`Core.log` records what happened at the borders of the kernel. This module reads it. `history l i`
is what the log `l` says about slot `i`: who made the process in it and whether that process is
gone, what it trapped with and has to be resumed with, what it has been handed since it began to
read. `acceptedBytes`, `takenBytes`, `handedBytes` and `echoedBytes` read the log as a run of the
console.

`Admissible` is the contract of the kernel with its processes, event by event: what the log must
say before an event for the event to be right. A process resumes with the registers it is owed, a
wait returns a child that has ended and its status, a read returns the bytes it handed over,
`sleep` returns with interrupts as they were. `Legal` says that every event of a log was right
when it happened.
-/

namespace OsKernel

/-! ### Traps -/

/-- A trap from user mode. -/
structure Trap where
  regs : Reg → BitVec 64
  pc : BitVec 64
  scause : BitVec 64

/-- The registers user code goes on with. -/
structure Ctx where
  regs : Reg → BitVec 64
  pc : BitVec 64

namespace Ctx

/-- The registers with a return value. -/
def ret (v : BitVec 64) (x : Ctx) : Ctx := { x with regs := Function.update x.regs .a0 v }

@[simp] theorem ret_pc (v : BitVec 64) (x : Ctx) : (x.ret v).pc = x.pc := rfl

@[simp] theorem ret_ret (v w : BitVec 64) (x : Ctx) : (x.ret v).ret w = x.ret w := by
  simp [ret]

end Ctx

namespace Trap

/-- The trap is a system call. -/
def IsCall (t : Trap) : Prop := t.scause = 8

instance (t : Trap) : Decidable t.IsCall := inferInstanceAs (Decidable (_ = _))

/-- The trap is neither a system call nor an interrupt the kernel knows. -/
def Unhandled (t : Trap) : Prop :=
  t.scause ≠ 8 ∧ t.scause ≠ 0x8000000000000009 ∧ t.scause ≠ 0x8000000000000005

/-- Where user code goes on after the trap: a system call returns behind the `ecall`. -/
def resume (t : Trap) : Ctx := ⟨t.regs, if t.IsCall then t.pc + 4 else t.pc⟩

/-- The number of a system call. -/
def number (t : Trap) : BitVec 32 := (t.regs .a7).setWidth 32

end Trap

/-! ### The history of a slot -/

/-- A read from the console. -/
structure Reading where
  n : BitVec 32
  writable : Bool
  /-- The bytes handed over so far. -/
  bytes : List UInt8

/-- What a log says about a slot. -/
structure History where
  parent : Option Slot := none
  /-- The slot of the process that forked this one. -/
  creator : Option Slot := none
  /-- The creator has terminated. -/
  orphan : Bool := false
  /-- Pid and status of a process that has terminated and was not returned by a wait. -/
  ended : Option (BitVec 32 × BitVec 32) := none
  /-- The last trap. -/
  trap : Option Trap := none
  /-- The value the system call of that trap has returned. -/
  returned : Option (BitVec 64) := none
  /-- What the process resumes with, as far as the log determines it. -/
  ctx : Option Ctx := none
  /-- Since the last call of wait the process has freed no slot and changed no parent. -/
  quiet : Bool := false
  /-- The pid that call is going to return. -/
  got : Option (BitVec 32) := none
  reading : Option Reading := none
  /-- The process is between `sleep_prepare` and the end of `sleep`. -/
  window : Bool := false
  /-- The process is in `sleep` or `yield`, which it called with this `SIE`. -/
  paused : Option Bool := none

namespace History

/-- The process is inside a system call. -/
def Called (h : History) : Prop := ∃ t, h.trap = some t ∧ t.IsCall

/-- The process is inside the system call `t` and has not been given a new image. -/
def InCall (h : History) (t : Trap) : Prop := h.trap = some t ∧ t.IsCall ∧ h.ctx = some t.resume

/-- A system call of the process has got its return value. -/
def Settled (h : History) : Prop := ∀ t, h.trap = some t → t.IsCall → ∃ v, h.returned = some v

/-- The status the process terminates with: that of its call of exit, or −1 after a trap that is
not handled. -/
def Terminates (h : History) (status : BitVec 32) : Prop :=
  ∃ t, h.trap = some t ∧
    (t.IsCall ∧ t.number = 2 ∧ status = (t.regs .a0).setWidth 32 ∨ t.Unhandled ∧ status = -1)

/-- The parent a process has to have: its creator, or `init` after the creator has terminated. -/
def Heir (init : Slot) (h : History) (j : Slot) : Prop :=
  (h.orphan = true → j = init) ∧ (h.orphan = false → h.creator = some j)

theorem InCall.called {h : History} {t : Trap} (hc : h.InCall t) : h.Called := ⟨t, hc.1, hc.2.1⟩

end History

/-- The running process frees a slot or changes a parent. -/
def disturb (a : Option Slot) (H : Slot → History) : Slot → History := fun j =>
  if a = some j then { H j with quiet := false } else H j

/-- A process terminates. -/
def terminate (i : Slot) (pid status : BitVec 32) (H : Slot → History) : Slot → History := fun j =>
  { H j with
    orphan := if (H j).creator = some i then true else (H j).orphan
    ended := if j = i then some (pid, status) else (H j).ended }

/-- What one event adds to the histories. -/
def observe (H : Slot → History) : Event → Slot → History
  | .trap i regs pc scause => Function.update H i
      { H i with
        trap := some ⟨regs, pc, scause⟩
        returned := none
        ctx := some (Trap.resume ⟨regs, pc, scause⟩) }
  | .sysret i v => Function.update H i
      { H i with returned := some v, ctx := (H i).ctx.map (Ctx.ret v) }
  | .forked p child => Function.update H child
      { parent := (H child).parent
        ended := (H child).ended
        creator := some p
        ctx := (H p).ctx.map (Ctx.ret 0) }
  | .execed i => Function.update H i { H i with ctx := none }
  | .parentSet a child parent =>
      disturb a (Function.update H child { H child with parent := parent })
  | .freed a _ => disturb a H
  | .exited i pid status => terminate i pid status H
  | .waitCall i _ => Function.update H i { H i with quiet := true, got := none }
  | .reaped i child pid _ _ =>
      Function.update (Function.update H child { H child with ended := none }) i
        { (Function.update H child { H child with ended := none }) i with got := some pid }
  | .readCall i _ n writable => Function.update H i { H i with reading := some ⟨n, writable, []⟩ }
  | .handed i b => Function.update H i
      { H i with reading := (H i).reading.map fun r => { r with bytes := r.bytes ++ [b] } }
  | .prepare i => Function.update H i { H i with window := true }
  | .pause i sie => Function.update H i { H i with paused := some sie }
  | .back i _ _ => Function.update H i { H i with paused := none, window := false }
  | .resume _ _ _ | .waitRet _ _ | .arrived _ | .echoed _ | .lost _ _ | .readRet _ _ => H

/-- The history of each slot. -/
def history : List Event → Slot → History
  | [] => fun _ => {}
  | e :: l => observe (history l) e

@[simp] theorem history_cons (e : Event) (l : List Event) :
    history (e :: l) = observe (history l) e := rfl

/-! ### The console -/

/-- The bytes taken from the ring. -/
def takenBytes : List Event → List UInt8
  | [] => []
  | .handed _ b :: l => takenBytes l ++ [b]
  | .lost _ b :: l => takenBytes l ++ [b]
  | _ :: l => takenBytes l

/-- The characters `consoleintr` has been called with. -/
def arrivedBytes : List Event → List UInt8
  | [] => []
  | .arrived c :: l => arrivedBytes l ++ [c]
  | _ :: l => arrivedBytes l

/-- The bytes sent back to the terminal. -/
def echoedBytes : List Event → List UInt8
  | [] => []
  | .echoed c :: l => echoedBytes l ++ [c]
  | _ :: l => echoedBytes l

/-- What the console makes of a character. -/
def normalize (c : UInt8) : UInt8 := if c = 13 then 10 else c

/-- The characters a bounded queue accepts: all but NUL, while fewer than `LAB2_BUF_SIZE` of the
accepted ones have not been read. -/
def acceptedBytes : List Event → List UInt8
  | [] => []
  | .arrived c :: l =>
    if c ≠ 0 ∧ (acceptedBytes l).length < (takenBytes l).length + inputBufSize then
      acceptedBytes l ++ [normalize c]
    else acceptedBytes l
  | _ :: l => acceptedBytes l

/-! ### Which events are right -/

/-- What a completed read of `n` bytes into a writable buffer has delivered. -/
structure Reading.Done (r : Reading) (v : BitVec 32) : Prop where
  count : v.toNat = r.bytes.length
  pos : 0 < r.bytes.length
  le : r.bytes.length ≤ r.n.toNat
  newline : (10 : UInt8) ∉ r.bytes.dropLast
  short : r.bytes.length < r.n.toNat → r.bytes.getLast? = some 10

/-- An event is right after the log `l`. -/
def Admissible (init : Slot) (l : List Event) : Event → Prop
  | .resume i regs pc => (history l i).Settled ∧
      ∀ x, (history l i).ctx = some x → regs = x.regs ∧ pc = x.pc
  | .sysret i _ => (history l i).Called
  | .forked p _ => ∃ t, (history l p).InCall t
  | .execed i => (∃ t, (history l i).InCall t ∧ t.number = 7) ∨ (history l i).ctx = none
  | .exited i _ status => (history l i).Terminates status
  | .reaped i child pid addr stored => (history l child).parent = some i ∧
      (history l child).Heir init i ∧
      ∃ status, (history l child).ended = some (pid, status) ∧ (addr ≠ 0 → stored = status)
  | .freed _ i => (history l i).ended = none
  | .waitRet i v => (history l i).got = some v ∨ v = -1 ∧ (history l i).quiet = true
  | .readRet i v => ∃ r, (history l i).reading = some r ∧
      (r.writable = true → 0 < r.n.toInt → r.Done v)
  | .lost i _ => ∃ r, (history l i).reading = some r ∧ r.writable = false
  | .back i sie noff => (history l i).paused = some sie ∧ noff = 0
  | _ => True

/-- Every event of the log was right when it happened. -/
def Legal (init : Slot) : List Event → Prop
  | [] => True
  | e :: l => Admissible init l e ∧ Legal init l

theorem Legal.cons {init : Slot} {l : List Event} {e : Event} (h : Legal init l)
    (he : Admissible init l e) : Legal init (e :: l) := ⟨he, h⟩

/-- Reading `Legal` at one place of the log. -/
theorem Legal.at {init : Slot} {l : List Event} {e : Event} : ∀ {post : List Event},
    Legal init (post ++ e :: l) → Admissible init l e
  | [], h => h.1
  | _ :: _, h => Legal.at h.2

theorem Legal.suffix {init : Slot} {l : List Event} : ∀ {post : List Event},
    Legal init (post ++ l) → Legal init l
  | [], h => h
  | _ :: _, h => Legal.suffix h.2

/-- The pids of the processes that have terminated are positive. -/
def PositiveExits (l : List Event) : Prop :=
  ∀ i pid status, Event.exited i pid status ∈ l → 0 < pid.toInt

theorem PositiveExits.cons {l : List Event} {e : Event} (h : PositiveExits l)
    (he : ∀ i pid status, e = .exited i pid status → 0 < pid.toInt) : PositiveExits (e :: l) := by
  intro i pid status hmem
  rcases List.mem_cons.mp hmem with heq | hmem
  · exact he i pid status heq.symm
  · exact h i pid status hmem

/-! ### Events of one process -/

/-- The event adds to the history of `p` only. -/
def Event.Own (p : Slot) : Event → Prop
  | .trap i _ _ _ | .resume i _ _ | .sysret i _ | .execed i | .waitCall i _ | .waitRet i _
  | .readCall i _ _ _ | .handed i _ | .lost i _ | .readRet i _ | .prepare i | .pause i _
  | .back i _ _ => i = p
  | _ => False

/-- The event does not concern the console. -/
def Event.Silent : Event → Prop
  | .arrived _ | .echoed _ | .handed _ _ | .lost _ _ => False
  | _ => True

section Own

variable {p j : Slot} {e : Event} {l : List Event}

theorem Event.Own.history_of_ne (h : e.Own p) (hj : j ≠ p) :
    history (e :: l) j = history l j := by
  cases e <;> first
    | exact absurd h id
    | rfl
    | (obtain rfl := h; exact Function.update_of_ne hj _ _)

/-- What an own event leaves alone in the history of the process itself. -/
theorem Event.Own.kin (h : e.Own p) (j : Slot) :
    (history (e :: l) j).parent = (history l j).parent ∧
      (history (e :: l) j).creator = (history l j).creator ∧
      (history (e :: l) j).orphan = (history l j).orphan ∧
      (history (e :: l) j).ended = (history l j).ended := by
  by_cases hj : j = p
  · subst hj
    cases e <;> first
      | exact absurd h id
      | exact ⟨rfl, rfl, rfl, rfl⟩
      | (obtain rfl := h; simp [observe])
  · rw [h.history_of_ne hj]
    exact ⟨rfl, rfl, rfl, rfl⟩

theorem Event.Own.positiveExits (h : e.Own p) (hl : PositiveExits l) : PositiveExits (e :: l) := by
  refine hl.cons ?_
  rintro i pid status rfl
  exact absurd h id

theorem Event.Silent.ring (h : e.Silent) :
    takenBytes (e :: l) = takenBytes l ∧ acceptedBytes (e :: l) = acceptedBytes l ∧
      echoedBytes (e :: l) = echoedBytes l := by
  cases e <;> first
    | exact absurd h id
    | exact ⟨rfl, rfl, rfl⟩

end Own

end OsKernel
