import Mathlib.Tactic.IntervalCases
import OsKernel.Boot.Main

/-!
# From power-on to `main`: `entry.S` and `start.c`

All harts come out of reset at `_entry`, in machine mode. `entry.S` clears `mstatus.MIE`, points
`sp` to the top of `bootstack`, sends every hart but hart 0 to a loop at `park`, and calls `start`,
which sets up the machine-mode registers one by one and leaves for `main` by `mret`.

The harts take their steps in any order. `only_hart_zero_boots` is what the rest of the development
rests on: no hart but hart 0 ever leaves `entry.S`, so the one stack is used by one hart and the
kernel runs on one; and hart 0 comes to `main` in supervisor mode with the registers that
`Hart.Reset` asks for.
-/

namespace OsKernel

/-! ### The code -/

/-- The control and status registers that the code writes. -/
inductive Csr where
  | mstatus | mtvec | mepc | satp | medeleg | mideleg | sie | pmpaddr0 | pmpcfg0 | menvcfg
  | mcounteren | stimecmp
  deriving DecidableEq, Repr

inductive Privilege where
  | machine | supervisor | user
  deriving DecidableEq, Repr

/-- The addresses that the linker gives to `bootstack`, `mtrap` and `main`. -/
structure BootSymbols where
  bootstack : BitVec 64
  mtrap : BitVec 64
  main : BitVec 64

/-- The instructions of `entry.S`; targets are positions in the code. -/
inductive BootInstr where
  | csrci (csr : Csr) (imm : BitVec 64)
  | la (rd : Reg) (addr : BitVec 64)
  | li (rd : Reg) (imm : BitVec 64)
  | add (rd rs rs' : Reg)
  | csrrMhartid (rd : Reg)
  | bnez (rs : Reg) (target : ℕ)
  | csrw (csr : Csr) (rs : Reg)
  | callStart
  | wfi
  | j (target : ℕ)
  deriving DecidableEq, Repr

/-- `LAB1_STACK_KB`. -/
def stackKb : ℕ := 12

/-- The position of `park` in `entry.S`. -/
def park : ℕ := 9

/-- The position of `mtrap` in `entry.S`. -/
def mtrap : ℕ := 11

/-- `entry.S`. -/
def entryCode (A : BootSymbols) : List BootInstr :=
  [.csrci .mstatus 8,
    .la .sp A.bootstack, .li .t0 (BitVec.ofNat 64 (stackKb * 1024)), .add .sp .sp .t0,
    .csrrMhartid .t0, .bnez .t0 park,
    .la .t0 A.mtrap, .csrw .mtvec .t0,
    .callStart,
    .wfi, .j park,
    .wfi, .j mtrap]

/-- The statements of `start` before `mret`. What is written may depend on the registers and on the
time. -/
inductive StartStmt where
  | write (csr : Csr) (value : (Csr → BitVec 64) → BitVec 64 → BitVec 64)
  | writeTp

def mstatusMie : BitVec 64 := 1 <<< 3

def mstatusMpie : BitVec 64 := 1 <<< 7

def mstatusMppMask : BitVec 64 := 3 <<< 11

def mstatusMppS : BitVec 64 := 1 <<< 11

def sieSeie : BitVec 64 := 1 <<< 9

def sieStie : BitVec 64 := 1 <<< 5

def menvcfgStce : BitVec 64 := 1 <<< 63

/-- `start`, with `timerinit` in its place. -/
def startCode (A : BootSymbols) : List StartStmt :=
  [.write .mstatus fun csr _ =>
      (csr .mstatus &&& ~~~mstatusMppMask ||| mstatusMppS) &&& ~~~mstatusMie,
    .write .mepc fun _ _ => A.main,
    .write .satp fun _ _ => 0,
    .write .medeleg fun _ _ => 0xffff,
    .write .mideleg fun _ _ => 0xffff,
    .write .sie fun csr _ => csr .sie ||| sieSeie ||| sieStie,
    .write .pmpaddr0 fun _ _ => 0x3fffffffffffff,
    .write .pmpcfg0 fun _ _ => 0xf,
    .write .menvcfg fun csr _ => csr .menvcfg ||| menvcfgStce,
    .write .mcounteren fun csr _ => csr .mcounteren ||| 2,
    .write .stimecmp fun _ time => time + 1000000,
    .writeTp]

/-! ### The machine -/

/-- Where a hart is: in `entry.S`, in `start`, or at an address outside. -/
inductive Place where
  | entry (pos : ℕ)
  | start (stmt : ℕ)
  | outside (pc : BitVec 64)
  deriving DecidableEq, Repr

/-- A hart in machine mode, and after. -/
structure BootHart where
  mhartid : BitVec 64
  place : Place
  privilege : Privilege
  regs : Reg → BitVec 64
  csr : Csr → BitVec 64

namespace BootHart

/-- One instruction of `entry.S` at position `pos`. -/
def exec (h : BootHart) (pos : ℕ) : BootInstr → BootHart
  | .csrci csr imm =>
    { h with
      place := .entry (pos + 1), csr := Function.update h.csr csr (h.csr csr &&& ~~~imm) }
  | .la rd addr => { h with place := .entry (pos + 1), regs := Function.update h.regs rd addr }
  | .li rd imm => { h with place := .entry (pos + 1), regs := Function.update h.regs rd imm }
  | .add rd rs rs' =>
    { h with
      place := .entry (pos + 1), regs := Function.update h.regs rd (h.regs rs + h.regs rs') }
  | .csrrMhartid rd =>
    { h with place := .entry (pos + 1), regs := Function.update h.regs rd h.mhartid }
  | .bnez rs target => { h with place := .entry (if h.regs rs ≠ 0 then target else pos + 1) }
  | .csrw csr rs =>
    { h with place := .entry (pos + 1), csr := Function.update h.csr csr (h.regs rs) }
  | .callStart => { h with place := .start 0 }
  | .wfi => { h with place := .entry (pos + 1) }
  | .j target => { h with place := .entry target }

/-- One statement of `start`, the `k`-th. The compiled code has the other registers for itself. -/
def execStmt (h : BootHart) (k : ℕ) (regs : Reg → BitVec 64) (time : BitVec 64) :
    StartStmt → BootHart
  | .write csr value =>
    { h with
      place := .start (k + 1)
      regs := Function.update regs .tp (h.regs .tp)
      csr := Function.update h.csr csr (value h.csr time) }
  | .writeTp => { h with place := .start (k + 1), regs := Function.update regs .tp h.mhartid }

/-- The privilege in `mstatus.MPP`. -/
def mpp (h : BootHart) : Privilege :=
  match (h.csr .mstatus).getLsbD 12, (h.csr .mstatus).getLsbD 11 with
  | true, _ => .machine
  | false, true => .supervisor
  | false, false => .user

/-- `mret`: `MIE` becomes `MPIE`, `MPIE` becomes 1, and `MPP` the lowest privilege. -/
def mret (h : BootHart) : BootHart :=
  { h with
    place := .outside (h.csr .mepc)
    privilege := h.mpp
    csr := Function.update h.csr .mstatus
      (h.csr .mstatus &&& ~~~mstatusMie &&& ~~~mstatusMppMask ||| mstatusMpie |||
        if (h.csr .mstatus).getLsbD 7 then mstatusMie else 0) }

end BootHart

variable {A : BootSymbols} {h h' h₀ : BootHart}

/-- What a hart does next. -/
inductive BootStep (A : BootSymbols) : BootHart → BootHart → Prop
  | instr {h : BootHart} {pos : ℕ} {i : BootInstr} (hplace : h.place = .entry pos)
      (hi : (entryCode A)[pos]? = some i) : BootStep A h (h.exec pos i)
  | stmt {h : BootHart} {k : ℕ} {s : StartStmt} (regs : Reg → BitVec 64) (time : BitVec 64)
      (hplace : h.place = .start k) (hs : (startCode A)[k]? = some s) :
      BootStep A h (h.execStmt k regs time s)
  | mret {h : BootHart} (hplace : h.place = .start (startCode A).length) : BootStep A h h.mret

/-- The harts `ι` take steps in any order. -/
inductive HartsStep {ι : Type} [DecidableEq ι] (A : BootSymbols) :
    (ι → BootHart) → (ι → BootHart) → Prop
  | step {c : ι → BootHart} (i : ι) {h : BootHart} (hstep : BootStep A (c i) h) :
      HartsStep A c (Function.update c i h)

/-- A hart out of reset. -/
structure BootHart.AtReset (h : BootHart) : Prop where
  place : h.place = .entry 0
  privilege : h.privilege = .machine
  sie : (h.csr .mstatus).getLsbD 1 = false

/-! ### `entry.S` -/

/-- The top of `bootstack`. -/
def stackTop (A : BootSymbols) : BitVec 64 := A.bootstack + BitVec.ofNat 64 (stackKb * 1024)

/-- `sp` at a position of `entry.S`. -/
def entrySp (A : BootSymbols) (h₀ : BootHart) (pos : ℕ) : BitVec 64 :=
  if pos < 2 then h₀.regs .sp else if pos < 4 then A.bootstack else stackTop A

/-- `t0` at a position of `entry.S`. -/
def entryT0 (A : BootSymbols) (h₀ : BootHart) (pos : ℕ) : BitVec 64 :=
  if pos < 3 then h₀.regs .t0
  else if pos < 5 then BitVec.ofNat 64 (stackKb * 1024)
  else if pos = 7 ∨ pos = 8 then A.mtrap
  else h₀.mhartid

/-- The control and status registers at a position of `entry.S`. -/
def entryCsr (A : BootSymbols) (h₀ : BootHart) (pos : ℕ) : Csr → BitVec 64 :=
  let cleared := Function.update h₀.csr .mstatus (h₀.csr .mstatus &&& ~~~mstatusMie)
  if pos = 0 then h₀.csr else if pos = 8 then Function.update cleared .mtvec A.mtrap else cleared

/-- A hart at a position of `entry.S`. -/
def entryState (A : BootSymbols) (h₀ : BootHart) (pos : ℕ) : BootHart :=
  { h₀ with
    place := .entry pos
    regs := Function.update (Function.update h₀.regs .sp (entrySp A h₀ pos)) .t0
      (entryT0 A h₀ pos)
    csr := entryCsr A h₀ pos }

/-- The positions to which a hart comes. -/
def EntryPos (h₀ : BootHart) (pos : ℕ) : Prop :=
  pos ≤ 5 ∨ h₀.mhartid = 0 ∧ pos ≤ 8 ∨ h₀.mhartid ≠ 0 ∧ (pos = park ∨ pos = park + 1)

theorem entryState_zero (hplace : h₀.place = .entry 0) : h₀ = entryState A h₀ 0 := by
  obtain ⟨id, place, privilege, regs, csr⟩ := h₀
  obtain rfl : place = .entry 0 := hplace
  simp [entryState, entrySp, entryT0, entryCsr]

theorem update_sp (r : Reg → BitVec 64) (v v' w : BitVec 64) :
    Function.update (Function.update (Function.update r .sp v) .t0 w) .sp v' =
      Function.update (Function.update r .sp v') .t0 w := by
  rw [Function.update_comm (by decide), Function.update_idem]

/-- One instruction of `entry.S`, before the call of `start`. -/
theorem exec_entryState {pos : ℕ} {i : BootInstr} (hpos : EntryPos h₀ pos) (hne : pos ≠ 8)
    (hi : (entryCode A)[pos]? = some i) :
    ∃ pos', EntryPos h₀ pos' ∧ (h₀.mhartid = 0 → pos' = pos + 1) ∧
      (entryState A h₀ pos).exec pos i = entryState A h₀ pos' := by
  have hlt : pos < 13 := (List.getElem?_eq_some_iff.mp hi).1
  -- beyond the branch only hart 0 goes on, and only the others come to `park`
  have hzero : 5 < pos → pos < 8 → h₀.mhartid = 0 := by
    rcases hpos with h | ⟨h, -⟩ | ⟨-, h⟩
    · omega
    · exact fun _ _ => h
    · rw [park] at h
      omega
  have hothers : 8 < pos → h₀.mhartid ≠ 0 ∧ (pos = park ∨ pos = park + 1) := by
    rcases hpos with h | ⟨-, h⟩ | h
    · omega
    · omega
    · exact fun _ => h
  interval_cases pos
  all_goals obtain rfl := Option.some.inj hi
  · exact ⟨1, .inl (by decide), fun _ => rfl, rfl⟩
  · refine ⟨2, .inl (by decide), fun _ => rfl, ?_⟩
    simp [entryState, BootHart.exec, entrySp, entryT0, entryCsr]
  · refine ⟨3, .inl (by decide), fun _ => rfl, ?_⟩
    simp [entryState, BootHart.exec, entrySp, entryT0, entryCsr]
  · refine ⟨4, .inl (by decide), fun _ => rfl, ?_⟩
    simp [entryState, BootHart.exec, entrySp, entryT0, entryCsr, stackTop, update_sp]
  · refine ⟨5, .inl (by decide), fun _ => rfl, ?_⟩
    simp [entryState, BootHart.exec, entrySp, entryT0, entryCsr]
  · -- the branch
    by_cases hid : h₀.mhartid = 0
    · refine ⟨6, .inr (.inl ⟨hid, by decide⟩), fun _ => rfl, ?_⟩
      simp [entryState, BootHart.exec, entrySp, entryT0, entryCsr, hid]
    · refine ⟨park, .inr (.inr ⟨hid, .inl rfl⟩), fun h => absurd h hid, ?_⟩
      simpa [entryState, BootHart.exec, entrySp, entryT0, entryCsr, park] using hid
  · refine ⟨7, .inr (.inl ⟨hzero (by decide) (by decide), by decide⟩), fun _ => rfl, ?_⟩
    simp [entryState, BootHart.exec, entrySp, entryT0, entryCsr]
  · refine ⟨8, .inr (.inl ⟨hzero (by decide) (by decide), by decide⟩), fun _ => rfl, ?_⟩
    simp [entryState, BootHart.exec, entrySp, entryT0, entryCsr]
  · exact absurd rfl hne
  · have hid := (hothers (by decide)).1
    refine ⟨park + 1, .inr (.inr ⟨hid, .inr rfl⟩), fun h => absurd h hid, ?_⟩
    simp [entryState, BootHart.exec, entrySp, entryT0, entryCsr, park]
  · have hid := (hothers (by decide)).1
    refine ⟨park, .inr (.inr ⟨hid, .inl rfl⟩), fun h => absurd h hid, ?_⟩
    simp [entryState, BootHart.exec, entrySp, entryT0, entryCsr, park]
  · exact absurd (hothers (by decide)).2 (by decide)
  · exact absurd (hothers (by decide)).2 (by decide)

/-! ### `start` -/

/-- What the statement does to the control and status registers. -/
def StartStmt.apply (csr : Csr → BitVec 64) (time : BitVec 64) : StartStmt → Csr → BitVec 64
  | .write c value => Function.update csr c (value csr time)
  | .writeTp => csr

/-- The control and status registers after the first `k` statements of `start`. -/
inductive StartRun (A : BootSymbols) (csr₀ : Csr → BitVec 64) : ℕ → (Csr → BitVec 64) → Prop
  | zero : StartRun A csr₀ 0 csr₀
  | succ {k : ℕ} {csr : Csr → BitVec 64} {s : StartStmt} (h : StartRun A csr₀ k csr)
      (hs : (startCode A)[k]? = some s) (time : BitVec 64) :
      StartRun A csr₀ (k + 1) (s.apply csr time)

/-- A hart in `start`. -/
structure InStart (A : BootSymbols) (h₀ h : BootHart) (k : ℕ) : Prop where
  place : h.place = .start k
  mhartid : h.mhartid = h₀.mhartid
  zero : h₀.mhartid = 0
  privilege : h.privilege = .machine
  csr : StartRun A (entryCsr A h₀ 8) k h.csr
  tp : k = (startCode A).length → h.regs .tp = 0

/-- What `start` has done when it leaves. -/
structure Started (A : BootSymbols) (h₀ : BootHart) (csr : Csr → BitVec 64) : Prop where
  mpp : (csr .mstatus).getLsbD 12 = false ∧ (csr .mstatus).getLsbD 11 = true
  sie : (csr .mstatus).getLsbD 1 = (h₀.csr .mstatus).getLsbD 1
  mtvec : csr .mtvec = A.mtrap
  mepc : csr .mepc = A.main
  satp : csr .satp = 0
  delegated : csr .medeleg = 0xffff ∧ csr .mideleg = 0xffff
  enabled : csr .sie = h₀.csr .sie ||| sieSeie ||| sieStie
  pmp : csr .pmpaddr0 = 0x3fffffffffffff ∧ csr .pmpcfg0 = 0xf
  timer : csr .menvcfg = h₀.csr .menvcfg ||| menvcfgStce ∧
    csr .mcounteren = h₀.csr .mcounteren ||| 2 ∧ ∃ time, csr .stimecmp = time + 1000000

theorem StartRun.first {csr₀ csr : Csr → BitVec 64} (h : StartRun A csr₀ 0 csr) : csr = csr₀ := by
  cases h
  rfl

theorem StartRun.last {k : ℕ} {csr₀ csr : Csr → BitVec 64} {s : StartStmt}
    (h : StartRun A csr₀ (k + 1) csr) (hs : (startCode A)[k]? = some s) :
    ∃ csr' time, StartRun A csr₀ k csr' ∧ csr = s.apply csr' time := by
  cases h with
  | succ h hs' time =>
    obtain rfl := Option.some.inj (hs.symm.trans hs')
    exact ⟨_, time, h, rfl⟩

theorem StartRun.started {csr : Csr → BitVec 64}
    (h : StartRun A (entryCsr A h₀ 8) (startCode A).length csr) : Started A h₀ csr := by
  -- the statements, from the last to the first
  obtain ⟨csr₁₁, _, g₁₁, he₁₁⟩ := h.last rfl
  obtain ⟨csr₁₀, time, g₁₀, he₁₀⟩ := g₁₁.last rfl
  obtain ⟨csr₉, _, g₉, he₉⟩ := g₁₀.last rfl
  obtain ⟨csr₈, _, g₈, he₈⟩ := g₉.last rfl
  obtain ⟨csr₇, _, g₇, he₇⟩ := g₈.last rfl
  obtain ⟨csr₆, _, g₆, he₆⟩ := g₇.last rfl
  obtain ⟨csr₅, _, g₅, he₅⟩ := g₆.last rfl
  obtain ⟨csr₄, _, g₄, he₄⟩ := g₅.last rfl
  obtain ⟨csr₃, _, g₃, he₃⟩ := g₄.last rfl
  obtain ⟨csr₂, _, g₂, he₂⟩ := g₃.last rfl
  obtain ⟨csr₁, _, g₁, he₁⟩ := g₂.last rfl
  obtain ⟨csr₀, _, g₀, he₀⟩ := g₁.last rfl
  have he := g₀.first
  subst he he₀ he₁ he₂ he₃ he₄ he₅ he₆ he₇ he₈ he₉ he₁₀ he₁₁
  refine ⟨?_, ?_, ?_, ?_, ?_, ?_, ?_, ?_, ?_⟩
  all_goals simp [StartStmt.apply, entryCsr, mstatusMie, mstatusMppMask, mstatusMppS]

/-! ### One hart -/

/-- Where a hart can be, and in what state. -/
inductive BootOk (A : BootSymbols) (h₀ : BootHart) : BootHart → Prop
  | entry {pos : ℕ} (hpos : EntryPos h₀ pos) : BootOk A h₀ (entryState A h₀ pos)
  | start {h : BootHart} {k : ℕ} (hin : InStart A h₀ h k) : BootOk A h₀ h
  | left {h : BootHart} (hin : InStart A h₀ h (startCode A).length) : BootOk A h₀ h.mret

/-- The call of `start`. -/
theorem inStart_zero (hreset : h₀.AtReset) (hpos : EntryPos h₀ 8) :
    InStart A h₀ ((entryState A h₀ 8).exec 8 .callStart) 0 where
  place := rfl
  mhartid := rfl
  zero := by
    rcases hpos with h | ⟨h, -⟩ | ⟨-, h⟩
    · omega
    · exact h
    · exact absurd h (by decide)
  privilege := hreset.privilege
  csr := .zero
  tp h := absurd h (by simp [startCode])

/-- One statement of `start`. -/
theorem InStart.execStmt {k : ℕ} {s : StartStmt} (hin : InStart A h₀ h k)
    (regs : Reg → BitVec 64) (time : BitVec 64) (hs : (startCode A)[k]? = some s) :
    InStart A h₀ (h.execStmt k regs time s) (k + 1) := by
  have hrun := hin.csr.succ hs time
  cases s with
  | write c value =>
    refine ⟨rfl, hin.mhartid, hin.zero, hin.privilege, hrun, fun hk => ?_⟩
    -- the last statement is not one of these
    obtain rfl : k = 11 := Nat.succ.inj hk
    cases hs
  | writeTp =>
    refine ⟨rfl, hin.mhartid, hin.zero, hin.privilege, hrun, fun _ => ?_⟩
    show Function.update regs .tp h.mhartid .tp = 0
    rw [Function.update_self, hin.mhartid, hin.zero]

/-- **One step of a hart.** -/
theorem BootOk.step (hreset : h₀.AtReset) (hok : BootOk A h₀ h) (hstep : BootStep A h h') :
    BootOk A h₀ h' := by
  cases hok with
  | @entry pos hpos =>
    cases hstep with
    | @instr pos' i hplace hi =>
      obtain rfl : pos = pos' := Place.entry.inj hplace
      by_cases hcall : pos = 8
      · subst hcall
        obtain rfl := Option.some.inj hi
        exact .start (inStart_zero hreset hpos)
      · obtain ⟨pos', hpos', -, he⟩ := exec_entryState hpos hcall hi
        rw [he]
        exact .entry hpos'
    | stmt _ _ hplace => cases hplace
    | mret hplace => cases hplace
  | @start _ k hin =>
    cases hstep with
    | instr hplace => cases hin.place.symm.trans hplace
    | @stmt k' s regs time hplace hs =>
      obtain rfl : k = k' := Place.start.inj (hin.place.symm.trans hplace)
      exact .start (hin.execStmt regs time hs)
    | mret hplace =>
      obtain rfl : k = _ := Place.start.inj (hin.place.symm.trans hplace)
      exact .left hin
  | left hin =>
    cases hstep with
    | instr hplace => cases hplace
    | stmt _ _ hplace => cases hplace
    | mret hplace => cases hplace

theorem StartRun.le {k : ℕ} {csr₀ csr : Csr → BitVec 64} (h : StartRun A csr₀ k csr) :
    k ≤ (startCode A).length := by
  cases h with
  | zero => exact Nat.zero_le _
  | succ h hs time => exact (List.getElem?_eq_some_iff.mp hs).1

/-- Hart 0 goes on from where it is in `start`. -/
theorem InStart.finishes {k : ℕ} (hin : InStart A h₀ h k) (hk : k ≤ (startCode A).length) :
    ∃ h', Relation.ReflTransGen (BootStep A) h h' ∧ InStart A h₀ h' (startCode A).length := by
  induction hn : (startCode A).length - k generalizing h k with
  | zero =>
    obtain rfl : k = (startCode A).length := by omega
    exact ⟨h, .refl, hin⟩
  | succ n ih =>
    have hlt : k < (startCode A).length := by omega
    have hs := List.getElem?_eq_getElem hlt
    obtain ⟨h', hrun, hin'⟩ := ih (hin.execStmt h.regs 0 hs) hlt (by omega)
    exact ⟨h', .head (.stmt h.regs 0 hin.place hs) hrun, hin'⟩

/-- Hart 0 goes on from where it is in `entry.S`. -/
theorem entryState_finishes (hreset : h₀.AtReset) (hid : h₀.mhartid = 0) {pos : ℕ}
    (hpos : EntryPos h₀ pos) :
    ∃ h, Relation.ReflTransGen (BootStep A) (entryState A h₀ pos) h ∧ InStart A h₀ h 0 := by
  have hle : pos ≤ 8 := by
    rcases hpos with h | ⟨-, h⟩ | ⟨h, -⟩
    · omega
    · exact h
    · exact absurd hid h
  induction hn : 8 - pos generalizing pos with
  | zero =>
    obtain rfl : pos = 8 := by omega
    exact ⟨_, .single (.instr rfl rfl), inStart_zero hreset hpos⟩
  | succ n ih =>
    have hi := List.getElem?_eq_getElem (l := entryCode A) (i := pos)
      (show pos < 13 by omega)
    obtain ⟨pos', hpos', hnext, he⟩ := exec_entryState hpos (by omega) hi
    obtain rfl := hnext hid
    obtain ⟨h, hrun, hin⟩ := ih hpos' (by omega) (by omega)
    refine ⟨h, .head (.instr rfl hi) ?_, hin⟩
    rw [he]
    exact hrun

/-! ### All harts -/

/-- The hart as the kernel sees it, with the variables of `spinlock.c` at zero. What the boot code
does not concern is taken from `g`. -/
def BootHart.toHart (h : BootHart) (g : Hart) : Hart :=
  { g with
    sie := (h.csr .mstatus).getLsbD 1
    supervisor := h.privilege = .supervisor
    satp := h.csr .satp
    regs := h.regs
    held := ∅
    noff := 0
    opens := 0 }

/-- Hart 0 at `main`. -/
structure AtMain (A : BootSymbols) (h₀ h : BootHart) : Prop where
  place : h.place = .outside A.main
  zero : h₀.mhartid = 0
  reset : ∀ g, (h.toHart g).Reset
  mtvec : h.csr .mtvec = A.mtrap
  satp : h.csr .satp = 0
  delegated : h.csr .medeleg = 0xffff ∧ h.csr .mideleg = 0xffff
  enabled : h.csr .sie = h₀.csr .sie ||| sieSeie ||| sieStie
  pmp : h.csr .pmpaddr0 = 0x3fffffffffffff ∧ h.csr .pmpcfg0 = 0xf
  timer : h.csr .menvcfg = h₀.csr .menvcfg ||| menvcfgStce ∧
    h.csr .mcounteren = h₀.csr .mcounteren ||| 2 ∧ ∃ time, h.csr .stimecmp = time + 1000000

theorem InStart.atMain (hreset : h₀.AtReset) (hin : InStart A h₀ h (startCode A).length) :
    AtMain A h₀ h.mret := by
  have hst := hin.csr.started
  have hother : ∀ c, c ≠ .mstatus → h.mret.csr c = h.csr c :=
    fun c hc => Function.update_of_ne hc ..
  have hsie : (h.mret.csr .mstatus).getLsbD 1 = false := by
    rw [← hreset.sie, ← hst.sie]
    simp only [BootHart.mret, Function.update_self]
    split_ifs <;> simp [mstatusMie, mstatusMppMask, mstatusMpie]
  have hmpp : h.mret.privilege = .supervisor := by
    show h.mpp = _
    rw [BootHart.mpp, hst.mpp.1, hst.mpp.2]
  constructor
  case place => exact congrArg Place.outside hst.mepc
  case zero => exact hin.zero
  case reset => exact fun g => ⟨hsie, by simp [BootHart.toHart, hmpp], hin.tp rfl, rfl, rfl, rfl⟩
  case mtvec => exact (hother _ (by decide)).trans hst.mtvec
  case satp => exact (hother _ (by decide)).trans hst.satp
  case delegated => exact hst.delegated
  case enabled => exact hst.enabled
  case pmp => exact hst.pmp
  case timer => exact hst.timer

theorem BootOk.parked (hok : BootOk A h₀ h) (hid : h₀.mhartid ≠ 0) :
    ∃ pos, (pos ≤ 5 ∨ pos = park ∨ pos = park + 1) ∧ h = entryState A h₀ pos := by
  cases hok with
  | @entry pos hpos =>
    refine ⟨pos, ?_, rfl⟩
    rcases hpos with h | ⟨h, -⟩ | ⟨-, h⟩
    · exact .inl h
    · exact absurd h hid
    · exact .inr h
  | start hin => exact absurd hin.zero hid
  | left hin => exact absurd hin.zero hid

theorem BootOk.atMain (hreset : h₀.AtReset) (hok : BootOk A h₀ h) {pc : BitVec 64}
    (hpc : h.place = .outside pc) : AtMain A h₀ h := by
  cases hok with
  | entry => cases hpc
  | start hin => cases hin.place.symm.trans hpc
  | left hin => exact hin.atMain hreset

theorem BootOk.finishes (hreset : h₀.AtReset) (hok : BootOk A h₀ h) (hid : h₀.mhartid = 0) :
    ∃ h', Relation.ReflTransGen (BootStep A) h h' ∧ AtMain A h₀ h' := by
  have hmret : ∀ {h k}, InStart A h₀ h k →
      ∃ h', Relation.ReflTransGen (BootStep A) h h' ∧ AtMain A h₀ h' := by
    intro h k hin
    obtain ⟨h', hrun, hin'⟩ := hin.finishes hin.csr.le
    exact ⟨h'.mret, hrun.tail (.mret hin'.place), hin'.atMain hreset⟩
  cases hok with
  | entry hpos =>
    obtain ⟨h₁, hrun, hin⟩ := entryState_finishes hreset hid hpos
    obtain ⟨h', hrun', hmain⟩ := hmret hin
    exact ⟨h', hrun.trans hrun', hmain⟩
  | start hin => exact hmret hin
  | left hin => exact ⟨_, .refl, hin.atMain hreset⟩

section Harts

variable {ι : Type} [DecidableEq ι] {c d : ι → BootHart}

theorem bootOk_of_run (hreset : ∀ i, (c i).AtReset)
    (hrun : Relation.ReflTransGen (HartsStep A) c d) (i : ι) : BootOk A (c i) (d i) := by
  induction hrun with
  | refl =>
    have hpos : EntryPos (c i) 0 := .inl (by decide)
    have hok := BootOk.entry (A := A) hpos
    rwa [← entryState_zero (hreset i).place] at hok
  | tail _ hstep ih =>
    cases hstep with
    | @step j h hstep =>
      by_cases hij : i = j
      · subst hij
        rw [Function.update_self]
        exact ih.step (hreset i) hstep
      · rwa [Function.update_of_ne hij]

/-- The steps of one hart are steps of the machine. -/
theorem hartsStep_of_run {h : BootHart} (i : ι)
    (hrun : Relation.ReflTransGen (BootStep A) (d i) h) :
    Relation.ReflTransGen (HartsStep A) d (Function.update d i h) := by
  induction hrun with
  | refl => rw [Function.update_eq_self]
  | @tail h h' _ hstep ih =>
    have hnext := HartsStep.step (A := A) (c := Function.update d i h) i (h := h')
      (by rwa [Function.update_self])
    rw [Function.update_idem] at hnext
    exact ih.tail hnext

/-- **One hart boots.** The harts come out of reset together and take their steps in any order. Then
a hart other than hart 0 stays in `entry.S`, where it ends in the loop at `park`; it has not touched
the stack. A hart that has left the boot code is hart 0, it is at `main`, and its registers are set
up for the kernel; and from wherever it is hart 0 can go on to `main`. -/
theorem only_hart_zero_boots (hreset : ∀ i, (c i).AtReset)
    (hrun : Relation.ReflTransGen (HartsStep A) c d) (i : ι) :
    ((c i).mhartid ≠ 0 → ∃ pos, (pos ≤ 5 ∨ pos = park ∨ pos = park + 1) ∧
      d i = entryState A (c i) pos) ∧
    (∀ pc, (d i).place = .outside pc → AtMain A (c i) (d i)) ∧
    ((c i).mhartid = 0 → ∃ e, Relation.ReflTransGen (HartsStep A) d e ∧ AtMain A (c i) (e i)) := by
  have hok := bootOk_of_run hreset hrun i
  refine ⟨hok.parked, fun pc => hok.atMain (hreset i), fun hid => ?_⟩
  obtain ⟨h, hrun', hmain⟩ := hok.finishes (hreset i) hid
  refine ⟨_, hartsStep_of_run i hrun', ?_⟩
  rwa [Function.update_self]

end Harts

/-- Harts out of reset. -/
def resetHart (id : BitVec 64) : BootHart where
  mhartid := id
  place := .entry 0
  privilege := .machine
  regs _ := 0
  csr _ := 0

theorem atReset_resetHart (id : BitVec 64) : (resetHart id).AtReset :=
  ⟨rfl, rfl, BitVec.getLsbD_zero⟩

/-- Of four harts the first one comes to `main`. -/
theorem only_hart_zero_boots_four : ∃ e : Fin 4 → BootHart,
    Relation.ReflTransGen (HartsStep ⟨0x80010000, 0x80000040, 0x80000100⟩)
      (fun i : Fin 4 => resetHart (BitVec.ofNat 64 i)) e ∧
    AtMain ⟨0x80010000, 0x80000040, 0x80000100⟩ (resetHart 0) (e 0) :=
  (only_hart_zero_boots (fun _ => atReset_resetHart _) .refl (0 : Fin 4)).2.2 rfl

end OsKernel
