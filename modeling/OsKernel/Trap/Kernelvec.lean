import OsKernel.Kernel.State
import OsKernel.Lib.StraightLine

/-!
# `kernelvec.S`

An interrupt that is taken while the kernel runs goes to `kernelvec`, which opens a frame of 256
bytes on the stack in use, saves seventeen registers there, calls `kerneltrap` and restores them.
The other registers it leaves to `kerneltrap`, a compiled function that obeys the calling
convention. Between them the two preserve all registers: the code that was interrupted does not
notice.
-/

namespace OsKernel

/-- The size of the frame. -/
def kernelvecSize : ℕ := 256

/-- The offsets in the frame. -/
def kernelvecSlots : List (Reg × ℕ) :=
  [(.ra, 0), (.gp, 16), (.t0, 32), (.t1, 40), (.t2, 48), (.a0, 72), (.a1, 80), (.a2, 88),
    (.a3, 96), (.a4, 104), (.a5, 112), (.a6, 120), (.a7, 128), (.t3, 216), (.t4, 224), (.t5, 232),
    (.t6, 240)]

theorem kernelvecSlots_ascending : kernelvecSlots.Pairwise fun x y => x.2 + 8 ≤ y.2 := by decide

theorem kernelvecSlots_within : ∀ x ∈ kernelvecSlots, x.2 + 8 ≤ kernelvecSize := by decide

theorem kernelvecSlots_nodup : (kernelvecSlots.map Prod.fst).Nodup := by decide

/-- The frame. -/
def kernelvecFrame : RegFrame Reg kernelvecSize :=
  ⟨kernelvecSlots, kernelvecSlots_ascending, kernelvecSlots_within, kernelvecSlots_nodup⟩

/-- `kernelvec` up to the call. -/
def kernelvecEntry : List (Asm Reg) :=
  [.addi .sp .sp (-256),
    .sd .ra 0 .sp, .sd .gp 16 .sp, .sd .t0 32 .sp, .sd .t1 40 .sp, .sd .t2 48 .sp, .sd .a0 72 .sp,
    .sd .a1 80 .sp, .sd .a2 88 .sp, .sd .a3 96 .sp, .sd .a4 104 .sp, .sd .a5 112 .sp,
    .sd .a6 120 .sp, .sd .a7 128 .sp, .sd .t3 216 .sp, .sd .t4 224 .sp, .sd .t5 232 .sp,
    .sd .t6 240 .sp]

/-- `kernelvec` from the call to `sret`. -/
def kernelvecExit : List (Asm Reg) :=
  [.ld .ra 0 .sp, .ld .gp 16 .sp, .ld .t0 32 .sp, .ld .t1 40 .sp, .ld .t2 48 .sp, .ld .a0 72 .sp,
    .ld .a1 80 .sp, .ld .a2 88 .sp, .ld .a3 96 .sp, .ld .a4 104 .sp, .ld .a5 112 .sp,
    .ld .a6 120 .sp, .ld .a7 128 .sp, .ld .t3 216 .sp, .ld .t4 224 .sp, .ld .t5 232 .sp,
    .ld .t6 240 .sp, .addi .sp .sp 256]

/-- `kernelvec`, with the calls of `kerneltrap` given by what they do to the machine. -/
def kernelvecRuns (kerneltrap : Machine Reg → Machine Reg → Prop) (m m' : Machine Reg) : Prop :=
  ∃ m₁, kerneltrap (m.run kernelvecEntry) m₁ ∧ m' = m₁.run kernelvecExit

theorem kernelvecEntry_eq :
    kernelvecEntry = .addi .sp .sp (-256) :: kernelvecFrame.save .sp := rfl

theorem kernelvecExit_eq :
    kernelvecExit = kernelvecFrame.restore .sp ++ [.addi .sp .sp 256] := rfl

/-! ### One interrupt -/

/-- The registers a function leaves as they are. -/
def calleeSaved : List Reg :=
  [.sp, .tp, .s0, .s1, .s2, .s3, .s4, .s5, .s6, .s7, .s8, .s9, .s10, .s11]

/-- Every register is saved by one of the two. -/
theorem mem_calleeSaved (r : Reg) (h : r ∉ kernelvecFrame.regs) : r ∈ calleeSaved := by
  revert h
  cases r <;> decide

/-- A call by the calling convention: it keeps the callee-saved registers, the frame of `size` bytes
of its caller, and the bytes in `D`. -/
structure ObeysConvention (size : ℕ) (D : Set ℕ) (m m' : Machine Reg) : Prop where
  saved : ∀ r ∈ calleeSaved, m'.regs r = m.regs r
  frame : m.mem.AgreeOn m'.mem (m.regs .sp).toNat size
  data : ∀ y ∈ D, m'.mem y = m.mem y

/-- There is room for the frame below the stack pointer, apart from the bytes in `D`. -/
def StackRoom (D : Set ℕ) (regs : Reg → BitVec 64) : Prop :=
  kernelvecSize ≤ (regs .sp).toNat ∧
    ∀ y ∈ D, y < (regs .sp).toNat - kernelvecSize ∨ (regs .sp).toNat ≤ y

variable {kerneltrap : Machine Reg → Machine Reg → Prop} {D : Set ℕ} {m m₁ m' : Machine Reg}

/-- The frame is below the stack pointer. -/
theorem toNat_frame (hsp : kernelvecSize ≤ (m.regs .sp).toNat) :
    (m.regs .sp + -256).toNat = (m.regs .sp).toNat - kernelvecSize := by
  have hlt := (m.regs .sp).isLt
  rw [BitVec.toNat_add]
  simp only [kernelvecSize, BitVec.reduceNeg, BitVec.reduceToNat] at hsp ⊢
  omega

/-- The first half. -/
theorem run_kernelvecEntry (hroom : StackRoom D m.regs) :
    (m.run kernelvecEntry).regs = Function.update m.regs .sp (m.regs .sp + -256) ∧
      kernelvecFrame.Holds (m.run kernelvecEntry).mem ((m.regs .sp).toNat - kernelvecSize) m.regs ∧
      ∀ y ∈ D, (m.run kernelvecEntry).mem y = m.mem y := by
  have hsp : ((m.exec (.addi .sp .sp (-256))).regs .sp).toNat =
      (m.regs .sp).toNat - kernelvecSize := toNat_frame hroom.1
  have hbound : (m.regs .sp).toNat - kernelvecSize + kernelvecSize ≤ 2 ^ 64 := by
    have := (m.regs .sp).isLt
    have := hroom.1
    omega
  obtain ⟨hregs, hheld, hrest⟩ := kernelvecFrame.run_save hsp hbound
  rw [kernelvecEntry_eq, Machine.run_cons]
  refine ⟨hregs, hheld.congr fun r hr => ?_, fun y hy => hrest y ?_⟩
  · have hne : r ≠ .sp := by
      rintro rfl
      exact absurd hr (by decide)
    exact (Function.update_of_ne hne ..).symm
  · have := hroom.1
    rcases hroom.2 y hy with h | h
    · exact .inl h
    · exact .inr (by omega)

/-- **An interrupt is transparent.** Whatever `kerneltrap` does within the calling convention, after
`kernelvec` all registers are as before. -/
theorem kernelvec_agree (hroom : StackRoom D m.regs)
    (hcall : ∀ m₁ m₂, kerneltrap m₁ m₂ → ObeysConvention kernelvecSize D m₁ m₂)
    (h : kernelvecRuns kerneltrap m m') : m.Agree D m' := by
  obtain ⟨m₁, htrap, rfl⟩ := h
  obtain ⟨hregs, hheld, hdata⟩ := run_kernelvecEntry hroom
  have hobeys := hcall _ _ htrap
  have hsp₀ : (m.run kernelvecEntry).regs .sp = m.regs .sp + -256 := by
    rw [hregs, Function.update_self]
  have hsp₁ : m₁.regs .sp = m.regs .sp + -256 := (hobeys.saved .sp (by decide)).trans hsp₀
  have hframe := hobeys.frame
  rw [hsp₀, toNat_frame hroom.1] at hframe
  have hbound : (m.regs .sp).toNat - kernelvecSize + kernelvecSize ≤ 2 ^ 64 := by
    have := (m.regs .sp).isLt
    have := hroom.1
    omega
  have hbase : (m₁.regs .sp).toNat = (m.regs .sp).toNat - kernelvecSize := by
    rw [hsp₁, toNat_frame hroom.1]
  obtain ⟨hmem, hset, hothers⟩ := kernelvecFrame.run_restore (by decide) hbase hbound
    (hheld.agree hframe)
  rw [kernelvecExit_eq, Machine.run_append]
  refine ⟨funext fun r => ?_, fun y hy => ?_⟩
  · show Function.update (m₁.run (kernelvecFrame.restore .sp)).regs .sp
      ((m₁.run (kernelvecFrame.restore .sp)).regs .sp + 256) r = m.regs r
    by_cases hr : r = .sp
    · rw [hr, Function.update_self, hothers .sp (by decide), hsp₁]
      rw [BitVec.add_assoc]
      simp
    · -- a register is in the frame, or `kerneltrap` is bound to keep it
      rw [Function.update_of_ne hr]
      by_cases hmem : r ∈ kernelvecFrame.regs
      · exact hset r hmem
      · rw [hothers r hmem, hobeys.saved r (mem_calleeSaved r hmem), hregs,
          Function.update_of_ne hr]
  · show (m₁.run (kernelvecFrame.restore .sp)).mem y = m.mem y
    rw [hmem, hobeys.data y hy, hdata y hy]

/-! ### Any number of interrupts -/

variable {κ : Type} {step : κ × Machine Reg → κ × Machine Reg → Prop} {x y : κ × Machine Reg}

/-- **Interrupts are transparent.** Let `step` be code of the kernel whose steps depend on the
registers and on the bytes in `D` only, with room on its stack wherever it comes, and let
`kerneltrap` obey the calling convention and leave `D` alone. Then with interrupts before, between
and after its steps the code comes to no other places than without, with the same registers and
the same bytes in `D`. -/
theorem kernelvec_transparent (hcode : Respects D step)
    (hroom : ∀ y, Relation.ReflTransGen step x y → StackRoom D y.2.regs)
    (hcall : ∀ m₁ m₂, kerneltrap m₁ m₂ → ObeysConvention kernelvecSize D m₁ m₂)
    (hrun : Relation.ReflTransGen (Interleaved step (kernelvecRuns kerneltrap)) x y) :
    ∃ m', Relation.ReflTransGen step x (y.1, m') ∧ m'.Agree D y.2 :=
  hcode.transparent hroom (fun _ _ hroom h => kernelvec_agree hroom hcall h) hrun

/-- A handler that overwrites every register it may. -/
def clobber (m : Machine Reg) : Machine Reg :=
  { m with regs := fun r => if r ∈ calleeSaved then m.regs r else 0xdead }

theorem obeysConvention_clobber (m : Machine Reg) :
    ObeysConvention kernelvecSize D m (clobber m) where
  saved _ hr := if_pos hr
  frame := .refl _ _ _
  data _ _ := rfl

/-- A loop that counts in a word of memory. -/
def countingCode : ℕ → Option (Asm Reg × ((Reg → BitVec 64) → ℕ))
  | 0 => some (.ld .a2 0 .a1, fun _ => 1)
  | 1 => some (.addi .a2 .a2 1, fun _ => 2)
  | 2 => some (.sd .a2 0 .a1, fun _ => 0)
  | _ => none

/-- A machine that is about to run it. -/
def countingMachine : Machine Reg where
  regs r := if r = .sp then 0x80010000 else if r = .a1 then 0x80020000 else 0
  mem _ := 0

/-- The word it counts in. -/
def countedBytes : Set ℕ := {y | 0x80020000 ≤ y ∧ y < 0x80020008}

theorem countingCode_keeps_sp {x y : ℕ × Machine Reg}
    (h : Asm.Step countedBytes countingCode x y) : y.2.regs .sp = x.2.regs .sp := by
  obtain ⟨i, next, hcode, -, rfl⟩ := h
  unfold countingCode at hcode
  split at hcode <;> cases hcode <;> rfl

theorem stackRoom_countingCode {y : ℕ × Machine Reg}
    (h : Relation.ReflTransGen (Asm.Step countedBytes countingCode) (0, countingMachine) y) :
    StackRoom countedBytes y.2.regs := by
  have hsp : y.2.regs .sp = 0x80010000 := by
    induction h with
    | refl => rfl
    | tail _ hstep ih => rw [countingCode_keeps_sp hstep, ih]
  rw [StackRoom, hsp]
  refine ⟨by decide, fun y hy => .inr ?_⟩
  exact le_trans (by decide) hy.1

/-- An interrupt between the load and the addition: the loop comes back to its head with the count
that it has without. -/
theorem kernelvec_transparent_counting : ∃ m₁ m',
    kernelvecRuns (fun m₁ m₂ => m₂ = clobber m₁) (countingMachine.exec (.ld .a2 0 .a1)) m₁ ∧
    Relation.ReflTransGen (Asm.Step countedBytes countingCode) (0, countingMachine) (0, m') ∧
    m'.Agree countedBytes ((m₁.exec (.addi .a2 .a2 1)).exec (.sd .a2 0 .a1)) := by
  have hin : ∀ k < 8, 0x80020000 + k ∈ countedBytes :=
    fun k hk => ⟨Nat.le_add_right .., by omega⟩
  have hcall : ∀ m₁ m₂, m₂ = clobber m₁ → ObeysConvention kernelvecSize countedBytes m₁ m₂ := by
    rintro m₁ _ rfl
    exact obeysConvention_clobber m₁
  obtain ⟨m₁, hirq⟩ : ∃ m₁, kernelvecRuns (fun m₁ m₂ => m₂ = clobber m₁)
      (countingMachine.exec (.ld .a2 0 .a1)) m₁ := ⟨_, _, rfl, rfl⟩
  have hload : Asm.Step countedBytes countingCode (0, countingMachine)
      (1, countingMachine.exec (.ld .a2 0 .a1)) := ⟨_, _, rfl, hin, rfl⟩
  have hagree := kernelvec_agree (stackRoom_countingCode (.single hload)) hcall hirq
  have hadd : Asm.Step countedBytes countingCode (1, m₁) (2, m₁.exec (.addi .a2 .a2 1)) :=
    ⟨_, _, rfl, trivial, rfl⟩
  have hstore : Asm.Step countedBytes countingCode (2, m₁.exec (.addi .a2 .a2 1))
      (0, (m₁.exec (.addi .a2 .a2 1)).exec (.sd .a2 0 .a1)) := by
    refine ⟨_, _, rfl, fun k hk => ?_, rfl⟩
    rw [show (m₁.exec (.addi .a2 .a2 1)).regs .a1 = 0x80020000 from congrFun hagree.regs .a1]
    exact hin k hk
  have hirq' : Interleaved (Asm.Step countedBytes countingCode)
      (kernelvecRuns fun m₁ m₂ => m₂ = clobber m₁) (1, countingMachine.exec (.ld .a2 0 .a1))
      (1, m₁) := .inr ⟨rfl, hirq⟩
  obtain ⟨m', hrun, hm'⟩ := kernelvec_transparent (Asm.respects_step countingCode)
    (fun y => stackRoom_countingCode) hcall
    ((((Relation.ReflTransGen.single (.inl hload)).tail hirq').tail (.inl hadd)).tail (.inl hstore))
  exact ⟨m₁, m', hirq, hrun, hm'⟩

end OsKernel
