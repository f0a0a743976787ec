import Mathlib.Logic.Relation
import OsKernel.Lib.ByteMemory

/-!
# Code that saves and restores registers

Straight-line code on 64-bit registers `ρ` and bytes of memory: loads and stores of doublewords
relative to a base register, and additions of constants. A `RegFrame` is a layout of registers in a
block of memory; `RegFrame.Holds` says that a block holds the values of a register file. Saving
establishes `Holds`, restoring reads it back, and whatever leaves the block alone keeps it.

`Respects` is about code of any kind: it goes on in the same way on machines that have the same
registers and the same bytes in a set `D`. Such code does not notice a handler that leaves both
alone.
-/

namespace OsKernel

/-- The instructions. -/
inductive Asm (ρ : Type) where
  | sd (rs : ρ) (off : ℕ) (base : ρ)
  | ld (rd : ρ) (off : ℕ) (base : ρ)
  | addi (rd rs : ρ) (imm : BitVec 64)
  deriving DecidableEq, Repr

/-- Registers and memory. -/
structure Machine (ρ : Type) where
  regs : ρ → BitVec 64
  mem : Mem

variable {ρ : Type} [DecidableEq ρ]

namespace Machine

/-- One instruction. -/
def exec (m : Machine ρ) : Asm ρ → Machine ρ
  | .sd rs off base =>
    { m with mem := m.mem.store64 (m.regs base + BitVec.ofNat 64 off).toNat (m.regs rs).toNat }
  | .ld rd off base =>
    { m with
      regs := Function.update m.regs rd
        (BitVec.ofNat 64 (m.mem.load64 (m.regs base + BitVec.ofNat 64 off).toNat)) }
  | .addi rd rs imm => { m with regs := Function.update m.regs rd (m.regs rs + imm) }

/-- A sequence of instructions. -/
def run (m : Machine ρ) (code : List (Asm ρ)) : Machine ρ := code.foldl exec m

@[simp] theorem run_nil (m : Machine ρ) : m.run [] = m := rfl

@[simp] theorem run_cons (m : Machine ρ) (i : Asm ρ) (code : List (Asm ρ)) :
    m.run (i :: code) = (m.exec i).run code := rfl

theorem run_append (m : Machine ρ) (code code' : List (Asm ρ)) :
    m.run (code ++ code') = (m.run code).run code' := List.foldl_append ..

end Machine

/-! ### Layouts -/

/-- A layout of registers in a block of `size` bytes, in ascending order. -/
structure RegFrame (ρ : Type) (size : ℕ) where
  slots : List (ρ × ℕ)
  ascending : slots.Pairwise fun x y => x.2 + 8 ≤ y.2
  within : ∀ x ∈ slots, x.2 + 8 ≤ size
  nodup : (slots.map Prod.fst).Nodup

/-- Saves the registers of a list. -/
def saveCode (base : ρ) (slots : List (ρ × ℕ)) : List (Asm ρ) :=
  slots.map fun x => .sd x.1 x.2 base

/-- Restores the registers of a list. -/
def restoreCode (base : ρ) (slots : List (ρ × ℕ)) : List (Asm ρ) :=
  slots.map fun x => .ld x.1 x.2 base

/-- The block at `a` holds the registers `v`. -/
def HoldsAt (slots : List (ρ × ℕ)) (m : Mem) (a : ℕ) (v : ρ → BitVec 64) : Prop :=
  ∀ x ∈ slots, m.load64 (a + x.2) = (v x.1).toNat

variable {size a : ℕ} {slots : List (ρ × ℕ)} {m : Machine ρ} {mem mem' : Mem} {base : ρ}
  {v : ρ → BitVec 64}

omit [DecidableEq ρ] in
theorem HoldsAt.agree (h : HoldsAt slots mem a v) (hsize : ∀ x ∈ slots, x.2 + 8 ≤ size)
    (hm : mem.AgreeOn mem' a size) : HoldsAt slots mem' a v := by
  intro x hx
  rw [(hm.mono (Nat.le_add_right a x.2) (by have := hsize x hx; omega)).load64_eq]
  exact h x hx

omit [DecidableEq ρ] in
/-- An address of the block. -/
theorem addr_eq {off : ℕ} (ha : (m.regs base).toNat = a) (hwrap : a + size ≤ 2 ^ 64)
    (hoff : off + 8 ≤ size) : (m.regs base + BitVec.ofNat 64 off).toNat = a + off := by
  rw [BitVec.toNat_add, BitVec.toNat_ofNat, ha]
  omega

/-- **Saving** writes the registers to the block, and nothing else. -/
theorem run_saveCode (hasc : slots.Pairwise fun x y => x.2 + 8 ≤ y.2)
    (hsize : ∀ x ∈ slots, x.2 + 8 ≤ size) (ha : (m.regs base).toNat = a)
    (hwrap : a + size ≤ 2 ^ 64) :
    (m.run (saveCode base slots)).regs = m.regs ∧
      HoldsAt slots (m.run (saveCode base slots)).mem a m.regs ∧
      ∀ y, (∀ x ∈ slots, y < a + x.2 ∨ a + x.2 + 8 ≤ y) →
        (m.run (saveCode base slots)).mem y = m.mem y := by
  induction slots generalizing m with
  | nil => exact ⟨rfl, by simp [HoldsAt], fun _ _ => rfl⟩
  | cons x slots ih =>
    obtain ⟨hx, hsize⟩ := List.forall_mem_cons.mp hsize
    obtain ⟨hlt, hasc⟩ := List.pairwise_cons.mp hasc
    have hmem : (m.exec (.sd x.1 x.2 base)).mem = m.mem.store64 (a + x.2) (m.regs x.1).toNat := by
      rw [Machine.exec, addr_eq ha hwrap hx]
    obtain ⟨hregs, hheld, hrest⟩ := ih (m := m.exec (.sd x.1 x.2 base)) hasc hsize ha
    refine ⟨hregs, List.forall_mem_cons.mpr ⟨?_, hheld⟩, fun y hy => ?_⟩
    · -- the stores that follow go to higher addresses
      have hword : Mem.AgreeOn (m.exec (.sd x.1 x.2 base)).mem
          (m.run (saveCode base (x :: slots))).mem (a + x.2) 8 := by
        intro k hk
        refine hrest _ fun z hz => .inl ?_
        have := hlt z hz
        omega
      rw [hword.load64_eq, hmem, Mem.load64_store64 (BitVec.isLt _)]
    · obtain ⟨hyx, hy⟩ := List.forall_mem_cons.mp hy
      refine (hrest y hy).trans ?_
      rw [hmem, Mem.store64]
      rcases hyx with hyx | hyx
      · exact Mem.writeBytes_of_lt hyx
      · exact Mem.writeBytes_of_ge (by rwa [length_leBytes])

/-- **Restoring** reads back what the block holds. -/
theorem run_restoreCode (hbase : base ∉ slots.map Prod.fst)
    (hnodup : (slots.map Prod.fst).Nodup) (hsize : ∀ x ∈ slots, x.2 + 8 ≤ size)
    (ha : (m.regs base).toNat = a) (hwrap : a + size ≤ 2 ^ 64) (hheld : HoldsAt slots m.mem a v) :
    (m.run (restoreCode base slots)).mem = m.mem ∧
      (∀ x ∈ slots, (m.run (restoreCode base slots)).regs x.1 = v x.1) ∧
      ∀ r, r ∉ slots.map Prod.fst → (m.run (restoreCode base slots)).regs r = m.regs r := by
  induction slots generalizing m with
  | nil => exact ⟨rfl, by simp, fun _ _ => rfl⟩
  | cons x slots ih =>
    obtain ⟨hx, hsize⟩ := List.forall_mem_cons.mp hsize
    obtain ⟨hxv, hheld⟩ := List.forall_mem_cons.mp hheld
    rw [List.map_cons, List.mem_cons, not_or] at hbase
    rw [List.map_cons, List.nodup_cons] at hnodup
    have hregs : (m.exec (.ld x.1 x.2 base)).regs = Function.update m.regs x.1 (v x.1) := by
      rw [Machine.exec, addr_eq ha hwrap hx, hxv, BitVec.ofNat_toNat, BitVec.setWidth_eq]
    have ha' : ((m.exec (.ld x.1 x.2 base)).regs base).toNat = a := by
      rw [hregs, Function.update_of_ne hbase.1, ha]
    obtain ⟨hmem, hset, hrest⟩ := ih (m := m.exec (.ld x.1 x.2 base)) hbase.2 hnodup.2 hsize ha'
      hheld
    refine ⟨hmem, List.forall_mem_cons.mpr ⟨?_, hset⟩, fun r hr => ?_⟩
    · refine (hrest x.1 hnodup.1).trans ?_
      rw [hregs, Function.update_self]
    · rw [List.map_cons, List.mem_cons, not_or] at hr
      refine (hrest r hr.2).trans ?_
      rw [hregs, Function.update_of_ne hr.1]

namespace RegFrame

variable (f : RegFrame ρ size)

/-- Saves the registers. -/
def save (base : ρ) : List (Asm ρ) := saveCode base f.slots

/-- Restores the registers. -/
def restore (base : ρ) : List (Asm ρ) := restoreCode base f.slots

/-- The registers of the layout. -/
def regs : List ρ := f.slots.map Prod.fst

/-- The block at `a` holds the registers `v`. -/
def Holds (m : Mem) (a : ℕ) (v : ρ → BitVec 64) : Prop := HoldsAt f.slots m a v

variable {f}

omit [DecidableEq ρ] in
theorem Holds.agree (h : f.Holds mem a v) (hm : mem.AgreeOn mem' a size) : f.Holds mem' a v :=
  HoldsAt.agree h f.within hm

omit [DecidableEq ρ] in
/-- Only the registers of the layout matter. -/
theorem Holds.congr {w : ρ → BitVec 64} (h : f.Holds mem a v) (hw : ∀ r ∈ f.regs, w r = v r) :
    f.Holds mem a w := by
  intro x hx
  rw [hw x.1 (List.mem_map_of_mem hx)]
  exact h x hx

theorem run_save (ha : (m.regs base).toNat = a) (hwrap : a + size ≤ 2 ^ 64) :
    (m.run (f.save base)).regs = m.regs ∧ f.Holds (m.run (f.save base)).mem a m.regs ∧
      ∀ y, y < a ∨ a + size ≤ y → (m.run (f.save base)).mem y = m.mem y := by
  obtain ⟨hregs, hheld, hrest⟩ := run_saveCode f.ascending f.within ha hwrap
  refine ⟨hregs, hheld, fun y hy => hrest y fun x hx => ?_⟩
  have := f.within x hx
  omega

theorem run_restore (hbase : base ∉ f.regs) (ha : (m.regs base).toNat = a)
    (hwrap : a + size ≤ 2 ^ 64) (hheld : f.Holds m.mem a v) :
    (m.run (f.restore base)).mem = m.mem ∧
      (∀ r ∈ f.regs, (m.run (f.restore base)).regs r = v r) ∧
      ∀ r, r ∉ f.regs → (m.run (f.restore base)).regs r = m.regs r := by
  obtain ⟨hmem, hset, hrest⟩ := run_restoreCode hbase f.nodup f.within ha hwrap hheld
  refine ⟨hmem, fun r hr => ?_, hrest⟩
  obtain ⟨x, hx, rfl⟩ := List.mem_map.mp hr
  exact hset x hx

end RegFrame

/-! ### Interrupts -/

section Interrupts

variable (D : Set ℕ)

/-- The same registers, and the same bytes in `D`. -/
structure Machine.Agree (m m' : Machine ρ) : Prop where
  regs : m'.regs = m.regs
  mem : ∀ y ∈ D, m'.mem y = m.mem y

/-- The accesses of an instruction are in `D`. -/
def Asm.Within (m : Machine ρ) : Asm ρ → Prop
  | .sd _ off base => ∀ k < 8, (m.regs base + BitVec.ofNat 64 off).toNat + k ∈ D
  | .ld _ off base => ∀ k < 8, (m.regs base + BitVec.ofNat 64 off).toNat + k ∈ D
  | .addi _ _ _ => True

variable {κ : Type}

/-- Code whose steps depend on the registers and the bytes in `D` only. A step goes from a place `κ`
of the code to another one; from machines that agree it goes to the same place, and to machines
that agree. -/
def Respects (step : κ × Machine ρ → κ × Machine ρ → Prop) : Prop :=
  ∀ ⦃k m m₁ y⦄, m.Agree D m₁ → step (k, m₁) y → ∃ m', step (k, m) (y.1, m') ∧ m'.Agree D y.2

/-- A step of the code, or a call of a handler. -/
def Interleaved (step : κ × Machine ρ → κ × Machine ρ → Prop)
    (handler : Machine ρ → Machine ρ → Prop) (x y : κ × Machine ρ) : Prop :=
  step x y ∨ y.1 = x.1 ∧ handler x.2 y.2

/-- A step of code made of instructions that access bytes in `D` only. At every place there is an
instruction, with where the code goes on; it may look at the registers for that. -/
def Asm.Step (code : κ → Option (Asm ρ × ((ρ → BitVec 64) → κ))) (x y : κ × Machine ρ) : Prop :=
  ∃ i next, code x.1 = some (i, next) ∧ i.Within D x.2 ∧
    y = (next (x.2.exec i).regs, x.2.exec i)

variable {D} {step : κ × Machine ρ → κ × Machine ρ → Prop} {P : (ρ → BitVec 64) → Prop}
  {handler : Machine ρ → Machine ρ → Prop} {m₁ m₂ m' : Machine ρ} {i : Asm ρ}

omit [DecidableEq ρ] in
theorem Machine.Agree.refl (m : Machine ρ) : m.Agree D m := ⟨rfl, fun _ _ => rfl⟩

omit [DecidableEq ρ] in
theorem Machine.Agree.trans (h : m.Agree D m₁) (h' : m₁.Agree D m₂) : m.Agree D m₂ :=
  ⟨h'.regs.trans h.regs, fun y hy => (h'.mem y hy).trans (h.mem y hy)⟩

omit [DecidableEq ρ] in
/-- The addresses of an instruction come from the registers. -/
theorem Machine.Agree.within (h : m.Agree D m₁) (hi : i.Within D m₁) : i.Within D m := by
  cases i with
  | sd rs off base =>
    intro k hk
    rw [← h.regs]
    exact hi k hk
  | ld rd off base =>
    intro k hk
    rw [← h.regs]
    exact hi k hk
  | addi rd rs imm => trivial

/-- An instruction within `D` does the same on both. -/
theorem Machine.Agree.exec (h : m.Agree D m₁) (hi : i.Within D m) :
    (m.exec i).Agree D (m₁.exec i) := by
  cases i with
  | sd rs off base =>
    refine ⟨h.regs, fun y hy => ?_⟩
    simp only [Machine.exec, h.regs, Mem.store64]
    exact Mem.writeBytes_congr (h.mem y hy)
  | ld rd off base =>
    refine ⟨?_, h.mem⟩
    have hload : m₁.mem.load64 (m.regs base + BitVec.ofNat 64 off).toNat =
        m.mem.load64 (m.regs base + BitVec.ofNat 64 off).toNat :=
      Mem.AgreeOn.load64_eq fun k hk => h.mem _ (hi k hk)
    simp only [Machine.exec, h.regs, hload]
  | addi rd rs imm => exact ⟨by simp only [Machine.exec, h.regs], h.mem⟩

theorem Asm.respects_step (code : κ → Option (Asm ρ × ((ρ → BitVec 64) → κ))) :
    Respects D (Asm.Step D code) := by
  rintro k m m₁ _ hm ⟨i, next, hcode, hi, rfl⟩
  have hexec := hm.exec (hm.within hi)
  refine ⟨m.exec i, ⟨i, next, hcode, hm.within hi, ?_⟩, hexec⟩
  rw [← hexec.regs]

omit [DecidableEq ρ] in
/-- **Interrupts are transparent** to code that depends on the bytes in `D` only, if the handler
leaves these bytes and the registers alone: the code comes to the same places with the same
registers and the same bytes in `D` as without interrupts. -/
theorem Respects.transparent {x y : κ × Machine ρ} (hcode : Respects D step)
    (hP : ∀ y, Relation.ReflTransGen step x y → P y.2.regs)
    (hhandler : ∀ m m', P m.regs → handler m m' → m.Agree D m')
    (h : Relation.ReflTransGen (Interleaved step handler) x y) :
    ∃ m', Relation.ReflTransGen step x (y.1, m') ∧ m'.Agree D y.2 := by
  induction h with
  | refl => exact ⟨x.2, .refl, .refl _⟩
  | @tail y z _ hyz ih =>
    obtain ⟨m', hrun, hagree⟩ := ih
    rcases hyz with hstep | ⟨hplace, hirq⟩
    · obtain ⟨m'', hstep', hagree'⟩ := hcode hagree hstep
      exact ⟨m'', hrun.tail hstep', hagree'⟩
    · have hroom : P y.2.regs := by
        rw [hagree.regs]
        exact hP _ hrun
      rw [hplace]
      exact ⟨m', hrun, hagree.trans (hhandler _ _ hroom hirq)⟩

end Interrupts

/-! ### Coroutines -/

/-- The blocks in which the threads `ι` keep their registers while they do not run. -/
structure ContextAreas (ι : Type) (size : ℕ) where
  addr : ι → ℕ
  bound : ∀ o, addr o + size ≤ 2 ^ 64
  disjoint : ∀ o o', o ≠ o' → addr o + size ≤ addr o' ∨ addr o' + size ≤ addr o

/-- The abstract view of a switch: where every thread goes on that does not run. -/
structure Coroutines (ι κ : Type) where
  current : ι
  context : ι → Option κ

variable {ι κ : Type} [DecidableEq ι]

/-- The current thread is to go on at `k`, and `o` goes on where it stopped. -/
def Coroutines.switch (c : Coroutines ι κ) (k : κ) (o : ι) : Coroutines ι κ where
  current := o
  context := Function.update c.context c.current (some k)

theorem Coroutines.switch_context_self (c : Coroutines ι κ) (k : κ) (o : ι) :
    (c.switch k o).context c.current = some k := Function.update_self ..

theorem Coroutines.switch_context_ne (c : Coroutines ι κ) (k : κ) (o : ι) {o' : ι}
    (h : o' ≠ c.current) : (c.switch k o).context o' = c.context o' := Function.update_of_ne h ..

/-- The blocks of the threads can hold any registers. -/
theorem ContextAreas.exists_holds (f : RegFrame ρ size) (A : ContextAreas ι size)
    (hbase : base ∉ f.regs) (hsize : 0 < size) (w : ι → ρ → BitVec 64) (os : List ι) :
    ∃ mem, ∀ o ∈ os, f.Holds mem (A.addr o) (w o) := by
  induction os with
  | nil => exact ⟨fun _ => 0, by simp⟩
  | cons o os ih =>
    obtain ⟨mem, hmem⟩ := ih
    -- a machine with the registers of `o` saves them
    obtain ⟨m, hregs, hm, ha⟩ : ∃ m : Machine ρ, (∀ r ∈ f.regs, m.regs r = w o r) ∧ m.mem = mem ∧
        (m.regs base).toNat = A.addr o := by
      refine ⟨⟨Function.update (w o) base (BitVec.ofNat 64 (A.addr o)), mem⟩, ?_, rfl, ?_⟩
      · intro r hr
        refine Function.update_of_ne ?_ ..
        rintro rfl
        exact hbase hr
      · have := A.bound o
        show (Function.update (w o) base (BitVec.ofNat 64 (A.addr o)) base).toNat = A.addr o
        rw [Function.update_self, BitVec.toNat_ofNat, Nat.mod_eq_of_lt (by omega)]
    obtain ⟨-, hheld, hrest⟩ := f.run_save ha (A.bound o)
    have hself : f.Holds (m.run (f.save base)).mem (A.addr o) (w o) :=
      hheld.congr fun r hr => (hregs r hr).symm
    refine ⟨(m.run (f.save base)).mem, List.forall_mem_cons.mpr ⟨hself, fun o' ho' => ?_⟩⟩
    by_cases heq : o' = o
    · rw [heq]
      exact hself
    · refine (hmem o' ho').agree fun i hi => ?_
      have := A.disjoint o' o heq
      rw [hrest _ (by omega), hm]

section Refinement

variable (f : RegFrame ρ size) (A : ContextAreas ι size) (enc : κ → ρ → BitVec 64)

/-- The blocks of the threads that do not run hold the registers with which they go on. -/
def Coroutines.Refined (c : Coroutines ι κ) (m : Machine ρ) : Prop :=
  ∀ o k, o ≠ c.current → c.context o = some k → f.Holds m.mem (A.addr o) (enc k)

variable {f A enc} {c : Coroutines ι κ} {k k' : κ} {o : ι} {old new : ρ}

/-- **A switch** that saves to the block of the current thread and restores from that of another
one: the other thread goes on where it stopped. -/
theorem Coroutines.Refined.switch (h : c.Refined f A enc m) (ho : o ≠ c.current)
    (hk' : c.context o = some k') (hk : ∀ r ∈ f.regs, m.regs r = enc k r)
    (hold : (m.regs old).toNat = A.addr c.current) (hnew : (m.regs new).toNat = A.addr o)
    (hnew' : new ∉ f.regs) :
    (c.switch k o).Refined f A enc (m.run (f.save old ++ f.restore new)) ∧
      (∀ r ∈ f.regs, (m.run (f.save old ++ f.restore new)).regs r = enc k' r) ∧
      ∀ r, r ∉ f.regs → (m.run (f.save old ++ f.restore new)).regs r = m.regs r := by
  obtain ⟨hregs, hheld, hrest⟩ := f.run_save hold (A.bound c.current)
  have hkept : ∀ {o' k}, o' ≠ c.current → c.context o' = some k →
      f.Holds (m.run (f.save old)).mem (A.addr o') (enc k) := by
    intro o' k ho' hk
    refine (h o' k ho' hk).agree fun i hi => hrest _ ?_
    have := A.disjoint o' c.current ho'
    omega
  have hnew₁ : ((m.run (f.save old)).regs new).toNat = A.addr o := by rw [hregs, hnew]
  obtain ⟨hmem, hset, hothers⟩ := f.run_restore hnew' hnew₁ (A.bound o) (hkept ho hk')
  rw [Machine.run_append]
  refine ⟨fun o' k₁ ho' hk₁ => ?_, hset, fun r hr => (hothers r hr).trans (congrFun hregs r)⟩
  rw [hmem]
  by_cases hcur : o' = c.current
  · rw [hcur, c.switch_context_self, Option.some.injEq] at hk₁
    rw [hcur, ← hk₁]
    exact hheld.congr fun r hr => (hk r hr).symm
  · rw [c.switch_context_ne k o hcur] at hk₁
    exact hkept hcur hk₁

end Refinement

end OsKernel
