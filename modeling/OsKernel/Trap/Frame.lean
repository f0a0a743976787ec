import OsKernel.Kernel.Labels

/-!
# Trapframes

The kernel reads and writes the trapframe of the running process field by field. The fields lie
apart from each other and in a page that belongs to the process alone, so an assignment changes
one field, keeps the invariant and concerns no other process.
-/

namespace OsKernel

/-! ### The fields -/

theorem Reg.offset_eq (r : Reg) : r.offset = 40 + 8 * r.ctorIdx := by cases r <;> rfl

theorem Reg.ctorIdx_lt (r : Reg) : r.ctorIdx < 31 := by cases r <;> decide

theorem Reg.offset_le (r : Reg) : 40 ≤ r.offset ∧ r.offset + 8 ≤ tfSize := by
  have := r.ctorIdx_lt
  rw [r.offset_eq, tfSize]
  omega

/-- The fields of two registers lie apart. -/
theorem Reg.offset_apart {r q : Reg} (h : r ≠ q) :
    r.offset + 8 ≤ q.offset ∨ q.offset + 8 ≤ r.offset := by
  have hne : r.ctorIdx ≠ q.ctorIdx := fun he => h (by
    rw [← Reg.ofNat_ctorIdx r, he, Reg.ofNat_ctorIdx])
  rw [r.offset_eq, q.offset_eq]
  omega

variable {L : Layout} {S : Site} {c c' : Core} {p i : Slot} {k j : ℕ} {v : BitVec 64}

namespace Core

@[simp] theorem tfLoad_tfStore (c : Core) (p : Slot) (k : ℕ) (v : BitVec 64) :
    (c.tfStore p k v).tfLoad p k = v := by
  show BitVec.ofNat 64 ((c.vm.mem.store64 ((c.procs p).trapframe + k) v.toNat).load64
    ((c.procs p).trapframe + k)) = v
  rw [Mem.load64_store64 v.isLt, BitVec.ofNat_toNat, BitVec.setWidth_eq]

theorem tfLoad_tfStore_of_apart (c : Core) (p : Slot) (v : BitVec 64)
    (h : k + 8 ≤ j ∨ j + 8 ≤ k) : (c.tfStore p k v).tfLoad p j = c.tfLoad p j := by
  show BitVec.ofNat 64 ((c.vm.mem.store64 ((c.procs p).trapframe + k) v.toNat).load64
    ((c.procs p).trapframe + j)) = _
  rw [Mem.load64_store64_of_disjoint (by omega), tfLoad]

end Core

/-! ### The invariant -/

/-- The running process changes its trapframe. -/
theorem Good.setFrame {m : Mem} (hg : Good L S c) (hp : c.cproc = some p)
    (hm : ∀ a, a / 4096 * 4096 ≠ (c.procs p).trapframe → m a = c.vm.mem a) :
    Good L S (c.setMem m) ∧ Spares (· = p) c (c.setMem m) := by
  obtain ⟨o, hsp⟩ := hg.spaces
  obtain ⟨hsp', hkept, -⟩ := hsp.frameWrite (hg.spaces_running hp) hm
  exact ⟨hg.setVm hp hkept ⟨o, hsp'⟩, hkept.spares fun _ _ => rfl⟩

theorem Good.trapframe_lt (hg : Good L S c) (hp : c.cproc = some p) :
    4096 ∣ (c.procs p).trapframe ∧ (c.procs p).trapframe < L.phystop := by
  obtain ⟨o, hsp⟩ := hg.spaces
  obtain ⟨hd, -, hlt⟩ := hsp.trapframe_lt (hg.spaces_running hp)
  exact ⟨hd, hlt⟩

/-- A store to the page `tf` at an offset. -/
theorem Mem.store64_of_page_ne {m : Mem} {tf a w : ℕ} (hd : 4096 ∣ tf) (hoff : k + 8 ≤ 4096)
    (ha : a / 4096 * 4096 ≠ tf) : m.store64 (tf + k) w a = m a :=
  Mem.agreeOn_store64 (n := 1) (b := a) (by omega) 0 Nat.one_pos

theorem Good.tfStore (hg : Good L S c) (hp : c.cproc = some p) (hoff : k + 8 ≤ 4096)
    (v : BitVec 64) : Good L S (c.tfStore p k v) ∧ Spares (· = p) c (c.tfStore p k v) :=
  hg.setFrame hp fun _ ha => Mem.store64_of_page_ne (hg.trapframe_lt hp).1 hoff ha

/-- What the log says the registers are, field by field. -/
theorem framed_iff {x : Ctx} : Framed c.vm.mem (c.procs p).trapframe x ↔
    (∀ r : Reg, c.tfLoad p r.offset = x.regs r) ∧ c.tfLoad p tfEpc = x.pc :=
  ⟨fun h => ⟨h.regs, h.pc⟩, fun h => ⟨h.1, h.2⟩⟩

/-- An assignment to a field of the trapframe that user mode does not see. -/
theorem Working.tfStore (hw : Working p c) (hoff : k + 8 ≤ tfEpc ∨ tfEpc + 8 ≤ k ∧ k + 8 ≤ 40)
    (v : BitVec 64) : Working p (c.tfStore p k v) := by
  refine ⟨⟨hw.cproc, fun x hx => ?_, hw.complete⟩, hw.chan⟩
  obtain ⟨hregs, hpc⟩ := framed_iff.mp (hw.frame x hx)
  refine framed_iff.mpr ⟨fun r => ?_, ?_⟩
  · have := r.offset_le.1
    rw [Core.tfLoad_tfStore_of_apart _ _ _ (by simp only [tfEpc] at hoff; omega), hregs]
  · rw [Core.tfLoad_tfStore_of_apart _ _ _ (by omega), hpc]

/-! ### The return value of a system call -/

/-- The last step of `syscall`. -/
theorem Framed.ret {x : Ctx} (h : Framed c.vm.mem (c.procs p).trapframe x) (v : BitVec 64) :
    Framed (c.tfStore p Reg.a0.offset v).vm.mem (c.procs p).trapframe (x.ret v) := by
  obtain ⟨hregs, hpc⟩ := framed_iff.mp h
  refine framed_iff (c := c.tfStore p Reg.a0.offset v).mpr ⟨fun r => ?_, ?_⟩
  · by_cases hr : r = .a0
    · rw [hr, Core.tfLoad_tfStore]
      exact (Function.update_self Reg.a0 v x.regs).symm
    · rw [Core.tfLoad_tfStore_of_apart _ _ _ (Reg.offset_apart (Ne.symm hr)), hregs]
      exact (Function.update_of_ne hr v x.regs).symm
  · rw [Core.tfLoad_tfStore_of_apart _ _ _ (.inr (by decide)), hpc]
    rfl

end OsKernel
