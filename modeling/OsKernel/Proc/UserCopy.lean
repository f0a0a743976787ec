import OsKernel.Kernel.Invariant

/-!
# Copies between the kernel and the running process

`copyout`, `copyin` and `copyinstr` with the page table of the running process, on data
structures that satisfy the invariant: they return, they change at most user pages of that process,
and so the invariant and everything that belongs to other processes stay.
-/

namespace OsKernel

variable {L : Layout} {S : Site} {c : Core} {p : Slot}

theorem Good.shape (hg : Good L S c) (hp : c.cproc = some p) :
    UserShape L c.vm.mem (c.procs p).pagetable (c.procs p).sz (c.procs p).trapframe := by
  obtain ⟨o, hsp⟩ := hg.spaces
  exact (hsp.owned p _ (hg.spaces_running hp)).shape

/-- What a process may access are its pages below `sz`. -/
theorem Good.writable (hg : Good L S c) (hp : c.cproc = some p) {va : ℕ}
    (hva : va / 4096 * 4096 < (c.procs p).sz) :
    c.vm.mem.Writable (c.procs p).pagetable va := (hg.shape hp).writable hva

theorem Good.of_readable (hg : Good L S c) (hp : c.cproc = some p) {va : ℕ}
    (hva : c.vm.mem.Readable (c.procs p).pagetable va) : va / 4096 * 4096 < (c.procs p).sz :=
  (hg.shape hp).of_readable hva

theorem Good.size_le (hg : Good L S c) (hp : c.cproc = some p) : (c.procs p).sz ≤ 2 ^ 38 :=
  (hg.shape hp).size_le

/-- The running process has got other contents in its user pages, and nothing else has changed. -/
structure Copied (L : Layout) (S : Site) (p : Slot) (c : Core) (v : Vm) : Prop where
  good : Good L S (c.setVm v)
  kept : Kept (Function.update c.spaces p none) c.vm v
  frame : Mem.AgreeOn c.vm.mem v.mem (c.procs p).trapframe 4096

/-- The other processes do not notice. -/
theorem Copied.spares {v : Vm} (h : Copied L S p c v) : Spares (· = p) c (c.setVm v) :=
  h.kept.spares fun _ _ => rfl

/-- Copies to user memory do not touch the trapframe. -/
theorem Working.copied {v : Vm} (hw : Working p c) (hc : Copied L S p c v) :
    Working p (c.setVm v) :=
  ⟨⟨hw.cproc, fun x hx => (hw.frame x hx).congr hc.frame, hw.complete⟩, hw.chan⟩

/-- **`copyout`** of a variable of the kernel to the running process. -/
theorem Good.copyout (hg : Good L S c) (hp : c.cproc = some p) (dst : ℕ) (bytes : List UInt8) :
    (Vm.copyout L (c.procs p).pagetable dst (.buffer bytes) bytes.length).Returns c.vm fun ok v =>
      Copied L S p c v ∧
      (ok = true ↔ ∀ k, k < bytes.length → c.vm.mem.Writable (c.procs p).pagetable (dst + k)) ∧
      (ok = true → v.mem.userBytes (c.procs p).pagetable dst bytes.length = bytes) := by
  obtain ⟨o, hsp⟩ := hg.spaces
  have hspace := hg.spaces_running hp
  have hroot := (hsp.owned p _ hspace).root
  refine (copyout_spec hsp.inv hroot (.buffer bytes) dst bytes.length).mono ?_
  rintro ok v ⟨m', n, rfl, hc⟩
  have hwrite := hc.userWrite hsp.inv.tables hroot
  obtain ⟨hsp', hkept, hframe⟩ := hsp.procWrite hspace hwrite
  obtain ⟨-, -, hentry⟩ := hsp.inv.userWrite hwrite
  refine ⟨⟨hg.setVm hp hkept ⟨o, hsp'⟩, hkept, hframe⟩, ?_, fun hok => ?_⟩
  · rw [hc.ok_iff]
    constructor
    · rintro rfl
      exact hc.writable
    · intro hall
      by_contra hne
      have hlt := lt_of_le_of_ne hc.le hne
      exact hc.stop hlt (hall n hlt)
  · obtain rfl := hc.ok_iff.mp hok
    refine List.ext_getElem? fun k => ?_
    by_cases hk : k < bytes.length
    · have hread := (hc.writable k hk).1
      have hbyte := hc.bytes (Nat.zero_add _).le k hk
      have hphys : m'.phys (c.procs p).pagetable (dst + k) =
          c.vm.mem.phys (c.procs p).pagetable (dst + k) :=
        congrArg (pte2pa · + (dst + k) % 4096) (hentry _ _ hroot (by have := hread.1; omega))
      rw [Mem.userBytes, List.getElem?_map, List.getElem?_range hk, Option.map_some,
        List.getElem?_eq_getElem hk]
      refine congrArg some ((congrArg m' hphys).trans (hbyte.trans ?_))
      simp [Vm.Source.byte, hk]
    · rw [List.getElem?_eq_none (by simpa [Mem.userBytes] using hk),
        List.getElem?_eq_none (by simpa using hk)]

/-- **`copyin`** from the running process. -/
theorem Good.copyin (hg : Good L S c) (hp : c.cproc = some p) (src len : ℕ) :
    (Vm.copyin L (c.procs p).pagetable src len).Returns c.vm fun res v => v = c.vm ∧
      ∀ bytes, res = some bytes →
        (∀ k, k < len → c.vm.mem.Readable (c.procs p).pagetable (src + k)) ∧
        bytes = c.vm.mem.userBytes (c.procs p).pagetable src len := by
  obtain ⟨o, hsp⟩ := hg.spaces
  refine (copyin_spec hsp.inv.tables (hsp.owned p _ (hg.spaces_running hp)).root src len).mono ?_
  rintro res v ⟨rfl, ⟨hall, rfl⟩ | ⟨-, rfl⟩⟩
  · exact ⟨rfl, fun bytes hb => ⟨hall, (Option.some.inj hb).symm⟩⟩
  · exact ⟨rfl, fun bytes hb => by cases hb⟩

/-- **`copyinstr`** from the running process. -/
theorem Good.copyinstr (hg : Good L S c) (hp : c.cproc = some p) (src max : ℕ) :
    (Vm.copyinstr L (c.procs p).pagetable src max).Returns c.vm fun res v => v = c.vm ∧
      ∀ str, res = some str → (0 : UInt8) ∉ str := by
  obtain ⟨o, hsp⟩ := hg.spaces
  refine (copyinstr_spec hsp.inv.tables (hsp.owned p _ (hg.spaces_running hp)).root src max).mono ?_
  rintro res v ⟨rfl, hres⟩
  exact ⟨rfl, fun str hstr => (hres str hstr).2⟩

end OsKernel
