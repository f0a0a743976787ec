import OsKernel.Proc.Code

/-!
# `trampoline.S`: between user mode and the kernel

`uservec` and `userret` as lists of instructions, with the registers and offsets of the
assembly text, and a machine that executes them. An address is translated by the page table
`satp` selects, for supervisor mode: the page must be mapped, must not be a user page, and
must allow the access. Writing `satp` changes the page table under the instructions
themselves, so the trampoline has to be mapped at the same address in the new one.
-/

namespace OsKernel

/-- The instructions of the trampoline. -/
inductive Instr where
  | csrwSscratch (rs : Reg)
  | csrrSscratch (rd : Reg)
  /-- `li rd, TRAPFRAME`. -/
  | liTrapframe (rd : Reg)
  | sd (rs : Reg) (off : ℕ) (base : Reg)
  | ld (rd : Reg) (off : ℕ) (base : Reg)
  | csrwSatp (rs : Reg)
  /-- `sfence.vma` and `fence.i`. -/
  | fence
  deriving DecidableEq, Repr

/-- `uservec` up to `jalr t0`. -/
def uservec : List Instr :=
  [.csrwSscratch .a0, .liTrapframe .a0,
    .sd .ra 40 .a0, .sd .sp 48 .a0, .sd .gp 56 .a0, .sd .tp 64 .a0, .sd .t0 72 .a0,
    .sd .t1 80 .a0, .sd .t2 88 .a0, .sd .s0 96 .a0, .sd .s1 104 .a0, .sd .a1 120 .a0,
    .sd .a2 128 .a0, .sd .a3 136 .a0, .sd .a4 144 .a0, .sd .a5 152 .a0, .sd .a6 160 .a0,
    .sd .a7 168 .a0, .sd .s2 176 .a0, .sd .s3 184 .a0, .sd .s4 192 .a0, .sd .s5 200 .a0,
    .sd .s6 208 .a0, .sd .s7 216 .a0, .sd .s8 224 .a0, .sd .s9 232 .a0, .sd .s10 240 .a0,
    .sd .s11 248 .a0, .sd .t3 256 .a0, .sd .t4 264 .a0, .sd .t5 272 .a0, .sd .t6 280 .a0,
    .csrrSscratch .t0, .sd .t0 112 .a0,
    .ld .sp 8 .a0, .ld .tp 32 .a0, .ld .t0 16 .a0, .ld .t1 0 .a0,
    .fence, .csrwSatp .t1, .fence]

/-- `userret` up to `sret`. -/
def userret : List Instr :=
  [.fence, .fence, .csrwSatp .a0, .fence, .liTrapframe .a0,
    .ld .ra 40 .a0, .ld .sp 48 .a0, .ld .gp 56 .a0, .ld .tp 64 .a0, .ld .t0 72 .a0,
    .ld .t1 80 .a0, .ld .t2 88 .a0, .ld .s0 96 .a0, .ld .s1 104 .a0, .ld .a1 120 .a0,
    .ld .a2 128 .a0, .ld .a3 136 .a0, .ld .a4 144 .a0, .ld .a5 152 .a0, .ld .a6 160 .a0,
    .ld .a7 168 .a0, .ld .s2 176 .a0, .ld .s3 184 .a0, .ld .s4 192 .a0, .ld .s5 200 .a0,
    .ld .s6 208 .a0, .ld .s7 216 .a0, .ld .s8 224 .a0, .ld .s9 232 .a0, .ld .s10 240 .a0,
    .ld .s11 248 .a0, .ld .t3 256 .a0, .ld .t4 264 .a0, .ld .t5 272 .a0, .ld .t6 280 .a0,
    .ld .a0 112 .a0]

/-- `MAKE_SATP` as the hart holds it. -/
def satpOf (pagetable : ℕ) : BitVec 64 := BitVec.ofNat 64 (makeSatp pagetable)

/-- The root page table an Sv39 `satp` selects. -/
def satpRoot (satp : BitVec 64) : ℕ := satp.toNat % 2 ^ 44 * 4096

/-- The physical address of a virtual address for an access by the supervisor that needs the
flag `need`. -/
def translate (m : Mem) (satp : BitVec 64) (va need : ℕ) : Option ℕ :=
  let e := m.entry (satpRoot satp) (va / pgsize)
  if satp.toNat / 2 ^ 60 = 8 ∧ va < maxva ∧ e &&& pteV ≠ 0 ∧ e &&& pteU = 0 ∧ e &&& need ≠ 0 then
    some (pte2pa e + va % pgsize)
  else none

/-- Assignment to a register. -/
def Hart.setReg (h : Hart) (r : Reg) (v : BitVec 64) : Hart :=
  { h with regs := Function.update h.regs r v }

/-- One instruction. A page fault in the trampoline is not handled. -/
def Instr.exec (L : Layout) : Instr → K → Except Panic K
  | .csrwSscratch rs, s => .ok { s with hart := { s.hart with sscratch := s.hart.regs rs } }
  | .csrrSscratch rd, s => .ok { s with hart := s.hart.setReg rd s.hart.sscratch }
  | .liTrapframe rd, s => .ok { s with hart := s.hart.setReg rd (BitVec.ofNat 64 trapframeVa) }
  | .sd rs off base, s =>
    match translate s.core.vm.mem s.hart.satp
      (s.hart.regs base + BitVec.ofNat 64 off).toNat pteW with
    | some pa =>
      .ok { s with core := s.core.setMem (s.core.vm.mem.store64 pa (s.hart.regs rs).toNat) }
    | none => .error .fault
  | .ld rd off base, s =>
    match translate s.core.vm.mem s.hart.satp
      (s.hart.regs base + BitVec.ofNat 64 off).toNat pteR with
    | some pa =>
      .ok { s with hart := s.hart.setReg rd (BitVec.ofNat 64 (s.core.vm.mem.load64 pa)) }
    | none => .error .fault
  | .csrwSatp rs, s =>
    if translate s.core.vm.mem (s.hart.regs rs) trampolineVa pteX = some L.trampoline then
      .ok { s with hart := { s.hart with satp := s.hart.regs rs } }
    else .error .fault
  | .fence, s => .ok s

/-- A sequence of instructions. -/
def execAll (L : Layout) : List Instr → K → Except Panic K
  | [], s => .ok s
  | i :: is, s =>
    match i.exec L s with
    | .ok s => execAll L is s
    | .error e => .error e

/-- Instructions that run with interrupts off, as one step of a program. -/
def trampolineCode (L : Layout) (is : List Instr) : PanicM K Panic Unit := fun s =>
  match execAll L is s with
  | .ok t => .ok ((), t)
  | .error e => .error e

/-- `sret`. -/
def Hart.sret (h : Hart) : Hart :=
  { h with sie := h.spie, supervisor := h.spp, spie := true, spp := false, pc := h.sepc }

end OsKernel
