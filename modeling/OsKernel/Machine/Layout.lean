import Mathlib.Data.Nat.Bitwise

/-!
# Address space and page-table entries

The constants of `memlayout.h`, `param.h` and `riscv.h`, the symbols the linker script
exports, and the macros that take virtual addresses and page-table entries apart. Addresses
and entries are natural numbers below `2 ^ 64`; arithmetic that can wrap is reduced modulo
`2 ^ 64` where the code performs it.

`Layout` is what the kernel image fixes before the kernel runs. Its fields carry the facts
`kernel.ld` guarantees (the trampoline is a page of the text, the text ends on a page
boundary, the image is followed by free memory), so that no result has to assume them.
-/

namespace OsKernel

/-- Size of the range of 64-bit machine words. -/
def wordSize : ℕ := 2 ^ 64

/-- `PGSIZE`. -/
def pgsize : ℕ := 4096

/-- `NPROC`. -/
def nproc : ℕ := 64

/-- A slot of the process table. -/
abbrev Slot := Fin nproc

instance : NeZero nproc := ⟨by decide⟩

/-- `KERNBASE`. -/
def kernbase : ℕ := 0x80000000

/-- `UART0`. -/
def uart0 : ℕ := 0x10000000

/-- `PLIC`. -/
def plic : ℕ := 0x0c000000

/-- `MAXVA`: one beyond the highest virtual address. -/
def maxva : ℕ := 2 ^ 38

/-- `TRAMPOLINE`: the trampoline page is mapped at the highest address. -/
def trampolineVa : ℕ := maxva - pgsize

/-- `TRAPFRAME`: the trapframe page is mapped below it in every user page table. -/
def trapframeVa : ℕ := trampolineVa - pgsize

/-- `KSTACK(i)`: the kernel stack of a slot, with an unmapped page below it. -/
def kstackVa (i : Slot) : ℕ := trampolineVa - (i.val + 1) * 2 * pgsize

/-- `PGROUNDUP`. -/
def pgRoundUp (sz : ℕ) : ℕ := (sz + pgsize - 1) % wordSize / pgsize * pgsize

/-- `PGROUNDDOWN`. -/
def pgRoundDown (a : ℕ) : ℕ := a / pgsize * pgsize

/-! ### Page-table entries -/

def pteV : ℕ := 1
def pteR : ℕ := 2
def pteW : ℕ := 4
def pteX : ℕ := 8
def pteU : ℕ := 16

/-- `PA2PTE`. -/
def pa2pte (pa : ℕ) : ℕ := pa >>> 12 <<< 10

/-- `PTE2PA`. -/
def pte2pa (pte : ℕ) : ℕ := pte >>> 10 <<< 12 % wordSize

/-- `PTE_FLAGS`. -/
def pteFlags (pte : ℕ) : ℕ := pte &&& 0x3ff

/-- `PX`: the 9-bit index into the page table of a level. -/
def px (level va : ℕ) : ℕ := va >>> (12 + 9 * level) &&& 0x1ff

/-- `MAKE_SATP`. -/
def makeSatp (pagetable : ℕ) : ℕ := 8 <<< 60 ||| pagetable >>> 12

theorem pteFlags_eq (pte : ℕ) : pteFlags pte = pte % 1024 :=
  Nat.and_two_pow_sub_one_eq_mod pte 10

theorem pte2pa_eq (pte : ℕ) : pte2pa pte = pte / 1024 * 4096 % 2 ^ 64 := by
  simp [pte2pa, wordSize, Nat.shiftLeft_eq, Nat.shiftRight_eq_div_pow]

theorem px_eq (level va : ℕ) : px level va = va / 2 ^ (12 + 9 * level) % 512 := by
  rw [px, Nat.shiftRight_eq_div_pow]
  exact Nat.and_two_pow_sub_one_eq_mod _ 9

theorem px_lt (level va : ℕ) : px level va < 512 := by
  rw [px_eq]
  exact Nat.mod_lt _ (by decide)

/-- Setting flags in the low bits of an entry is adding them. -/
theorem pa2pte_or {pa perm : ℕ} (hperm : perm < 1024) :
    pa2pte pa ||| perm = pa / 4096 * 1024 + perm := by
  rw [pa2pte, ← Nat.shiftLeft_add_eq_or_of_lt (i := 10) (by simpa using hperm),
    Nat.shiftRight_eq_div_pow, Nat.shiftLeft_eq]

/-- The page an entry was built from. -/
theorem pte2pa_pa2pte_or {pa perm : ℕ} (hpa : 4096 ∣ pa) (hlt : pa < 2 ^ 64)
    (hperm : perm < 1024) : pte2pa (pa2pte pa ||| perm) = pa := by
  rw [pa2pte_or hperm, pte2pa_eq]
  omega

/-- The flags an entry was built with. -/
theorem pteFlags_pa2pte_or {pa perm : ℕ} (hperm : perm < 1024) :
    pteFlags (pa2pte pa ||| perm) = perm := by
  rw [pa2pte_or hperm, pteFlags_eq]
  omega

/-- A test for flags looks at the low ten bits only. -/
theorem and_eq_pteFlags_and {pte f : ℕ} (hf : f < 1024) : pte &&& f = pteFlags pte &&& f := by
  have h : 0x3ff &&& f = f := by
    rw [Nat.and_comm]
    exact (Nat.and_two_pow_sub_one_eq_mod f 10).trans (Nat.mod_eq_of_lt (by simpa using hf))
  rw [pteFlags, Nat.and_assoc, h]

theorem or_pteV_lt {perm : ℕ} (hperm : perm < 1024) : perm ||| pteV < 1024 :=
  Nat.or_lt_two_pow (n := 10) (by simpa using hperm) (by decide)

/-! ### The image -/

/-- What the linker and the headers fix: the symbols `etext`, `end`, `trampoline`,
`_uprog_table` and the trap entry points, the end of physical memory `PHYSTOP`
(`KERNBASE` + 128 MiB in `memlayout.h`), and the setting of `LAB2_BUF_SEMANTICS`. -/
structure Layout where
  etext : ℕ
  kend : ℕ
  phystop : ℕ
  trampoline : ℕ
  uservec : ℕ
  userret : ℕ
  usertrap : ℕ
  kernelvec : ℕ
  uprogTable : ℕ
  bufSemantics : ℕ
  etext_aligned : 4096 ∣ etext
  phystop_aligned : 4096 ∣ phystop
  trampoline_aligned : 4096 ∣ trampoline
  kernbase_le_trampoline : 0x80000000 ≤ trampoline
  trampoline_lt_etext : trampoline + 4096 ≤ etext
  etext_le_kend : etext ≤ kend
  kend_lt_phystop : kend < phystop
  /-- Physical memory ends below the kernel stacks at the top of the address space. -/
  phystop_le : phystop ≤ 2 ^ 38 - 2 ^ 21

namespace Layout

/-- `PGROUNDUP(end)`: the first page `kalloc` hands out. -/
def heap (L : Layout) : ℕ := pgRoundUp L.kend

variable (L : Layout)

theorem heap_eq : L.heap = (L.kend + 4095) / 4096 * 4096 := by
  have := L.kend_lt_phystop
  have := L.phystop_le
  simp only [heap, pgRoundUp, pgsize, wordSize]
  omega

theorem heap_aligned : 4096 ∣ L.heap := by
  rw [heap_eq]
  omega

theorem kend_le_heap : L.kend ≤ L.heap := by
  rw [heap_eq]
  omega

theorem heap_le_phystop : L.heap ≤ L.phystop := by
  have := L.kend_lt_phystop
  have := L.phystop_aligned
  rw [heap_eq]
  omega

theorem lt_heap : 0x80001000 ≤ L.heap := by
  have := L.kernbase_le_trampoline
  have := L.trampoline_lt_etext
  have := L.etext_le_kend
  have := L.kend_le_heap
  omega

end Layout

/-- A layout of the size the kernel has on a machine with 128 MiB. -/
def Layout.virt : Layout where
  etext := 0x80009000
  kend := 0x80040000
  phystop := 0x88000000
  trampoline := 0x80008000
  uservec := 0x80008000
  userret := 0x8000809a
  usertrap := 0x80002000
  kernelvec := 0x80001000
  uprogTable := 0x80010000
  bufSemantics := 0
  etext_aligned := by decide
  phystop_aligned := by decide
  trampoline_aligned := by decide
  kernbase_le_trampoline := by decide
  trampoline_lt_etext := by decide
  etext_le_kend := by decide
  kend_lt_phystop := by decide
  phystop_le := by decide

/-! ### Panics -/

/-- How the kernel stops: the calls of `panic` in the modelled files, and two events that
are not calls. `fault` is a kernel access to an address it has not mapped, `hang` a loop that
never ends, such as an `acquire` of a held lock. -/
inductive Panic where
  | walk | mappagesVa | mappagesSize | mappagesZero | mappagesRemap | uvmunmap | freewalk
  | kvmmap | kalloc
  | initExiting | zombieExit | schedLock | schedLocks | schedRunning | schedInterruptible
  | execSh
  | popOffInterruptible | popOff | acquire | release
  | usertrapMode | kerneltrapMode | kerneltrapInterrupts | kerneltrap
  | fault | hang
  deriving DecidableEq, Repr

end OsKernel
