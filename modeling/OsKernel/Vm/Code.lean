import OsKernel.Lib.PanicM
import OsKernel.Machine.Layout
import OsKernel.Machine.String

/-!
# `vm.c`: the page allocator and the Sv39 page tables

The functions of `vm.c` on a state of four parts: physical memory, the bump pointer
`freemem`, the calls of `kalloc` that are going to fail, and the pages passed to `kfree`.
The kernel maps physical memory to itself, so a kernel pointer is a physical address, and
the null pointer is `0`. The failure stream is the source of the failures of `kalloc` that the
bump pointer does not explain; the allocator of `vm.c` is the case where it is always
`false`. The log of freed pages is read by nothing: `kfree` has no effect on memory.

A function that returns `0` or `-1` returns a `Bool`, `true` for `0`. Every loop takes the
number of rounds it may make as fuel; a loop that needs more would not end, and stops with
`Panic.hang`.
-/

namespace OsKernel

/-- The state `vm.c` works on. -/
structure Vm where
  /-- Physical memory. -/
  mem : Mem
  /-- `freemem`: the next page to hand out, `0` before `kinit`. -/
  freemem : ℕ
  /-- Whether the next call of `kalloc`, the one after it, and so on, fails. -/
  fails : ℕ → Bool
  /-- The pages passed to `kfree`, the latest first. -/
  freed : List ℕ

/-- A computation of `vm.c`. -/
abbrev VmM := PanicM Vm Panic

namespace Vm

variable (L : Layout)

/-- The word a pointer to `uint64` points to. -/
def load (a : ℕ) : VmM ℕ := PanicM.read fun s => s.mem.load64 a

/-- Assignment through a pointer to `uint64`. -/
def store (a v : ℕ) : VmM Unit := PanicM.update fun s => { s with mem := s.mem.store64 a v }

/-- `memset` on physical memory. -/
def memset (dst : ℕ) (c : UInt8) (n : ℕ) : VmM Unit :=
  PanicM.update fun s => { s with mem := s.mem.memset dst c n }

/-- `memmove` on physical memory. -/
def memmove (dst src n : ℕ) : VmM Unit :=
  PanicM.update fun s => { s with mem := s.mem.memmove dst src n }

/-- `kinit`. -/
def kinit : VmM Unit := PanicM.update fun s => { s with freemem := pgRoundUp L.kend }

/-- `kalloc`. -/
def kalloc : VmM ℕ := do
  -- every call uses up one element of the failure stream, also one that fails for want of memory
  let fail ← PanicM.read fun s => s.fails 0
  PanicM.update fun s => { s with fails := fun n => s.fails (n + 1) }
  let p ← PanicM.read Vm.freemem
  if fail ∨ p = 0 ∨ L.phystop < p + pgsize then
    return 0
  else
    PanicM.update fun s => { s with freemem := p + pgsize }
    memset p 0 pgsize
    return p

/-- `kfree`. -/
def kfree (pa : ℕ) : VmM Unit := PanicM.update fun s => { s with freed := pa :: s.freed }

/-! ### Walking and mapping -/

/-- One round of the loop of `walk`: the table the entry for `va` points to, which `alloc`
asks to create when there is none; `none` where `walk` returns `0`. -/
def walkLevel (alloc : Bool) (pagetable level va : ℕ) : VmM (Option ℕ) := do
  let pte := pagetable + 8 * px level va
  let e ← load pte
  if e &&& pteV ≠ 0 then
    return some (pte2pa e)
  else if alloc = false then
    return none
  else
    let page ← kalloc L
    if page = 0 then
      return none
    else
      memset page 0 pgsize
      store pte (pa2pte page ||| pteV)
      return some page

/-- `walk`: the address of the entry for `va`, or `0`. -/
def walk (pagetable va : ℕ) (alloc : Bool) : VmM ℕ := do
  if maxva ≤ va then
    PanicM.fail .walk
  else
    -- the loop makes two rounds, for the levels 2 and 1
    match ← walkLevel L alloc pagetable 2 va with
    | none => return 0
    | some table₁ =>
      match ← walkLevel L alloc table₁ 1 va with
      | none => return 0
      | some table₀ => return table₀ + 8 * px 0 va

/-- `walkaddr`. -/
def walkaddr (pagetable va : ℕ) : VmM ℕ := do
  if maxva ≤ va then
    return 0
  else
    let pte ← walk L pagetable va false
    if pte = 0 then
      return 0
    else
      let e ← load pte
      if e &&& pteV = 0 then return 0
      else if e &&& pteU = 0 then return 0
      else return pte2pa e

/-- The loop of `mappages`. -/
def mappagesLoop (pagetable last perm : ℕ) : (fuel a pa : ℕ) → VmM Bool
  | 0, _, _ => PanicM.fail .hang
  | fuel + 1, a, pa => do
    let pte ← walk L pagetable a true
    if pte = 0 then
      return false
    else
      let e ← load pte
      if e &&& pteV ≠ 0 then
        PanicM.fail .mappagesRemap
      else
        store pte (pa2pte pa ||| perm ||| pteV)
        if a = last then
          return true
        else
          mappagesLoop pagetable last perm fuel ((a + pgsize) % wordSize)
            ((pa + pgsize) % wordSize)

/-- `mappages`. -/
def mappages (pagetable va size pa perm : ℕ) : VmM Bool :=
  if va % pgsize ≠ 0 then PanicM.fail .mappagesVa
  else if size % pgsize ≠ 0 then PanicM.fail .mappagesSize
  else if size = 0 then PanicM.fail .mappagesZero
  else mappagesLoop L pagetable ((va + size - pgsize) % wordSize) perm (size / pgsize) va pa

/-- `uvmcreate`. -/
def uvmcreate : VmM ℕ := do
  let pagetable ← kalloc L
  if pagetable = 0 then
    return 0
  else
    memset pagetable 0 pgsize
    return pagetable

/-- The body of the loop of `uvmunmap`. -/
def uvmunmapPage (pagetable a : ℕ) (doFree : Bool) : VmM Unit := do
  let pte ← walk L pagetable a false
  -- a page that is not mapped is passed over, not an error
  if pte = 0 then
    return ()
  else
    let e ← load pte
    if e &&& pteV = 0 then
      return ()
    else if doFree then
      kfree (pte2pa e)
      store pte 0
    else
      store pte 0

/-- The loop of `uvmunmap` up to the address `stop`. -/
def uvmunmapLoop (pagetable stop : ℕ) (doFree : Bool) : (fuel a : ℕ) → VmM Unit
  | 0, a => if a < stop then PanicM.fail .hang else return ()
  | fuel + 1, a =>
    if a < stop then do
      uvmunmapPage L pagetable a doFree
      uvmunmapLoop pagetable stop doFree fuel ((a + pgsize) % wordSize)
    else return ()

/-- `uvmunmap`. -/
def uvmunmap (pagetable va npages : ℕ) (doFree : Bool) : VmM Unit :=
  if va % pgsize ≠ 0 then PanicM.fail .uvmunmap
  else uvmunmapLoop L pagetable ((va + npages * pgsize) % wordSize) doFree npages va

/-- A `uint64` assigned to an `int` and used as a `uint64` again. -/
def throughInt (n : ℕ) : ℕ :=
  if n % 2 ^ 32 < 2 ^ 31 then n % 2 ^ 32 else wordSize - 2 ^ 32 + n % 2 ^ 32

/-- `uvmdealloc`. -/
def uvmdealloc (pagetable oldsz newsz : ℕ) : VmM ℕ :=
  if oldsz ≤ newsz then return oldsz
  else if pgRoundUp newsz < pgRoundUp oldsz then do
    -- the source keeps the number of pages in an `int`
    let npages := throughInt ((pgRoundUp oldsz - pgRoundUp newsz) / pgsize)
    uvmunmap L pagetable (pgRoundUp newsz) npages true
    return newsz
  else return newsz

/-- The loop of `uvmalloc`; `oldsz` is already rounded up. -/
def uvmallocLoop (pagetable oldsz newsz xperm : ℕ) : (fuel a : ℕ) → VmM ℕ
  | 0, a => if a < newsz then PanicM.fail .hang else return newsz
  | fuel + 1, a =>
    if a < newsz then do
      let page ← kalloc L
      if page = 0 then
        let _ ← uvmdealloc L pagetable a oldsz
        return 0
      else
        memset page 0 pgsize
        let ok ← mappages L pagetable a pgsize page (pteR ||| pteU ||| xperm)
        if ok then
          uvmallocLoop pagetable oldsz newsz xperm fuel ((a + pgsize) % wordSize)
        else
          kfree page
          let _ ← uvmdealloc L pagetable a oldsz
          return 0
    else return newsz

/-- `uvmalloc`. -/
def uvmalloc (pagetable oldsz newsz xperm : ℕ) : VmM ℕ :=
  if newsz < oldsz then return oldsz
  else uvmallocLoop L pagetable (pgRoundUp oldsz) newsz xperm (newsz / pgsize + 1)
    (pgRoundUp oldsz)

/-- The loop of `freewalk` from entry `i` on; `child` frees the table an entry points to. -/
def freewalkLoop (child : ℕ → VmM Unit) (pagetable : ℕ) : (rest i : ℕ) → VmM Unit
  | 0, _ => return ()
  | rest + 1, i => do
    let e ← load (pagetable + 8 * i)
    if e &&& pteV ≠ 0 ∧ e &&& (pteR ||| pteW ||| pteX) = 0 then
      child (pte2pa e)
      store (pagetable + 8 * i) 0
      freewalkLoop child pagetable rest (i + 1)
    else if e &&& pteV ≠ 0 then
      PanicM.fail .freewalk
    else
      freewalkLoop child pagetable rest (i + 1)

/-- `freewalk` with a bound on the depth of the recursion. -/
def freewalkDepth : (depth pagetable : ℕ) → VmM Unit
  | 0, _ => PanicM.fail .hang
  | depth + 1, pagetable => do
    freewalkLoop (freewalkDepth depth) pagetable 512 0
    kfree pagetable

/-- `freewalk`. A page table has three levels. -/
def freewalk (pagetable : ℕ) : VmM Unit := freewalkDepth 3 pagetable

/-- `uvmfree`. -/
def uvmfree (pagetable sz : ℕ) : VmM Unit := do
  if 0 < sz then
    uvmunmap L pagetable 0 (pgRoundUp sz / pgsize) true
    freewalk pagetable
  else
    freewalk pagetable

/-- The loop of `uvmcopy`. -/
def uvmcopyLoop (old new sz : ℕ) : (fuel i : ℕ) → VmM Bool
  | 0, i => if i < sz then PanicM.fail .hang else return true
  | fuel + 1, i =>
    if i < sz then do
      let pte ← walk L old i false
      if pte = 0 then
        uvmcopyLoop old new sz fuel ((i + pgsize) % wordSize)
      else
        let e ← load pte
        if e &&& pteV = 0 then
          uvmcopyLoop old new sz fuel ((i + pgsize) % wordSize)
        else
          let page ← kalloc L
          if page = 0 then
            -- `goto err`, as below
            uvmunmap L new 0 (i / pgsize) true
            return false
          else
            memmove page (pte2pa e) pgsize
            let ok ← mappages L new i pgsize page (pteFlags e)
            if ok then
              uvmcopyLoop old new sz fuel ((i + pgsize) % wordSize)
            else
              kfree page
              uvmunmap L new 0 (i / pgsize) true
              return false
    else return true

/-- `uvmcopy`. -/
def uvmcopy (old new sz : ℕ) : VmM Bool := uvmcopyLoop L old new sz (sz / pgsize + 1) 0

/-! ### Copies between user and kernel memory -/

/-- Where the kernel side of a copy lies: in a variable of the kernel, given by its bytes, or
at a physical address. -/
inductive Source where
  | buffer (bytes : List UInt8)
  | memory (addr : ℕ)

/-- `n` bytes from the offset `off` of a source on. -/
def Source.read (src : Source) (m : Mem) (off n : ℕ) : List UInt8 :=
  match src with
  | .buffer bytes => (bytes.drop off).take n
  | .memory addr => m.readBytes (addr + off) n

/-- `memmove` from a source. -/
def moveFrom (dst : ℕ) (src : Source) (off n : ℕ) : VmM Unit :=
  match src with
  | .buffer bytes =>
    PanicM.update fun s => { s with mem := s.mem.writeBytes dst ((bytes.drop off).take n) }
  | .memory addr => memmove dst (addr + off) n

/-- The loop of `copyout`, which has copied `off` bytes; every round copies at least one. -/
def copyoutLoop (pagetable : ℕ) (src : Source) : (fuel dstva off len : ℕ) → VmM Bool
  | 0, _, _, len => if 0 < len then PanicM.fail .hang else return true
  | fuel + 1, dstva, off, len =>
    if 0 < len then do
      let va0 := pgRoundDown dstva
      if maxva ≤ va0 then
        return false
      else
        let pa0 ← walkaddr L pagetable va0
        if pa0 = 0 then
          return false
        else
          -- `walkaddr` does not say whether the page may be written
          let pte ← walk L pagetable va0 false
          let e ← load pte
          if e &&& pteW = 0 then
            return false
          else
            let n := min (pgsize - (dstva - va0)) len
            moveFrom (pa0 + (dstva - va0)) src off n
            copyoutLoop pagetable src fuel ((va0 + pgsize) % wordSize) (off + n) (len - n)
    else return true

/-- `copyout`. -/
def copyout (pagetable dstva : ℕ) (src : Source) (len : ℕ) : VmM Bool :=
  copyoutLoop L pagetable src len dstva 0 len

/-- The loop of `copyin`; `dst` holds the bytes copied so far. -/
def copyinLoop (pagetable : ℕ) : (fuel srcva len : ℕ) → (dst : List UInt8) →
    VmM (Option (List UInt8))
  | 0, _, len, dst => if 0 < len then PanicM.fail .hang else return some dst
  | fuel + 1, srcva, len, dst =>
    if 0 < len then do
      let va0 := pgRoundDown srcva
      let pa0 ← walkaddr L pagetable va0
      if pa0 = 0 then
        return none
      else
        let n := min (pgsize - (srcva - va0)) len
        let bytes ← PanicM.read fun s => s.mem.readBytes (pa0 + (srcva - va0)) n
        copyinLoop pagetable fuel ((va0 + pgsize) % wordSize) (len - n) (dst ++ bytes)
    else return some dst

/-- `copyin`: the bytes it copies to its destination, `none` for `-1`. -/
def copyin (pagetable srcva len : ℕ) : VmM (Option (List UInt8)) :=
  copyinLoop L pagetable len srcva len []

/-- The loop of `copyinstr`; `dst` holds the bytes copied so far. The inner loop takes the
bytes of a page up to its first NUL. -/
def copyinstrLoop (pagetable : ℕ) : (fuel srcva max : ℕ) → (dst : List UInt8) →
    VmM (Option (List UInt8))
  | 0, _, max, _ => if 0 < max then PanicM.fail .hang else return none
  | fuel + 1, srcva, max, dst =>
    if 0 < max then do
      let va0 := pgRoundDown srcva
      let pa0 ← walkaddr L pagetable va0
      if pa0 = 0 then
        return none
      else
        let n := min (pgsize - (srcva - va0)) max
        let bytes ← PanicM.read fun s => s.mem.readBytes (pa0 + (srcva - va0)) n
        if (0 : UInt8) ∈ bytes then
          return some (dst ++ bytes.takeWhile (· ≠ 0))
        else
          copyinstrLoop pagetable fuel ((va0 + pgsize) % wordSize) (max - n) (dst ++ bytes)
    else return none

/-- `copyinstr`: the string it copies to its destination, without the NUL, `none` for `-1`. -/
def copyinstr (pagetable srcva max : ℕ) : VmM (Option (List UInt8)) :=
  copyinstrLoop L pagetable max srcva max []

end Vm

end OsKernel
