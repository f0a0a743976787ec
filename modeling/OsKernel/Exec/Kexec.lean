import OsKernel.Exec.ProgramTable
import OsKernel.Proc.Code

/-!
# `kexec`: replacing the image of a process

`kexec` looks its program up in the table the image contains, builds a new page table, copies
the binary into it and only then gives up the old one. Everything between the lookup and the
return is done on data that interrupt handlers do not look at, in one step.
-/

namespace OsKernel

/-- The characters `kexec` strips from the end of a path. -/
def isBlank (c : UInt8) : Bool := c = 10 || c = 13 || c = 32 || c = 9

/-- The loop of `kexec` that strips a path of length `len`. -/
def trimLen (path : List UInt8) : (len : ℕ) → ℕ
  | 0 => 0
  | len + 1 => if isBlank (path.getD len 0) then trimLen path len else len + 1

/-- `find_uprog` on the table in memory. -/
def Core.findUprog (L : Layout) (name : List UInt8) (c : Core) : Lookup :=
  OsKernel.findUprog L.uprogTable
    (c.vm.mem.readBytes L.uprogTable (L.phystop - L.uprogTable)) (asciz name)

/-- The commitment of `kexec` to the new image. -/
def Core.execCommit (p : Slot) (pt total : ℕ) (name : List UInt8) (c : Core) : Core :=
  let c := c.setProc p fun pr =>
    { pr with pagetable := pt, sz := total, name := safestrcpy pr.name name 16 }
  let c := c.tfStore p tfEpc 0
  let c := c.tfStore p Reg.sp.offset (BitVec.ofNat 64 total)
  c.emit (.execed p)

/-- The size of the new image for a binary of a given size. -/
def execTotal (size : ℕ) : ℕ := ((pgRoundUp size + 2 * pgsize) % wordSize + pgsize) % wordSize

/-- `up->end - up->start`. -/
def execSize (start stop : ℕ) : ℕ := (stop + wordSize - start) % wordSize

/-- The label `bad` of `kexec`. -/
def execBad (L : Layout) (pt total : ℕ) : CoreM (BitVec 32) := do
  liftVm (Vm.procFreepagetable L pt total)
  return -1

/-- `kexec` of process `p`, which has been `pr` so far, once it has the page table `pt`. -/
def execInto (L : Layout) (p : Slot) (pr : Proc) (pt start size : ℕ) (name : List UInt8) :
    CoreM (BitVec 32) := do
  let v ← liftVm (Vm.uvmalloc L pt 0 (execTotal size) (pteW ||| pteX))
  if v = 0 then
    execBad L pt (execTotal size)
  else
    let ok ← liftVm (Vm.copyout L pt 0 (.memory start) size)
    if ok = false then
      execBad L pt (execTotal size)
    else
      PanicM.update (Core.execCommit p pt (execTotal size) name)
      liftVm (Vm.procFreepagetable L pr.pagetable pr.sz)
      return 0

/-- `kexec` of process `p` from the header `up` of a program on. -/
def execLoad (L : Layout) (p : Slot) (up : ℕ) (name : List UInt8) : CoreM (BitVec 32) := do
  let start ← liftVm (Vm.load up)
  let stop ← liftVm (Vm.load (up + 8))
  let pr ← PanicM.read fun c => c.procs p
  let pt ← liftVm (Vm.procPagetable L pr.trapframe)
  if pt = 0 then return -1 else execInto L p pr pt start (execSize start stop) name

/-- `kexec`. -/
def kexec (L : Layout) (path : List UInt8) : KernelM (BitVec 32) := do
  let len := trimLen path path.length
  if len = 0 then
    return -1
  else
    let name := path.take len
    let up ← getCore (Core.findUprog L name)
    match up with
    | .fault => kpanic .fault
    | .null => return -1
    | .found up =>
      let p ← myproc
      let p ← deref p
      coreAtomic (execLoad L p up name)

end OsKernel
