import OsKernel.Printf.Code
import OsKernel.Proc.Code

/-!
# `console.c`: the UART and the input ring

The ring buffer has three free-running 32-bit indices: `r` for the next byte to read, `w` for
the end of what readers may take, `e` for the end of what was typed. Characters come in by
`consoleintr`, which echoes them and, depending on `LAB2_BUF_SEMANTICS`, commits them at once
or by lines; `consoleread` takes them out one by one and sleeps while there is nothing to take.
-/

namespace OsKernel

/-- `uartputc_sync`, with what an observer records of it. The transmitter becomes idle in the
end. -/
def uartputcSync (seen : List Event) (c : UInt8) : KernelM Unit := do
  pushOff
  modCore fun s => { s with tx := s.tx ++ [c], log := seen ++ s.log }
  popOff

/-- Sends bytes one by one. -/
def putBytes : List UInt8 → KernelM Unit
  | [] => return ()
  | c :: cs => do
    uartputcSync [] c
    putBytes cs

/-- `printf`. The pauses of `putchar` leave no trace. -/
def printf (fmt : String) (args : List Arg) : KernelM Unit := putBytes (vprintfmt (cstr fmt) args)

namespace Cons

/-- The byte at an index. -/
def get (k : Cons) (i : BitVec 32) : UInt8 := k.buf (i.toNat % inputBufSize)

/-- `cons.buf[cons.e++ % INPUT_BUF_SIZE] = c`. -/
def push (c : UInt8) (k : Cons) : Cons :=
  { k with buf := Function.update k.buf (k.e.toNat % inputBufSize) c, e := k.e + 1 }

/-- `cons.w = cons.e`. -/
def commit (k : Cons) : Cons := { k with w := k.e }

/-- `cons.r++`. -/
def pop (k : Cons) : Cons := { k with r := k.r + 1 }

end Cons

/-- `consputc`. An observer sees the echo where it is sent. -/
def consputc (c : UInt8) : KernelM Unit := uartputcSync [.echoed c] c

/-- The critical section of `consoleintr`. -/
def consoleintrBody (L : Layout) (c : UInt8) : KernelM Unit := do
  modCore fun s => s.emit (.arrived c)
  let cons ← getCore Core.cons
  if c ≠ 0 ∧ (cons.e - cons.r).toNat < inputBufSize then
    let c := if c = 13 then 10 else c
    consputc c
    modCore fun s => { s with cons := s.cons.push c }
    let cons ← getCore Core.cons
    if L.bufSemantics = 1 ∨ c = 10 ∨ (cons.e - cons.r).toNat = inputBufSize then
      modCore fun s => { s with cons := s.cons.commit }
      wakeup (some .consR)
    else
      return ()
  else
    return ()

/-- `consoleintr`. -/
def consoleintr (L : Layout) (c : UInt8) : KernelM Unit := do
  acquire .cons
  consoleintrBody L c
  release .cons

/-- The loop of `uartintr` over the characters `uartgetc` returns. -/
def uartintrLoop (L : Layout) : List UInt8 → KernelM Unit
  | [] => return ()
  | c :: cs => do
    modCore fun s => { s with rx := cs }
    consoleintr L c
    uartintrLoop L cs

/-- `uartintr`. -/
def uartintr (L : Layout) : KernelM Unit := do
  let rx ← getCore Core.rx
  uartintrLoop L rx

/-- The process can write all of the buffer. -/
def Core.bufferWritable (c : Core) (p : Slot) (dst : ℕ) (n : BitVec 32) : Bool :=
  decide (∀ k, k < n.toInt.toNat → c.vm.mem.Writable (c.procs p).pagetable (dst + k))

/-- `consoleread(1, dst, n)` up to its loop. -/
def consolereadEnter (p : Slot) (dst : ℕ) (n : BitVec 32) : KernelM Label := do
  acquire .cons
  modCore fun c => c.emit (.readCall p dst n (c.bufferWritable p dst n))
  return .consoleread p dst n n

/-- The end of `consoleread`, with the value it returns. -/
def consolereadDone (p : Slot) (v : BitVec 32) : KernelM Label := do
  modCore fun c => c.emit (.readRet p v)
  release .cons
  return .sysret p (v.signExtend 64)

/-- The condition of the outer loop of `consoleread`. -/
def consolereadRound (p : Slot) (dst : ℕ) (n target : BitVec 32) : KernelM Label :=
  if 0 < n.toInt then return .consolereadWait p dst n target
  else consolereadDone p (target - n)

/-- `consoleread` from the condition of its inner loop on. -/
def consolereadWaitRound (L : Layout) (p : Slot) (dst : ℕ) (n target : BitVec 32) :
    KernelM Label := do
  let cons ← getCore Core.cons
  if cons.r = cons.w then
    let q ← myproc
    let q ← deref q
    let k ← killed q
    if k then
      consolereadDone p (-1)
    else
      sleepPrepare .consR
      release .cons
      sleep (.consoleread dst n target)
  else
    let b := cons.get cons.r
    modCore fun c => { c with cons := c.cons.pop }
    let ok ← eitherCopyout L true dst [b]
    if ok = false then
      modCore fun c => c.emit (.lost p b)
      consolereadDone p (target - n)
    else
      modCore fun c =>
        c.emit (.handed p (c.vm.mem (c.vm.mem.phys (c.procs p).pagetable dst)))
      if b = 10 then
        consolereadDone p (target - (n - 1))
      else
        return .consoleread p ((dst + 1) % wordSize) (n - 1) target

/-- A round of the loop of `consolewrite(1, src, n)`. -/
def consolewriteRound (L : Layout) (p : Slot) (src : ℕ) (n i : BitVec 32) : KernelM Label :=
  if i.slt n then do
    let nn := if (n - i).slt 32 then n - i else 32
    let bytes ← eitherCopyin L true ((src + i.toNat) % wordSize) nn.toNat
    match bytes with
    | none => return .sysret p (i.signExtend 64)
    | some bytes =>
      putBytes bytes
      return .consolewrite p src n (i + nn)
  else
    return .sysret p (i.signExtend 64)

end OsKernel
