import OsKernel.Trap.Code

/-!
# The dispatch of system calls

`syscall` takes the number of a call from the register `a7` of the trapframe. The register has 64
bits; the local variable `num` it is assigned to is an `int`. The variable is compared with 0 as
an `int` and with the length of the table, a `size_t`, as an unsigned 64-bit number, and then
indexes a table with holes.

`lookupSyscall` is this dispatch with its conversions, and `abiCall` the dispatch that the
interface promises, on the whole register. They agree where the register fits into 32 bits, and
where its low half is not the number of a call. Elsewhere they do not: `2 ^ 32 + 11` is the
number of no call, and `syscall` runs `sys_getpid`.
-/

namespace OsKernel

variable {L : Layout} {c : K} {p : Slot} {a7 : BitVec 64}

/-- The system calls there are. -/
inductive Sysno where
  | fork | exit | wait | read | exec | getpid | write
  deriving DecidableEq, Repr

/-- `SYS_fork` and so on. -/
def Sysno.number : Sysno → ℕ
  | .fork => 1
  | .exit => 2
  | .wait => 3
  | .read => 5
  | .exec => 7
  | .getpid => 11
  | .write => 16

/-- The table `syscalls`, whose holes are null pointers. -/
def syscalls : List (Option Sysno) :=
  [none, some .fork, some .exit, some .wait, none, some .read, none, some .exec, none, none, none,
    some .getpid, none, none, none, none, some .write]

/-- The functions in the table. -/
def sysHandler (L : Layout) (p : Slot) : Sysno → KernelM Label
  | .fork => do
    let v ← kfork L
    return .sysret p (v.signExtend 64)
  | .exit => sysExit
  | .wait => sysWait
  | .read => sysRead p
  | .exec => do
    let v ← sysExec L
    return .sysret p (v.signExtend 64)
  | .getpid => do
    let v ← sysGetpid
    return .sysret p (v.signExtend 64)
  | .write => sysWrite p

/-- The condition `num > 0 && num < NELEM(syscalls) && syscalls[num]`. -/
def lookupSyscall (a7 : BitVec 64) : Option Sysno :=
  let num : BitVec 32 := a7.setWidth 32
  if 0 < num.toInt ∧ (num.signExtend 64).toNat < syscalls.length then syscalls.getD num.toNat none
  else none

/-- What the interface says: the whole register is the number. -/
def abiCall (a7 : BitVec 64) : Option Sysno :=
  if a7.toNat < syscalls.length then syscalls.getD a7.toNat none else none

theorem getD_syscalls_eq_some_iff {k : ℕ} {n : Sysno} :
    syscalls.getD k none = some n ↔ k = n.number := by
  constructor
  · intro h
    have hk : k < 17 := by
      by_contra hge
      rw [List.getD_eq_default _ _ (show syscalls.length ≤ k by simp [syscalls]; omega)] at h
      cases h
    have hall : ∀ k : Fin 17, syscalls.getD k none = some n → (k : ℕ) = n.number := by
      cases n <;> decide
    exact hall ⟨k, hk⟩ h
  · rintro rfl
    cases n <;> rfl

theorem Sysno.number_lt (n : Sysno) : n.number < syscalls.length := by
  cases n <;> decide

theorem abiCall_eq_some_iff {n : Sysno} : abiCall a7 = some n ↔ a7.toNat = n.number := by
  rw [abiCall, ← getD_syscalls_eq_some_iff]
  by_cases h : a7.toNat < syscalls.length
  · rw [if_pos h]
  · rw [if_neg h, List.getD_eq_default _ _ (not_lt.mp h)]

/-- The dispatch looks at the low half of the register. -/
theorem lookupSyscall_eq_some_iff {n : Sysno} :
    lookupSyscall a7 = some n ↔ (a7.setWidth 32).toNat = n.number := by
  generalize hnum : a7.setWidth 32 = num
  have hdef : lookupSyscall a7 = if 0 < num.toInt ∧ (num.signExtend 64).toNat < syscalls.length then
      syscalls.getD num.toNat none else none := by
    rw [lookupSyscall, hnum]
  rw [hdef, ← getD_syscalls_eq_some_iff]
  by_cases hsmall : num.toNat < syscalls.length
  · have hlen : syscalls.length = 17 := rfl
    have hint : num.toInt = num.toNat := BitVec.toInt_eq_toNat_of_lt (by omega)
    have hext : (num.signExtend 64).toNat = num.toNat := by
      rw [BitVec.signExtend_eq_setWidth_of_msb_false
        (BitVec.msb_eq_false_iff_two_mul_lt.mpr (by omega)), BitVec.toNat_setWidth]
      omega
    by_cases h0 : num.toNat = 0
    · rw [if_neg (by omega), h0]
      rfl
    · rw [if_pos (by omega)]
  · -- neither a negative number nor a large one passes the test
    rw [if_neg, List.getD_eq_default _ _ (not_lt.mp hsmall)]
    rintro ⟨hpos, hlt⟩
    have hmsb : num.msb = false := by
      rw [BitVec.msb_eq_false_iff_two_mul_lt]
      rw [BitVec.toInt_eq_toNat_cond] at hpos
      split_ifs at hpos <;> omega
    rw [BitVec.signExtend_eq_setWidth_of_msb_false hmsb, BitVec.toNat_setWidth] at hlt
    have := num.isLt
    omega

/-- **The dispatch is that of the interface** for a register that fits into 32 bits, and for one
whose low half is not the number of a call. -/
theorem lookupSyscall_eq_abiCall_iff : lookupSyscall a7 = abiCall a7 ↔
    a7.toNat < 2 ^ 32 ∨ ∀ n : Sysno, a7.toNat % 2 ^ 32 ≠ n.number := by
  have hlow : (a7.setWidth 32).toNat = a7.toNat % 2 ^ 32 := BitVec.toNat_setWidth ..
  constructor
  · intro heq
    by_contra hcon
    push Not at hcon
    obtain ⟨hlarge, n, hn⟩ := hcon
    have hcall := lookupSyscall_eq_some_iff.mpr (hlow.trans hn)
    rw [heq, abiCall_eq_some_iff] at hcall
    have := n.number_lt
    have hlen : syscalls.length = 17 := rfl
    omega
  · intro h
    refine Option.ext fun n => ?_
    rw [lookupSyscall_eq_some_iff, abiCall_eq_some_iff, hlow]
    have := n.number_lt
    have hlen : syscalls.length = 17 := rfl
    rcases h with hsmall | hnone
    · rw [Nat.mod_eq_of_lt hsmall]
    · exact iff_of_false (hnone n) fun heq => hnone n (by omega)

/-- What `syscall` goes on with once it has read the register. -/
def dispatch (L : Layout) (p : Slot) (a7 : BitVec 64) : KernelM Label :=
  match lookupSyscall a7 with
  | some n => sysHandler L p n
  | none => return .sysret p (-1)

/-- **`syscall` dispatches through the table.** -/
theorem syscall_eq_dispatch : syscall L = (do
    let p ← myproc
    let p ← deref p
    let a7 ← getCore fun c => c.tfLoad p Reg.a7.offset
    dispatch L p a7) := by
  rw [syscall]
  refine congrArg (myproc >>= ·) (funext fun q => congrArg (deref q >>= ·) (funext fun p =>
    congrArg (getCore _ >>= ·) (funext fun a7 => ?_)))
  have hnum : ∀ n : Sysno, lookupSyscall a7 = some n ↔
      a7.setWidth 32 = BitVec.ofNat 32 n.number := fun n => by
    rw [lookupSyscall_eq_some_iff, ← BitVec.toNat_inj, BitVec.toNat_ofNat, Nat.mod_eq_of_lt]
    have := n.number_lt
    have hlen : syscalls.length = 17 := rfl
    omega
  cases hlook : lookupSyscall a7 with
  | some n =>
    have := (hnum n).mp hlook
    rw [dispatch, hlook]
    cases n <;> simp [this, Sysno.number, sysHandler]
  | none =>
    have hne : ∀ n : Sysno, a7.setWidth 32 ≠ BitVec.ofNat 32 n.number := fun n hn => by
      rw [(hnum n).mpr hn] at hlook
      cases hlook
    rw [dispatch, hlook, if_neg (show a7.setWidth 32 ≠ 1 from hne .fork),
      if_neg (show a7.setWidth 32 ≠ 2 from hne .exit),
        if_neg (show a7.setWidth 32 ≠ 3 from hne .wait),
      if_neg (show a7.setWidth 32 ≠ 5 from hne .read),
        if_neg (show a7.setWidth 32 ≠ 7 from hne .exec),
      if_neg (show a7.setWidth 32 ≠ 11 from hne .getpid),
      if_neg (show a7.setWidth 32 ≠ 16 from hne .write)]

/-- What the interface says that it goes on with. -/
def abiDispatch (L : Layout) (p : Slot) (a7 : BitVec 64) : KernelM Label :=
  match abiCall a7 with
  | some n => sysHandler L p n
  | none => return .sysret p (-1)

theorem run_syscall (hp : c.core.cproc = some p) : (syscall L).run c =
    (dispatch L p (c.core.tfLoad p Reg.a7.offset)).run { c with hart := c.hart.visited } := by
  rw [syscall_eq_dispatch, run_myproc_bind hp, getCore, Prog.run_read_bind]

/-- Every handler begins with a call of `myproc`. -/
theorem sysHandler_eq_myproc (n : Sysno) : ∃ k, sysHandler L p n = myproc >>= k := by
  cases n with
  | fork => exact ⟨_, Prog.bind_assoc (p := myproc)⟩
  | exit => exact ⟨_, Prog.bind_assoc (p := myproc)⟩
  | wait => exact ⟨_, Prog.bind_assoc (p := myproc)⟩
  | read => exact ⟨_, Prog.bind_assoc (p := myproc)⟩
  | exec => exact ⟨_, Prog.bind_assoc.trans (Prog.bind_assoc (p := myproc))⟩
  | getpid => exact ⟨_, Prog.bind_assoc (p := myproc)⟩
  | write => exact ⟨_, Prog.bind_assoc (p := myproc)⟩

/-- A handler is not the program that returns at once. -/
theorem sysHandler_ne_pure (n : Sysno) (a : Label) : sysHandler L p n ≠ pure a := by
  obtain ⟨k, hk⟩ := sysHandler_eq_myproc (L := L) (p := p) n
  rw [hk]
  intro h
  cases h

/-- **`syscall` goes on as the interface says** exactly for a register that fits into 32 bits, or
whose low half is not the number of a call. -/
theorem dispatch_eq_abiDispatch_iff : dispatch L p a7 = abiDispatch L p a7 ↔
    a7.toNat < 2 ^ 32 ∨ ∀ n : Sysno, a7.toNat % 2 ^ 32 ≠ n.number := by
  rw [← lookupSyscall_eq_abiCall_iff]
  constructor
  · intro h
    cases hcall : abiCall a7 with
    | some n =>
      -- a small register is looked up as it is
      have hsmall := abiCall_eq_some_iff.mp hcall
      have := n.number_lt
      have hlen : syscalls.length = 17 := rfl
      rw [lookupSyscall_eq_some_iff, BitVec.toNat_setWidth, hsmall]
      omega
    | none =>
      cases hlook : lookupSyscall a7 with
      | none => rfl
      | some n =>
        rw [dispatch, abiDispatch, hlook, hcall] at h
        exact absurd h (sysHandler_ne_pure n _)
  · intro h
    rw [dispatch, abiDispatch, h]

/-- **`syscall` honours the interface** exactly for a register `a7` that fits into 32 bits, or whose
low half is not the number of a call. What it goes on with once it has read the register is what
the interface says if and only if this is so, and nothing has changed by then but `intena` of the
hart, which has no meaning while no lock is held. What the interface says is this: if `a7` is the
number of no call, `a0` of the caller becomes −1 and nothing else changes; if `a7` is the number of
a call, its handler runs. -/
theorem syscall_honours_abi (hp : c.core.cproc = some p)
    (hoff : 0 < c.hart.noff → c.hart.sie = false) :
    ∃ b, let c' : K := { c with hart := { c.hart with intena := b } }
      let a7 := c.core.tfLoad p Reg.a7.offset
      (syscall L).run c = (dispatch L p a7).run c' ∧
      (dispatch L p a7 = abiDispatch L p a7 ↔
        a7.toNat < 2 ^ 32 ∨ ∀ n : Sysno, a7.toNat % 2 ^ 32 ≠ n.number) ∧
      (abiCall a7 = none →
        (abiDispatch L p a7).run c' = .ok (.sysret p (-1), c') ∧
        (syscallReturn p (-1)).run c' = .ok (.usertrapTail p,
          { c' with core := (c.core.tfStore p Reg.a0.offset (-1)).emit (.sysret p (-1)) })) ∧
      ∀ n, abiCall a7 = some n → abiDispatch L p a7 = sysHandler L p n := by
  obtain ⟨b, hvisited⟩ := Hart.visited_eq hoff
  have hrun := run_syscall (L := L) hp
  rw [hvisited] at hrun
  refine ⟨b, hrun, dispatch_eq_abiDispatch_iff, fun hnone => ⟨?_, rfl⟩, fun n hn => ?_⟩
  · rw [abiDispatch, hnone]
    rfl
  · rw [abiDispatch, hn]

/-- The process with one page is about to make the call `a7`. -/
def callK (a7 : BitVec 64) : K :=
  { onePageK .virt with core := onePageCore.tfStore 0 Reg.a7.offset a7 }

/-- Call 4 does not exist, and `syscall` says so. With `2 ^ 32 + 4` it says the same, and with
`2 ^ 32 + 3` it does not. -/
theorem syscall_honours_abi_four : (callK 4).core.tfLoad 0 Reg.a7.offset = 4 ∧
    (∃ b, (syscall .virt).run (callK 4) = .ok (.sysret 0 (-1),
      { callK 4 with hart := { (callK 4).hart with intena := b } })) ∧
    (callK 0x100000004).core.tfLoad 0 Reg.a7.offset = 0x100000004 ∧
    dispatch .virt 0 0x100000004 = abiDispatch .virt 0 0x100000004 ∧
    (callK 0x100000003).core.tfLoad 0 Reg.a7.offset = 0x100000003 ∧
    dispatch .virt 0 0x100000003 ≠ abiDispatch .virt 0 0x100000003 := by
  have ha7 : (callK 4).core.tfLoad 0 Reg.a7.offset = 4 := by decide +kernel
  have hhole : (callK 0x100000004).core.tfLoad 0 Reg.a7.offset = 0x100000004 := by decide +kernel
  have hwait : (callK 0x100000003).core.tfLoad 0 Reg.a7.offset = 0x100000003 := by decide +kernel
  obtain ⟨b, hrun, hiff, hnone, -⟩ :=
    syscall_honours_abi (L := .virt) (c := callK 4) (p := 0) rfl (by decide)
  obtain ⟨-, -, hiff₁, -⟩ :=
    syscall_honours_abi (L := .virt) (c := callK 0x100000004) (p := 0) rfl (by decide)
  obtain ⟨-, -, hiff₂, -⟩ :=
    syscall_honours_abi (L := .virt) (c := callK 0x100000003) (p := 0) rfl (by decide)
  rw [ha7] at hrun hiff hnone
  rw [hhole] at hiff₁
  rw [hwait] at hiff₂
  refine ⟨ha7, ⟨b, ?_⟩, hhole, hiff₁.mpr (.inr fun n => ?_), hwait, fun heq => ?_⟩
  · rw [hrun, hiff.mpr (.inl (by decide))]
    exact (hnone rfl).1
  · cases n <;> decide
  · rcases hiff₂.mp heq with hsmall | hnumber
    · exact absurd hsmall (by decide)
    · exact hnumber .wait (by decide)

/-- With `2 ^ 32 + 11` in `a7`, which is the number of no call, `syscall` runs `sys_getpid` in every
state and returns the pid. -/
theorem syscall_drops_high_half : abiCall 0x10000000b = none ∧
    (∀ (c : K) (p : Slot), c.core.cproc = some p →
      c.core.tfLoad p Reg.a7.offset = 0x10000000b → ∃ h, (syscall .virt).run c =
        .ok (.sysret p ((c.core.procs p).pid.signExtend 64), { c with hart := h })) ∧
    ∃ c : K, c.core.cproc = some 0 ∧ c.core.tfLoad 0 Reg.a7.offset = 0x10000000b ∧
      (c.core.procs 0).pid = 1 := by
  refine ⟨rfl, fun c p hp ha7 => ⟨c.hart.visited.visited, ?_⟩,
    callK 0x10000000b, rfl, by decide +kernel, rfl⟩
  have hpid : sysGetpid.run { c with hart := c.hart.visited } =
      .ok ((c.core.procs p).pid, { c with hart := c.hart.visited.visited }) :=
    run_myproc_bind (s := { c with hart := c.hart.visited }) hp _
  rw [run_syscall hp, ha7, dispatch, show lookupSyscall 0x10000000b = some .getpid by decide]
  exact Prog.run_bind_of_ok hpid

end OsKernel
