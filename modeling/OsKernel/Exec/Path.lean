import Mathlib.Data.List.DropRight
import OsKernel.Exec.Load
import OsKernel.Trap.Code

/-!
# The buffers of `sys_exec`

`sys_exec` copies its path into `path[MAXPATH]`, and `kexec` strips it of trailing blanks into
`name[MAXPATH]`. In `kexec` and `sysExec` the strings stand for the buffers that hold them. Here the
same code is written with the buffers and its stores to them; a store outside a buffer is a fault.
`sysExecBuf_eq` says that on buffers of `MAXPATH` bytes the two are the same program, so no store
is outside a buffer and what is left in the buffers from before does not matter.

`sysExec_resolves` says what the program does: it finds the string at the user address, strips it
and looks it up, and it returns −1 and changes nothing when there is no string, no name or no
program.
-/

namespace OsKernel

/-! ### Stores to a buffer -/

/-- `buf[i] = c`; there is no result when the buffer is too small. -/
def setByte (buf : List UInt8) (i : ℕ) (c : UInt8) : Option (List UInt8) :=
  if i < buf.length then some (buf.set i c) else none

/-- `memmove(dst, src, n)` between two buffers. -/
def moveBytes (dst src : List UInt8) (n : ℕ) : Option (List UInt8) :=
  if n ≤ dst.length ∧ n ≤ src.length then some (src.take n ++ dst.drop n) else none

/-- The buffer with the bytes `bs` from index `i` on. -/
def overwrite (buf : List UInt8) (i : ℕ) (bs : List UInt8) : List UInt8 :=
  buf.take i ++ (bs ++ buf.drop (i + bs.length))

namespace Vm

/-- A store to a buffer of the kernel. -/
def putByte (buf : List UInt8) (i : ℕ) (c : UInt8) : VmM (List UInt8) :=
  match setByte buf i c with
  | some buf => return buf
  | none => PanicM.fail .fault

/-- The inner loop of `copyinstr`: `n` bytes at most from the address `p` to `dst[i]` and up. It
returns `got_null` and the buffer. -/
def copyinstrBytes : (n p i : ℕ) → (dst : List UInt8) → VmM (Bool × List UInt8)
  | 0, _, _, dst => return (false, dst)
  | n + 1, p, i, dst => do
    let c ← PanicM.read fun s => s.mem p
    let dst ← putByte dst i c
    if c = 0 then return (true, dst) else copyinstrBytes n (p + 1) (i + 1) dst

/-- The loop of `copyinstr` with the buffer `dst`, in which `i` bytes are filled. -/
def copyinstrTo (L : Layout) (pagetable : ℕ) : (fuel srcva max i : ℕ) → (dst : List UInt8) →
    VmM (Bool × List UInt8)
  | 0, _, max, _, dst => if 0 < max then PanicM.fail .hang else return (false, dst)
  | fuel + 1, srcva, max, i, dst =>
    if 0 < max then do
      let va0 := pgRoundDown srcva
      let pa0 ← walkaddr L pagetable va0
      if pa0 = 0 then
        return (false, dst)
      else
        let n := min (pgsize - (srcva - va0)) max
        let out ← copyinstrBytes n (pa0 + (srcva - va0)) i dst
        if out.1 then
          return (true, out.2)
        else
          copyinstrTo L pagetable fuel ((va0 + pgsize) % wordSize) (max - n) (i + n) out.2
    else return (false, dst)

end Vm

/-- `kexec` up to the lookup: the buffer `name`, or `none` where it returns −1. There is no result
when it leaves a buffer. -/
def execName (path name : List UInt8) : Option (Option (List UInt8)) := do
  let n ← strlen path
  let len := trimLen path n
  if len = 0 then
    return none
  else
    let name ← moveBytes name path len
    let name ← setByte name len 0
    return some name

/-- `kexec` with the buffers `path` and `name`. -/
def kexecBuf (L : Layout) (path name : List UInt8) : KernelM (BitVec 32) :=
  match execName path name with
  | none => kpanic .fault
  | some none => return -1
  | some (some name) => do
    let up ← getCore fun c => findUprog L.uprogTable
      (c.vm.mem.readBytes L.uprogTable (L.phystop - L.uprogTable)) name
    match up with
    | .fault => kpanic .fault
    | .null => return -1
    | .found up =>
      let p ← myproc
      let p ← deref p
      coreAtomic (execLoad L p up name)

/-- `sys_exec` with the buffers `path` and `name`. What `fetchstr` returns is a length and not
negative. -/
def sysExecBuf (L : Layout) (path name : List UInt8) : KernelM (BitVec 32) := do
  let _ ← argraw .a1
  let addr ← argraw .a0
  let p ← myproc
  let p ← deref p
  let pr ← getCore fun c => c.procs p
  let out ← coreAtomic (liftVm (Vm.copyinstrTo L pr.pagetable maxpath addr.toNat maxpath 0 path))
  if out.1 then
    match strlen out.2 with
    | none => kpanic .fault
    | some _ => kexecBuf L out.2 name
  else
    return -1

variable {L : Layout} {s : Vm} {buf path name str bs : List UInt8} {i n p max srcva fuel r : ℕ}

theorem length_overwrite (h : i + bs.length ≤ buf.length) :
    (overwrite buf i bs).length = buf.length := by
  simp only [overwrite, List.length_append, List.length_take, List.length_drop]
  omega

theorem overwrite_nil (buf : List UInt8) (i : ℕ) : overwrite buf i [] = buf := by
  simp [overwrite]

/-- Storing a byte and then the rest. -/
theorem overwrite_set (h : i < buf.length) (c : UInt8) (bs : List UInt8) :
    overwrite (buf.set i c) (i + 1) bs = overwrite buf i (c :: bs) := by
  have htake : (buf.set i c).take (i + 1) = buf.take i ++ [c] := by
    rw [List.set_eq_take_append_cons_drop, if_pos h, List.take_append, List.length_take,
      List.take_of_length_le (by rw [List.length_take]; omega), min_eq_left h.le,
      show i + 1 - i = 1 by omega, List.take_succ_cons, List.take_zero]
  have hdrop : (buf.set i c).drop (i + 1 + bs.length) = buf.drop (i + (c :: bs).length) := by
    rw [List.drop_set_of_lt (by omega), List.length_cons]
    congr 1
    omega
  rw [overwrite, overwrite, htake, hdrop, List.append_assoc, List.singleton_append,
    List.cons_append]

/-- Storing two runs of bytes one after the other. -/
theorem overwrite_append (h : i + bs.length ≤ buf.length) (bs' : List UInt8) :
    overwrite (overwrite buf i bs) (i + bs.length) bs' = overwrite buf i (bs ++ bs') := by
  have hpre : (buf.take i).length = i := by
    rw [List.length_take]
    omega
  have htake : (overwrite buf i bs).take (i + bs.length) = buf.take i ++ bs := by
    rw [overwrite, ← List.append_assoc, List.take_left' (by rw [List.length_append, hpre])]
  have hdrop : (overwrite buf i bs).drop (i + bs.length + bs'.length) =
      buf.drop (i + (bs ++ bs').length) := by
    rw [overwrite, ← List.append_assoc, ← List.drop_drop,
      List.drop_left' (by rw [List.length_append, hpre]), List.drop_drop, List.length_append,
      Nat.add_assoc]
  rw [overwrite, htake, hdrop, overwrite, List.append_assoc, List.append_assoc]

/-! ### `copyinstr` -/

/-- The bytes the inner loop stores: up to the first NUL, or all. -/
def upToNul (bs : List UInt8) : List UInt8 :=
  if (0 : UInt8) ∈ bs then bs.takeWhile (· ≠ 0) ++ [0] else bs

theorem upToNul_cons {c : UInt8} (hc : c ≠ 0) (bs : List UInt8) :
    upToNul (c :: bs) = c :: upToNul bs := by
  rw [upToNul, upToNul]
  by_cases h0 : (0 : UInt8) ∈ bs
  · rw [if_pos h0, if_pos (List.mem_cons_of_mem _ h0), List.takeWhile_cons_of_pos
      (by simpa using hc), List.cons_append]
  · rw [if_neg h0, if_neg fun h => (List.mem_cons.mp h).elim (fun h => hc h.symm) h0]

theorem length_upToNul_le (bs : List UInt8) : (upToNul bs).length ≤ bs.length := by
  induction bs with
  | nil => simp [upToNul]
  | cons c bs ih =>
    by_cases hc : c = 0
    · simp [upToNul, hc]
    · rw [upToNul_cons hc, List.length_cons, List.length_cons]
      omega

theorem copyinstrBytes_eq : ∀ (n p i : ℕ) (buf : List UInt8), i + n ≤ buf.length →
    Vm.copyinstrBytes n p i buf s = .ok ((decide ((0 : UInt8) ∈ s.mem.readBytes p n),
      overwrite buf i (upToNul (s.mem.readBytes p n))), s) := by
  intro n
  induction n with
  | zero =>
    intro p i buf _
    simp [Vm.copyinstrBytes, Mem.readBytes, upToNul, overwrite_nil]
  | succ n ih =>
    intro p i buf hlen
    have hcons : s.mem.readBytes p (n + 1) = s.mem p :: s.mem.readBytes (p + 1) n := by
      simp [Mem.readBytes, List.range_succ_eq_map, Function.comp_def, Nat.add_assoc, Nat.add_comm 1]
    have hi : i < buf.length := by omega
    have hput : ∀ c, Vm.putByte buf i c s = .ok (buf.set i c, s) := fun c => by
      simp [Vm.putByte, setByte, hi]
    rw [Vm.copyinstrBytes, PanicM.read_bind_apply, PanicM.bind_of_ok (hput _), hcons]
    by_cases hc : s.mem p = 0
    · rw [if_pos hc, hc]
      have hset := overwrite_set hi 0 []
      rw [overwrite_nil] at hset
      simp [upToNul, hset]
    · rw [if_neg hc, ih _ _ _ (by rw [List.length_set]; omega), upToNul_cons hc, overwrite_set hi]
      simp [Ne.symm hc]

/-- The buffer after `copyinstr`: the string with its NUL, or at least no more bytes than before. -/
def Landed (buf : List UInt8) (i : ℕ) (dst : List UInt8) :
    Option (List UInt8) → Bool × List UInt8 → Prop
  | some str, out => ∃ t, str = dst ++ t ∧ (0 : UInt8) ∉ t ∧
      out = (true, overwrite buf i (t ++ [0])) ∧ i + (t.length + 1) ≤ buf.length
  | none, out => out.1 = false ∧ out.2.length = buf.length

theorem Landed.append {dst : List UInt8} {res : Option (List UInt8)} {out : Bool × List UInt8}
    (hlen : i + bs.length ≤ buf.length) (h0 : (0 : UInt8) ∉ bs)
    (h : Landed (overwrite buf i bs) (i + bs.length) (dst ++ bs) res out) :
    Landed buf i dst res out := by
  cases res with
  | none => exact ⟨h.1, h.2.trans (length_overwrite hlen)⟩
  | some str =>
    obtain ⟨t, rfl, ht0, rfl, ht⟩ := h
    rw [length_overwrite hlen] at ht
    refine ⟨bs ++ t, by rw [List.append_assoc], ?_, ?_, by rw [List.length_append]; omega⟩
    · exact fun hmem => (List.mem_append.mp hmem).elim h0 ht0
    · rw [overwrite_append hlen, List.append_assoc]

/-- **`copyinstr` with its buffer** does what `copyinstr` says. -/
theorem copyinstrTo_eq : ∀ (fuel srcva max i : ℕ) (buf dst : List UInt8), i + max ≤ buf.length →
    (∃ e, Vm.copyinstrLoop L r fuel srcva max dst s = .error e ∧
      Vm.copyinstrTo L r fuel srcva max i buf s = .error e) ∨
    ∃ res out t, Vm.copyinstrLoop L r fuel srcva max dst s = .ok (res, t) ∧
      Vm.copyinstrTo L r fuel srcva max i buf s = .ok (out, t) ∧ Landed buf i dst res out := by
  intro fuel
  induction fuel generalizing s with
  | zero =>
    intro srcva max i buf dst _
    rw [Vm.copyinstrLoop, Vm.copyinstrTo]
    split_ifs
    · exact .inl ⟨_, rfl, rfl⟩
    · exact .inr ⟨_, _, _, rfl, rfl, rfl, rfl⟩
  | succ fuel ih =>
    intro srcva max i buf dst hlen
    rw [Vm.copyinstrLoop, Vm.copyinstrTo]
    by_cases hmax : 0 < max
    swap
    · rw [if_neg hmax, if_neg hmax]
      exact .inr ⟨_, _, _, rfl, rfl, rfl, rfl⟩
    rw [if_pos hmax, if_pos hmax]
    cases hwalk : Vm.walkaddr L r (pgRoundDown srcva) s with
    | error e => exact .inl ⟨e, PanicM.bind_of_error hwalk, PanicM.bind_of_error hwalk⟩
    | ok out =>
      obtain ⟨pa, s₁⟩ := out
      rw [PanicM.bind_of_ok hwalk, PanicM.bind_of_ok hwalk]
      by_cases hpa : pa = 0
      · rw [if_pos hpa, if_pos hpa]
        exact .inr ⟨_, _, _, rfl, rfl, rfl, rfl⟩
      rw [if_neg hpa, if_neg hpa, PanicM.read_bind_apply]
      have hle : min (pgsize - (srcva - pgRoundDown srcva)) max ≤ max := min_le_right _ _
      generalize min (pgsize - (srcva - pgRoundDown srcva)) max = n at hle ⊢
      rw [PanicM.bind_of_ok (copyinstrBytes_eq _ _ _ _ (by omega))]
      have hbytes : (s₁.mem.readBytes (pa + (srcva - pgRoundDown srcva)) n).length = n :=
        Mem.length_readBytes
      generalize s₁.mem.readBytes (pa + (srcva - pgRoundDown srcva)) n = bytes at hbytes ⊢
      by_cases hzero : (0 : UInt8) ∈ bytes
      · -- the string ends in this page
        have hstored := length_upToNul_le bytes
        simp only [decide_eq_true hzero, if_true, if_pos hzero, upToNul] at hstored ⊢
        rw [List.length_append, List.length_singleton, hbytes] at hstored
        refine .inr ⟨_, _, _, rfl, rfl, _, rfl, fun hmem => ?_, rfl, by omega⟩
        simpa using List.mem_takeWhile_imp hmem
      · simp only [decide_eq_false hzero, if_neg hzero, upToNul, Bool.false_eq_true, if_false]
        have hfit : i + bytes.length ≤ buf.length := by omega
        refine (ih _ (max - n) (i + n) (overwrite buf i bytes) (dst ++ bytes)
          (by rw [length_overwrite hfit]; omega)).imp_right ?_
        rintro ⟨res, out, t, hloop, hto, hlanded⟩
        exact ⟨res, out, t, hloop, hto, Landed.append hfit hzero (by rwa [hbytes])⟩

/-! ### `kexec` -/

theorem trimLen_append (str rest : List UInt8) :
    ∀ {len}, len ≤ str.length → trimLen (str ++ rest) len = trimLen str len := by
  intro len
  induction len with
  | zero => exact fun _ => rfl
  | succ len ih =>
    intro hlen
    rw [trimLen, trimLen, ih (by omega), List.getD_append _ _ _ _ (by omega)]

theorem trimLen_le (str : List UInt8) : ∀ len, trimLen str len ≤ len
  | 0 => le_rfl
  | len + 1 => by
    rw [trimLen]
    split_ifs
    · exact (trimLen_le str len).trans (Nat.le_succ _)
    · exact le_rfl

/-- What is left of a string is the string without the blanks at its end. -/
theorem take_trimLen (str : List UInt8) :
    str.take (trimLen str str.length) = str.rdropWhile isBlank := by
  induction str using List.reverseRecOn with
  | nil => rfl
  | append_singleton str c ih =>
    have hlast : (str ++ [c]).getD str.length 0 = c := by simp
    rw [List.length_append, List.length_singleton, trimLen, hlast]
    split_ifs with hc
    · rw [List.rdropWhile_concat_pos _ _ _ hc, ← ih, trimLen_append _ _ le_rfl,
        List.take_append_of_le_length (trimLen_le _ _)]
    · rw [List.rdropWhile_concat_neg _ _ _ hc, List.take_of_length_le (by simp)]

theorem trimLen_eq_zero_iff : trimLen str str.length = 0 ↔ str.rdropWhile isBlank = [] := by
  rw [← take_trimLen, List.take_eq_nil_iff]
  refine ⟨.inl, fun h => h.elim id ?_⟩
  rintro rfl
  rfl

/-- The name `kexec` looks up. -/
theorem execName_eq (hstr : (0 : UInt8) ∉ str) (rest : List UInt8)
    (hname : str.length < name.length) :
    execName (str ++ 0 :: rest) name = some
      (if str.rdropWhile isBlank = [] then none
      else some (str.rdropWhile isBlank ++ 0 :: name.drop
        ((str.rdropWhile isBlank).length + 1))) := by
  have hle := trimLen_le str str.length
  have hlen : (str.rdropWhile isBlank).length = trimLen str str.length := by
    rw [← take_trimLen, List.length_take, min_eq_left hle]
  have hzero : trimLen str str.length = 0 ↔ str.rdropWhile isBlank = [] := trimLen_eq_zero_iff
  rw [execName, strlen_asciz_append hstr]
  simp only [Option.bind_eq_bind, Option.bind_some, trimLen_append str (0 :: rest) le_rfl]
  by_cases hnil : str.rdropWhile isBlank = []
  · rw [if_pos (hzero.mpr hnil), if_pos hnil]
    rfl
  · rw [if_neg (hzero.not.mpr hnil), if_neg hnil]
    have hmove : moveBytes name (str ++ 0 :: rest) (trimLen str str.length) =
        some (str.rdropWhile isBlank ++ name.drop (trimLen str str.length)) := by
      rw [moveBytes, if_pos ⟨by omega, by rw [List.length_append]; omega⟩,
        List.take_append_of_le_length hle, take_trimLen]
    rw [hmove, Option.bind_some, setByte, if_pos, Option.bind_some]
    · rw [List.set_append_right _ _ hlen.le, hlen, Nat.sub_self,
        List.drop_eq_getElem_cons (show trimLen str str.length < name.length by omega),
          List.set_cons_zero]
      rfl
    · rw [List.length_append, List.length_drop, hlen]
      omega

/-- A comparison does not look behind the NUL of a name. -/
theorem strncmp_append {q : List UInt8} (rest : List UInt8) :
    ∀ {n : ℕ} {p : List UInt8}, n ≤ q.length → strncmp p (q ++ rest) n = strncmp p q n := by
  induction q with
  | nil =>
    intro n p hn
    obtain rfl : n = 0 := by simpa using hn
    simp [strncmp]
  | cons c q ih =>
    intro n p hn
    cases n with
    | zero => simp [strncmp]
    | succ n =>
      cases p with
      | nil => rfl
      | cons b p =>
        rw [List.cons_append, strncmp, strncmp, ih (by simpa using hn)]

theorem findUprogLoop_append (hstr : (0 : UInt8) ∉ str) (rest : List UInt8) :
    ∀ (fuel p : ℕ) (t : List UInt8), findUprogLoop (str ++ 0 :: rest) fuel p t =
      findUprogLoop (asciz str) fuel p t := by
  have hlen : strlen (str ++ 0 :: rest) = strlen (asciz str) := by
    rw [asciz, strlen_asciz_append hstr, strlen_asciz_append hstr]
  have hcmp : ∀ q, strncmp q (str ++ 0 :: rest) (str.length + 1) =
      strncmp q (asciz str) (str.length + 1) := fun q => by
    rw [asciz, show str ++ 0 :: rest = str ++ [0] ++ rest by simp,
      strncmp_append _ (by simp)]
  intro fuel
  induction fuel with
  | zero => exact fun _ _ => rfl
  | succ fuel ih =>
    intro p t
    rw [findUprogLoop, findUprogLoop, hlen, asciz, strlen_asciz_append hstr]
    simp only [hcmp, ih]
    rfl

/-- **`find_uprog` looks at the string in its buffer** and at nothing behind it. -/
theorem findUprog_append (hstr : (0 : UInt8) ∉ str) (rest table : List UInt8) (base : ℕ) :
    findUprog base table (str ++ 0 :: rest) = findUprog base table (asciz str) :=
  findUprogLoop_append hstr rest _ _ _

theorem safestrcpyLoop_append (hstr : (0 : UInt8) ∉ str) (rest : List UInt8) :
    ∀ (n : ℕ) (s : List UInt8), safestrcpyLoop s (str ++ 0 :: rest) n = safestrcpyLoop s str n := by
  induction str with
  | nil =>
    intro n s
    cases n <;> simp [safestrcpyLoop]
  | cons c str ih =>
    intro n s
    simp only [List.mem_cons, not_or] at hstr
    cases n with
    | zero => rfl
    | succ n =>
      rw [safestrcpyLoop, safestrcpyLoop]
      simp only [List.cons_append, List.headD_cons, List.tail_cons, ih hstr.2]
      rfl

theorem execLoad_append (hstr : (0 : UInt8) ∉ str) (rest : List UInt8) (p : Slot) (up : ℕ) :
    execLoad L p up (str ++ 0 :: rest) = execLoad L p up str := by
  have hcopy : ∀ s : List UInt8, safestrcpy s (str ++ 0 :: rest) 16 = safestrcpy s str 16 :=
    fun s => safestrcpyLoop_append hstr rest 15 s
  have hcommit : ∀ pt total, Core.execCommit p pt total (str ++ 0 :: rest) =
      Core.execCommit p pt total str := fun pt total => by
    funext c
    simp only [Core.execCommit, hcopy]
  simp only [execLoad, execInto, hcommit]

/-- **`kexec` with its buffers** is `kexec`. -/
theorem kexecBuf_eq (hstr : (0 : UInt8) ∉ str) (rest : List UInt8)
    (hname : str.length < name.length) :
    kexecBuf L (str ++ 0 :: rest) name = kexec L str := by
  have hzero : trimLen str str.length = 0 ↔ str.rdropWhile isBlank = [] := trimLen_eq_zero_iff
  have htrim : (0 : UInt8) ∉ str.rdropWhile isBlank := fun h =>
    hstr ((List.rdropWhile_prefix _ _).subset h)
  rw [kexecBuf, execName_eq hstr rest hname, kexec]
  by_cases hnil : str.rdropWhile isBlank = []
  · simp only [if_pos hnil, if_pos (hzero.mpr hnil)]
  · simp only [if_neg hnil, if_neg (hzero.not.mpr hnil), take_trimLen, findUprog_append htrim,
      execLoad_append htrim]
    rfl

/-- **`sys_exec` with its buffers** is `sys_exec`: nothing is stored outside the buffers, and what
was in them does not matter. -/
theorem sysExecBuf_eq (hpath : path.length = maxpath) (hname : name.length = maxpath) :
    sysExecBuf L path name = sysExec L := by
  simp only [sysExecBuf, sysExec, fetchstr, Prog.bind_assoc]
  refine congrArg (argraw .a1 >>= ·) (funext fun _ => congrArg (argraw .a0 >>= ·)
    (funext fun addr =>
    congrArg (myproc >>= ·) (funext fun q => congrArg (deref q >>= ·) (funext fun p =>
      congrArg (getCore (fun c => c.procs p) >>= ·) (funext fun pr => ?_)))))
  refine vmAtomic_bind_congr fun v => ?_
  rcases copyinstrTo_eq (L := L) (s := v) (r := pr.pagetable) maxpath addr.toNat maxpath 0 path []
    (by omega) with ⟨e, hloop, hto⟩ | ⟨res, out, t, hloop, hto, hlanded⟩
  · exact .inl ⟨e, hto, hloop⟩
  · refine .inr ⟨out, res, t, hto, hloop, ?_⟩
    cases res with
    | none => rw [if_neg (by simp [hlanded.1])]
    | some str =>
      obtain ⟨t, rfl, hstr, rfl, hlen⟩ := hlanded
      have hbuf : overwrite path 0 (str ++ [0]) = str ++ 0 :: path.drop (str.length + 1) := by
        simp [overwrite]
      simp only [if_true, hbuf, strlen_asciz_append hstr]
      exact kexecBuf_eq hstr _ (by omega)

/-! ### `sys_exec` -/

section Run

variable {c : K} {p : Slot}

theorem run_argraw (hp : c.core.cproc = some p) (r : Reg) :
    ∃ h, (argraw r).run c = .ok (c.core.tfLoad p r.offset, { c with hart := h }) :=
  ⟨_, run_myproc_bind hp fun p => getCore fun c => c.tfLoad p r.offset⟩

/-- `fetchstr` is `copyinstr` with the page table of the process. -/
theorem run_fetchstr (hp : c.core.cproc = some p) {addr max : ℕ} {res : Option (List UInt8)}
    (hcopy : Vm.copyinstr L (c.core.procs p).pagetable addr max c.core.vm = .ok (res, c.core.vm)) :
    ∃ h, (fetchstr L addr max).run c = .ok (res, { c with hart := h }) :=
  ⟨_, (run_myproc_bind hp fun p => do
    let pr ← getCore fun c => c.procs p
    coreAtomic (liftVm (Vm.copyinstr L pr.pagetable addr max))).trans (run_vmAtomic hcopy)⟩

/-- `sys_exec` once `copyinstr` has returned. -/
theorem run_sysExec (hp : c.core.cproc = some p) {res : Option (List UInt8)}
    (hcopy : Vm.copyinstr L (c.core.procs p).pagetable (c.core.tfLoad p Reg.a0.offset).toNat maxpath
      c.core.vm = .ok (res, c.core.vm)) :
    ∃ h, (sysExec L).run c = (match res with
      | none => return -1
      | some path => kexec L path : KernelM (BitVec 32)).run { c with hart := h } := by
  obtain ⟨h₁, hrun₁⟩ := run_argraw hp .a1
  obtain ⟨h₂, hrun₂⟩ := run_argraw (c := { c with hart := h₁ }) hp .a0
  obtain ⟨h₃, hrun₃⟩ := run_fetchstr (c := { c with hart := h₂ }) hp hcopy
  refine ⟨h₃, ?_⟩
  rw [sysExec, Prog.run_bind_of_ok hrun₁, Prog.run_bind_of_ok hrun₂]
  exact Prog.run_bind_of_ok hrun₃

/-- `kexec` looks the name up. -/
theorem run_kexec (hp : c.core.cproc = some p) (str : List UInt8) :
    (str.rdropWhile isBlank = [] ∨ c.core.findUprog L (str.rdropWhile isBlank) = .null →
      (kexec L str).run c = .ok (-1, c)) ∧
    ∀ up, str.rdropWhile isBlank ≠ [] → c.core.findUprog L (str.rdropWhile isBlank) = .found up →
      ∃ h, (kexec L str).run c =
        (coreAtomic (execLoad L p up (str.rdropWhile isBlank))).run { c with hart := h } := by
  have hzero : trimLen str str.length = 0 ↔ str.rdropWhile isBlank = [] := trimLen_eq_zero_iff
  have hsome : str.rdropWhile isBlank ≠ [] → (kexec L str).run c =
      (match c.core.findUprog L (str.rdropWhile isBlank) with
        | .fault => kpanic .fault
        | .null => return -1
        | .found up => do
          let p ← myproc
          let p ← deref p
          coreAtomic (execLoad L p up (str.rdropWhile isBlank)) : KernelM (BitVec 32)).run c := by
    intro hnil
    rw [kexec]
    simp only [if_neg (hzero.not.mpr hnil), take_trimLen]
    rfl
  constructor
  · intro h
    by_cases hnil : str.rdropWhile isBlank = []
    · rw [kexec]
      simp only [if_pos (hzero.mpr hnil)]
      rfl
    · rw [hsome hnil, h.resolve_left hnil]
      rfl
  · intro up hnil hup
    refine ⟨c.hart.visited, ?_⟩
    rw [hsome hnil, hup]
    exact run_myproc_bind hp fun p => coreAtomic (execLoad L p up (str.rdropWhile isBlank))

end Run

/-- **`sys_exec` resolves names safely and exactly.** Let `addr` be the path argument of the running
process. With any buffer of `MAXPATH` bytes `copyinstr` succeeds exactly if a string with its NUL
lies within the first `MAXPATH` bytes at `addr`, and then the buffer begins with the string and the
NUL and is otherwise unchanged; it has `MAXPATH` bytes in any case. `sys_exec` with such buffers is
`sys_exec`. It returns −1 with the data structures unchanged if there is no string, if the string
without trailing blanks is empty, or if there is no program of that name; otherwise it goes on to
load the program of that name. -/
theorem sysExec_resolves {c : K} {p : Slot} (hp : c.core.cproc = some p)
    (hnull : NonNull c.core.vm.mem (c.core.procs p).pagetable) {path name : List UInt8}
    (hpath : path.length = maxpath) (hname : name.length = maxpath) :
    let m := c.core.vm.mem
    let r := (c.core.procs p).pagetable
    let addr := (c.core.tfLoad p Reg.a0.offset).toNat
    ((Vm.copyinstrTo L r maxpath addr maxpath 0 path).Returns c.core.vm fun out v =>
      v = c.core.vm ∧ out.2.length = maxpath ∧
      (out.1 = true ↔ ∃ k, k < maxpath ∧ m.StringAt r addr k) ∧
      ∀ k, k < maxpath → m.StringAt r addr k →
        out.2 = m.userBytes r addr k ++ 0 :: path.drop (k + 1)) ∧
    sysExecBuf L path name = sysExec L ∧
    ((∀ k, k < maxpath → ¬m.StringAt r addr k) →
      ∃ h, (sysExec L).run c = .ok (-1, { c with hart := h })) ∧
    ∀ k, k < maxpath → m.StringAt r addr k →
      let str := (m.userBytes r addr k).rdropWhile isBlank
      (str = [] ∨ c.core.findUprog L str = .null →
        ∃ h, (sysExec L).run c = .ok (-1, { c with hart := h })) ∧
      ∀ up, str ≠ [] → c.core.findUprog L str = .found up →
        ∃ h, (sysExec L).run c = (coreAtomic (execLoad L p up str)).run { c with hart := h } := by
  intro m r addr
  obtain ⟨res, v, hcopy, rfl, hres⟩ := hnull.copyinstr_returns (L := L) addr maxpath
  obtain ⟨h, hrun⟩ := run_sysExec hp hcopy
  refine ⟨?_, sysExecBuf_eq hpath hname, fun hno => ?_, fun k hk hstr => ?_⟩
  · rcases copyinstrTo_eq (L := L) (s := c.core.vm) (r := r) maxpath addr maxpath 0 path []
      (by omega) with ⟨e, hloop, -⟩ | ⟨res', out, t, hloop, hto, hlanded⟩
    · rw [show Vm.copyinstrLoop L r maxpath addr maxpath [] c.core.vm = _ from hcopy] at hloop
      cases hloop
    · rw [show Vm.copyinstrLoop L r maxpath addr maxpath [] c.core.vm = _ from hcopy] at hloop
      cases hloop
      refine PanicM.returns_of_ok hto ⟨rfl, ?_⟩
      rcases hres with ⟨k, hk, hstr, rfl⟩ | ⟨hno, rfl⟩
      · obtain ⟨t, ht, -, rfl, hlen⟩ := hlanded
        obtain rfl : m.userBytes r addr k = t := ht
        refine ⟨?_, iff_of_true rfl ⟨k, hk, hstr⟩, fun j _ hj => ?_⟩
        · exact (length_overwrite (by simpa using hlen)).trans hpath
        · obtain rfl := hj.unique hstr
          simp [overwrite]
      · obtain ⟨hfalse, hlen⟩ := hlanded
        refine ⟨hlen.trans hpath, ?_, fun k hk hstr => absurd hstr (hno k hk)⟩
        rw [hfalse]
        exact iff_of_false (by decide) fun ⟨k, hk, hstr⟩ => hno k hk hstr
  · rcases hres with ⟨k, hk, hstr, -⟩ | ⟨-, rfl⟩
    · exact absurd hstr (hno k hk)
    · exact ⟨h, hrun⟩
  · rcases hres with ⟨j, hj, hstr', rfl⟩ | ⟨hno, -⟩
    · obtain rfl := hstr.unique hstr'
      obtain ⟨hnone, hfound⟩ := run_kexec (c := { c with hart := h }) (L := L) hp
        (m.userBytes r addr k)
      refine ⟨fun hn => ⟨h, hrun.trans (hnone hn)⟩, fun up hnil hup => ?_⟩
      obtain ⟨h', hrun'⟩ := hfound up hnil hup
      exact ⟨h', hrun.trans hrun'⟩
    · exact absurd hstr (hno k hk)

/-- A program `sh` of eight bytes, which are zero. -/
def shEntry : Entry where
  start := 0x80010018
  stop := 0x80010020
  name := cstr "sh"
  pad := List.replicate 5 0
  start_lt := by decide
  stop_lt := by decide
  not_terminator := by decide
  nul_free := by decide
  padded := by decide

section Named

variable {path : List UInt8}

/-- The process with one page of memory, which begins with `path`, on a machine with the program
`sh`. -/
def namedCore (path : List UInt8) : Core :=
  onePageCore.setMem ((onePageVm.mem.writeBytes Layout.virt.uprogTable shEntry.bytes).writeBytes
    0x80044000 path)

theorem namedCore_frame {a : ℕ} (ha : 0x80011000 ≤ a)
    (ha' : a < 0x80044000 ∨ 0x80044000 + path.length ≤ a) :
    (namedCore path).vm.mem a = onePageVm.mem a := by
  have hlen : Layout.virt.uprogTable + shEntry.bytes.length ≤ 0x80011000 := by decide
  refine Eq.trans ?_ (Mem.writeBytes_of_ge (hlen.trans ha))
  rcases ha' with hlt | hge
  · exact Mem.writeBytes_of_lt hlt
  · exact Mem.writeBytes_of_ge hge

theorem namedCore_userTable (path : List UInt8) :
    UserTable (namedCore path).vm.mem 0x80041000 ∧ ∀ w, w < 2 ^ 27 →
      (namedCore path).vm.mem.entry 0x80041000 w = onePageVm.mem.entry 0x80041000 w := by
  refine onePageVm_userTable.congr fun q hq i hi => namedCore_frame ?_ (.inl ?_)
  all_goals rcases onePageVm_spec.2.1 q hq with rfl | rfl | rfl <;> omega

/-- The image has the program. -/
theorem namedCore_image {a : ℕ} (ha : a < Layout.virt.heap) :
    (namedCore path).vm.mem a = Mem.ofTable .virt [shEntry] a := by
  have hheap : Layout.virt.heap = 0x80040000 := by decide
  have hlt : a < 0x80044000 := by omega
  have hzero : onePageVm.mem a = 0 := onePageVm_zero (.inl (by omega))
  exact (Mem.writeBytes_of_lt hlt).trans (Mem.writeBytes_congr hzero)

theorem namedCore_stringAt (hlen : path.length < 4096) (hnul : (0 : UInt8) ∉ path) :
    (namedCore path).vm.mem.StringAt 0x80041000 0 path.length ∧
      (namedCore path).vm.mem.userBytes 0x80041000 0 path.length = path := by
  have hentry := (namedCore_userTable path).2
  have hphys : ∀ k, k < 4096 →
      (namedCore path).vm.mem.phys 0x80041000 (0 + k) = 0x80044000 + k := by
    intro k hk
    rw [Nat.zero_add, Mem.phys_congr hentry (by omega), onePageVm_phys hk]
  have hbyte : ∀ k, (hk : k < path.length) →
      (namedCore path).vm.mem ((namedCore path).vm.mem.phys 0x80041000 (0 + k)) = path[k] := by
    intro k hk
    rw [hphys k (by omega)]
    exact Mem.writeBytes_add (List.getElem?_eq_getElem hk)
  refine ⟨⟨fun j hj => ?_, ?_, fun j hj hzero => ?_⟩, ?_⟩
  · rw [Nat.zero_add, Mem.loadable_congr hentry]
    exact (onePageVm_storable (by omega)).loadable
  · rw [hphys _ hlen, namedCore_frame (by omega) (.inr le_rfl), onePageVm_zero (.inr (by omega))]
  · rw [hbyte j hj] at hzero
    exact hnul (hzero ▸ List.getElem_mem hj)
  · refine List.ext_getElem (by simp) fun k _ hk => ?_
    simpa [Mem.userBytes] using hbyte k hk

theorem namedCore_a0 (hlen : path.length < 4096) :
    ((namedCore path).tfLoad 0 Reg.a0.offset).toNat = 0 := by
  have hzero : (namedCore path).vm.mem.load64 (0x80051000 + Reg.a0.offset) = 0 :=
    Mem.load64_eq_zero fun i hi => by
      rw [namedCore_frame (by omega) (.inr (by omega)), onePageVm_zero (.inr (by omega))]
  rw [Core.tfLoad, show ((namedCore path).procs 0).trapframe = 0x80051000 from rfl, hzero]
  rfl

end Named

/-- A process calls `exec` of "sh " and one of "ls", on a machine with the program `sh`. -/
theorem sysExec_resolves_named :
    (∃ h, (sysExec .virt).run ⟨namedCore (cstr "sh "), .plain .virt⟩ =
      (coreAtomic (execLoad .virt 0 Layout.virt.uprogTable (cstr "sh"))).run
        ⟨namedCore (cstr "sh "), h⟩) ∧
    ∃ h, (sysExec .virt).run ⟨namedCore (cstr "ls"), .plain .virt⟩ =
      .ok (-1, ⟨namedCore (cstr "ls"), h⟩) := by
  have hlen : (List.replicate maxpath (0 : UInt8)).length = maxpath := List.length_replicate
  have hres : ∀ path : List UInt8, path.length < maxpath → (0 : UInt8) ∉ path →
      (path.rdropWhile isBlank = [] ∨
        (namedCore path).findUprog .virt (path.rdropWhile isBlank) = .null →
        ∃ h, (sysExec .virt).run ⟨namedCore path, .plain .virt⟩ = .ok (-1, ⟨namedCore path, h⟩)) ∧
      ∀ up, path.rdropWhile isBlank ≠ [] →
        (namedCore path).findUprog .virt (path.rdropWhile isBlank) = .found up →
        ∃ h, (sysExec .virt).run ⟨namedCore path, .plain .virt⟩ =
          (coreAtomic (execLoad .virt 0 up (path.rdropWhile isBlank))).run ⟨namedCore path, h⟩ := by
    intro path hpath hnul
    have hres := (sysExec_resolves (L := .virt) (c := ⟨namedCore path, .plain .virt⟩) (p := 0) rfl
      (namedCore_userTable path).1.toNonNull hlen hlen).2.2.2 path.length hpath
    rw [show ((K.mk (namedCore path) (.plain .virt)).core.tfLoad 0 Reg.a0.offset).toNat = 0 from
      namedCore_a0 (hpath.trans (by decide))] at hres
    obtain ⟨hstr, hbytes⟩ := namedCore_stringAt (hpath.trans (by decide)) hnul
    replace hres := hres hstr
    rw [show Mem.userBytes (K.mk (namedCore path) (.plain .virt)).core.vm.mem
      ((namedCore path).procs 0).pagetable 0 path.length = path from hbytes] at hres
    exact hres
  have hfits : Layout.virt.uprogTable + ([shEntry].flatMap Entry.bytes).length + 16 ≤
      Layout.virt.heap := by decide
  have hsh : (cstr "sh ").rdropWhile isBlank = cstr "sh" := by decide
  have hls : (cstr "ls").rdropWhile isBlank = cstr "ls" := by decide
  constructor
  · have hfound := (hres (cstr "sh ") (by decide) (by decide)).2 Layout.virt.uprogTable
    rw [hsh] at hfound
    exact hfound (by decide)
      (Core.findUprog_ofTable (e := shEntry) hfits fun _ ha => namedCore_image ha).1
  · refine (hres (cstr "ls") (by decide) (by decide)).1 (.inr ?_)
    rw [hls]
    exact Core.findUprog_ofTable_eq_null hfits (fun _ ha => namedCore_image ha) (by decide)
      (firstNamed_eq_none.mpr (by decide))

end OsKernel
