import OsKernel.Kernel.System
import OsKernel.Vm.Access

/-!
# What `consolewrite` sends

`consolewrite(1, src, n)` goes through the user's bytes in chunks of 32: a chunk is copied into a
buffer on the stack and then sent byte by byte. `copyin` may stop in the middle of a chunk, with
part of the buffer filled; nothing of such a chunk is sent. So the bytes that have left the UART
are at any time the first `i` bytes at `src`, and the loop ends early only in front of a chunk
with a byte that the user cannot read.

The source address is an arbitrary 64-bit number. The sum `src + i` never wraps: a byte was read
at every address below it, and such addresses lie below `MAXVA`.
-/

namespace OsKernel

variable {L : Layout} {c : K} {p : Slot} {src : ℕ} {n i : BitVec 32}

/-- The data structures after the kernel has sent `bytes`. -/
def Core.sent (c : Core) (bytes : List UInt8) : Core := { c with tx := c.tx ++ bytes }

@[simp] theorem Core.sent_nil (c : Core) : c.sent [] = c := by
  simp [Core.sent]

theorem Core.sent_sent (c : Core) (xs ys : List UInt8) :
    (c.sent xs).sent ys = c.sent (xs ++ ys) := by
  simp [Core.sent]

/-! ### Sending -/

theorem run_uartputcSync (c : K) (b : UInt8) :
    (uartputcSync [] b).run c = .ok ((), ⟨c.core.sent [b], c.hart.visited⟩) :=
  run_popOff (s := ⟨c.core.sent [b], c.hart.pushed⟩) c.hart.sie_pushed (Nat.succ_pos _)

/-- By itself `putBytes` sends the bytes and leaves everything else alone, up to `intena` if
interrupts are off while a section is open. -/
theorem run_putBytes (bytes : List UInt8) :
    ∀ c : K, ∃ h, (putBytes bytes).run c = .ok ((), ⟨c.core.sent bytes, h⟩) ∧
      ((0 < c.hart.noff → c.hart.sie = false) → ∃ b, h = { c.hart with intena := b }) := by
  induction bytes with
  | nil => exact fun c => ⟨c.hart, by rw [Core.sent_nil]; rfl, fun _ => ⟨_, rfl⟩⟩
  | cons b bytes ih =>
    intro c
    obtain ⟨h, hrun, hsame⟩ := ih ⟨c.core.sent [b], c.hart.visited⟩
    refine ⟨h, ?_, fun hoff => ?_⟩
    · rw [putBytes, Prog.run_bind_of_ok (run_uartputcSync c b), hrun, Core.sent_sent]
      rfl
    · obtain ⟨ia, hia⟩ := Hart.visited_eq hoff
      simp only [hia] at hsame
      obtain ⟨ia', rfl⟩ := hsame hoff
      exact ⟨ia', rfl⟩

/-- By itself `either_copyin` from the user is `copyin` with the page table of the process. -/
theorem run_eitherCopyin (hp : c.core.cproc = some p) {len : ℕ} {res : Option (List UInt8)}
    (hcopy : Vm.copyin L (c.core.procs p).pagetable src len c.core.vm = .ok (res, c.core.vm)) :
    ∃ h, (eitherCopyin L true src len).run c = .ok (res, { c with hart := h }) :=
  ⟨_, (run_myproc_bind hp fun p => do
    let pr ← getCore fun c => c.procs p
    coreAtomic (liftVm (Vm.copyin L pr.pagetable src len))).trans (run_vmAtomic hcopy)⟩

/-! ### The arithmetic of the loop -/

theorem slt_iff_toNat_lt {x y : BitVec 32} (hx : x.toNat < 2 ^ 31) (hy : y.toNat < 2 ^ 31) :
    x.slt y = true ↔ x.toNat < y.toNat := by
  rw [BitVec.slt_iff_toInt_lt, BitVec.toInt_eq_toNat_of_lt (by omega),
    BitVec.toInt_eq_toNat_of_lt (by omega), Int.ofNat_lt]

/-- The number of bytes of the next chunk. -/
def chunk (n i : BitVec 32) : BitVec 32 := if (n - i).slt 32 then n - i else 32

theorem toNat_chunk (hn : n.toNat < 2 ^ 31) (hi : i.toNat < n.toNat) :
    (chunk n i).toNat = min 32 (n.toNat - i.toNat) := by
  have hsub : (n - i).toNat = n.toNat - i.toNat := BitVec.toNat_sub_of_le (BitVec.le_def.mpr hi.le)
  have hslt : (n - i).slt 32 = true ↔ n.toNat - i.toNat < 32 := by
    rw [slt_iff_toNat_lt (by omega) (by decide), hsub]
    rfl
  rw [chunk]
  split_ifs with h
  · rw [hsub]
    have := hslt.mp h
    omega
  · have := hslt.not.mp h
    show 32 = _
    omega

theorem toNat_add_chunk (hn : n.toNat < 2 ^ 31) (hi : i.toNat < n.toNat) :
    (i + chunk n i).toNat = i.toNat + (chunk n i).toNat := by
  have := toNat_chunk hn hi
  rw [BitVec.toNat_add_of_lt]
  omega

/-! ### The loop -/

/-- A round that finds nothing left to send. -/
theorem next_consolewrite_done (h : i.slt n = false) :
    (kernel L).Next (.consolewrite p src n i, c) (.sysret p (i.signExtend 64), c) := by
  refine ⟨_, rfl, ?_⟩
  rw [consolewriteRound, if_neg (by simp [h])]
  rfl

/-- A round with a chunk before it: the chunk is sent, or the loop ends. -/
theorem next_consolewrite (hp : c.core.cproc = some p)
    (hnull : NonNull c.core.vm.mem (c.core.procs p).pagetable) (hlt : i.slt n = true)
    (hsrc : src + i.toNat < wordSize) :
    let m := c.core.vm.mem
    let r := (c.core.procs p).pagetable
    let len := (chunk n i).toNat
    ∃ h, (∀ k, k < len → m.Loadable r (src + i.toNat + k)) ∧
        (kernel L).Next (.consolewrite p src n i, c) (.consolewrite p src n (i + chunk n i),
          ⟨c.core.sent (m.userBytes r (src + i.toNat) len), h⟩) ∨
      (∃ k, k < len ∧ ¬m.Loadable r (src + i.toNat + k)) ∧
        (kernel L).Next (.consolewrite p src n i, c)
          (.sysret p (i.signExtend 64), { c with hart := h }) := by
  intro m r len
  obtain ⟨res, v, hcopy, rfl, hres⟩ := hnull.copyin_returns (L := L) (src + i.toNat) len
  obtain ⟨h₁, hin⟩ := run_eitherCopyin hp hcopy
  have hnext : ∀ l t, (consolewriteRound L p src n i).run c = .ok (l, t) →
      (kernel L).Next (.consolewrite p src n i, c) (l, t) := fun _ _ hrun => ⟨_, rfl, hrun⟩
  rw [consolewriteRound, if_pos hlt, Nat.mod_eq_of_lt hsrc] at hnext
  rcases hres with ⟨hall, rfl⟩ | ⟨hsome, rfl⟩
  · obtain ⟨h₂, hput, -⟩ := run_putBytes (m.userBytes r (src + i.toNat) len) { c with hart := h₁ }
    refine ⟨h₂, .inl ⟨hall, hnext _ _ ((Prog.run_bind_of_ok hin).trans ?_)⟩⟩
    exact Prog.run_bind_of_ok hput
  · exact ⟨h₁, .inr ⟨hsome, hnext _ _ (Prog.run_bind_of_ok hin)⟩⟩

/-- From its `i`-th byte on the call returns `j` in the end, and has then sent the first `j` bytes;
if bytes are left, one of the next chunk cannot be read. -/
def Finishes (L : Layout) (p : Slot) (src : ℕ) (n i : BitVec 32) (c : K) (c₀ : Core)
    (j : BitVec 32) : Prop :=
  let m := c₀.vm.mem
  let r := (c₀.procs p).pagetable
  (∃ h, Relation.ReflTransGen (kernel L).Next (.consolewrite p src n i, c)
    (.sysret p (j.signExtend 64), ⟨c₀.sent (m.userBytes r src j.toNat), h⟩)) ∧
  (j.toNat < n.toNat → ∃ k, j.toNat ≤ k ∧ k < min (j.toNat + 32) n.toNat ∧ ¬m.Loadable r (src + k))

/-- **The loop of `consolewrite`** from the `i`-th byte on, after the first `i` bytes were sent. -/
theorem consolewrite_finishes {c₀ : Core} (hp : c₀.cproc = some p)
    (hnull : NonNull c₀.vm.mem (c₀.procs p).pagetable) (hsrc : src < wordSize)
    (hn : n.toNat < 2 ^ 31) : ∀ (d : ℕ) (i : BitVec 32) (h : Hart), n.toNat - i.toNat ≤ d →
      i.toNat ≤ n.toNat →
      (∀ k, k < i.toNat → c₀.vm.mem.Loadable (c₀.procs p).pagetable (src + k)) →
      ∃ j, Finishes L p src n i
        ⟨c₀.sent (c₀.vm.mem.userBytes (c₀.procs p).pagetable src i.toNat), h⟩ c₀ j ∧
        j.toNat ≤ n.toNat := by
  intro d
  induction d with
  | zero =>
    intro i h hd hi _
    have hdone : i.slt n = false := by
      rw [Bool.eq_false_iff]
      exact (slt_iff_toNat_lt (by omega) hn).not.mpr (by omega)
    exact ⟨i, ⟨⟨h, .single (next_consolewrite_done hdone)⟩, by omega⟩, hi⟩
  | succ d ih =>
    intro i h hd hi hread
    by_cases hlt : i.toNat < n.toNat
    swap
    · exact ih i h (by omega) hi hread
    have hwrap : src + i.toNat < wordSize := by
      rcases Nat.eq_zero_or_pos i.toNat with h0 | hpos
      · omega
      · have := (hread (i.toNat - 1) (by omega)).lt
        simp only [wordSize]
        omega
    have hlen := toNat_chunk hn hlt
    obtain ⟨h', hstep⟩ := next_consolewrite (L := L) (p := p) (n := n)
      (c := ⟨c₀.sent (c₀.vm.mem.userBytes (c₀.procs p).pagetable src i.toNat), h⟩) hp hnull
      ((slt_iff_toNat_lt (by omega) hn).mpr hlt) hwrap
    rcases hstep with ⟨hall, hnext⟩ | ⟨⟨k, hk, hno⟩, hnext⟩
    · -- the chunk joins what was sent, and the rest follows by induction
      rw [Core.sent_sent] at hnext
      have hadd := toNat_add_chunk hn hlt
      have hbytes := c₀.vm.mem.userBytes_add (c₀.procs p).pagetable src i.toNat (chunk n i).toNat
      obtain ⟨j, ⟨⟨h'', hrun⟩, hstop⟩, hj⟩ := ih (i + chunk n i) h' (by omega) (by omega) (by
        intro k hk
        rcases Nat.lt_or_ge k i.toNat with hlow | hhigh
        · exact hread k hlow
        · have := hall (k - i.toNat) (by omega)
          rwa [Nat.add_assoc, Nat.add_sub_cancel' hhigh] at this)
      rw [hadd, hbytes] at hrun
      exact ⟨j, ⟨⟨h'', .head hnext hrun⟩, hstop⟩, hj⟩
    · refine ⟨i, ⟨⟨h', .single hnext⟩, fun _ => ⟨i.toNat + k, by omega, by omega, ?_⟩⟩, hi⟩
      rwa [← Nat.add_assoc]

/-- **`consolewrite` emits exactly the prefix it reports.** For every source address and every `n`
the call returns some `i` with `0 ≤ i ≤ max n 0`. What it has sent are the `i` bytes of the user's
memory at `src`, and it changes nothing else. If `i < n` then one of the next 32 bytes, or of what
is left of the `n` bytes, is not on a page the user can read. -/
theorem consolewrite_sends_prefix (hp : c.core.cproc = some p)
    (hnull : NonNull c.core.vm.mem (c.core.procs p).pagetable) (hsrc : src < wordSize)
    (n : BitVec 32) :
    let m := c.core.vm.mem
    let r := (c.core.procs p).pagetable
    ∃ (i : BitVec 32) (h : Hart), Relation.ReflTransGen (kernel L).Next (.consolewrite p src n 0, c)
        (.sysret p (i.signExtend 64), ⟨c.core.sent (m.userBytes r src i.toNat), h⟩) ∧
      0 ≤ i.toInt ∧ i.toInt ≤ max n.toInt 0 ∧
      (i.toInt < n.toInt → ∃ k : ℕ, i.toInt ≤ k ∧ k < min (i.toInt + 32) n.toInt ∧
        ¬m.Loadable r (src + k)) := by
  intro m r
  by_cases hn : n.toNat < 2 ^ 31
  · obtain ⟨i, ⟨⟨h, hrun⟩, hstop⟩, hi⟩ := consolewrite_finishes (L := L) hp hnull hsrc hn n.toNat 0
      c.hart (by simp) (by simp) (by simp)
    rw [show (0 : BitVec 32).toNat = 0 from rfl, Mem.userBytes_zero, Core.sent_nil] at hrun
    have hni : n.toInt = n.toNat := BitVec.toInt_eq_toNat_of_lt (by omega)
    have hii : i.toInt = i.toNat := BitVec.toInt_eq_toNat_of_lt (by omega)
    refine ⟨i, h, hrun, by omega, by omega, fun hlt => ?_⟩
    obtain ⟨k, hk, hk', hno⟩ := hstop (by omega)
    exact ⟨k, by omega, by omega, hno⟩
  · -- a negative `n`: the loop is not entered
    have hneg : n.toInt < 0 := by
      have := n.isLt
      rw [BitVec.toInt_eq_toNat_cond]
      split_ifs <;> omega
    have hdone : (0 : BitVec 32).slt n = false := by
      rw [Bool.eq_false_iff, Ne, BitVec.slt_iff_toInt_lt]
      exact not_lt.mpr hneg.le
    refine ⟨0, c.hart, ?_, by simp, by simp, fun hlt => ?_⟩
    · rw [show (0 : BitVec 32).toNat = 0 from rfl, Mem.userBytes_zero, Core.sent_nil]
      exact .single (next_consolewrite_done hdone)
    · exact absurd hneg (not_lt.mpr hlt.le)

/-- A write that runs over the end of the only page of a process. -/
theorem consolewrite_sends_prefix_onePage : NonNull onePageCore.vm.mem 0x80041000 ∧
    ∃ (i : BitVec 32) (h : Hart), Relation.ReflTransGen (kernel .virt).Next
        (.consolewrite 0 4000 200 0, onePageK .virt)
        (.sysret 0 (i.signExtend 64),
          ⟨onePageCore.sent (onePageCore.vm.mem.userBytes 0x80041000 4000 i.toNat), h⟩) ∧
      0 ≤ i.toInt ∧ i.toInt ≤ 200 := by
  have hnull : NonNull onePageCore.vm.mem 0x80041000 := onePageVm_userTable.toNonNull
  have hsrc : 4000 < wordSize := by decide
  obtain ⟨i, h, hrun, hpos, hle, -⟩ := consolewrite_sends_prefix (L := .virt) (c := onePageK .virt)
    (p := 0) rfl hnull hsrc 200
  exact ⟨hnull, i, h, hrun, hpos, hle⟩

end OsKernel
