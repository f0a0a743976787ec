import OsKernel.Console.Interrupt
import OsKernel.Proc.UserCopy

/-!
# Reading from and writing to the console

`consoleread` takes bytes from the ring one by one, each together with its copy to the process, in
one critical section; when the ring is empty it registers on `&cons.r` before it gives up the lock,
so that no commitment can slip between the test and the sleep. What a reader has got so far is in
its history, and `Reads` ties its local variables to that.
-/

namespace OsKernel

variable {L : Layout} {S : Site} {N : Env} {D : Discipline} {h₀ : Hart} {b : Bool}
  {ls : Finset Lock} {c c₀ : Core} {p : Slot} {dst : ℕ} {n target : BitVec 32}

/-- A byte is taken from the ring. -/
theorem Working.take {k : Cons} {e : Event} (hw : Working p c)
    (hk : (history (e :: c.log) p).ctx = (c.hist p).ctx) :
    Working p ({ c with cons := k }.emit e) :=
  ⟨⟨hw.cproc, fun x hx => hw.frame x (hk.symm.trans hx), hw.complete⟩, hw.chan⟩

/-! ### `consoleread` -/

theorem toInt_pos_iff : 0 < n.toInt ↔ 0 < n.toNat ∧ n.toNat < 2 ^ 31 := by
  have := n.isLt
  rw [BitVec.toInt_eq_toNat_cond]
  split_ifs <;> omega

/-- `consoleread` takes its lock. -/
theorem consolereadEnter_ends (hw : Working p c) (hcall : ∃ t, (c.hist p).InCall t)
    (hsp : Spares (· = p) c₀ c) :
    Runs L S N h₀ (consolereadEnter p dst n) (.unlocked b) c (Ends L S (· = p) c₀) := by
  refine .bind (Unlocked.acquire fun c₁ hd₁ hg₁ => .bind (Locked.modCore (does_pure ?_)))
  replace hg₁ : Good L S c₁ := hg₁
  have hw₁ := hw.drift (N.drift hd₁)
  rw [← (N.drift hd₁).hist] at hcall
  generalize hwr : c₁.bufferWritable p dst n = writable
  have hhist : (c₁.emit (.readCall p dst n writable)).hist p =
      { c₁.hist p with reading := some ⟨n, writable, []⟩ } := by
    simp [Core.hist, Core.emit, observe]
  refine ⟨⟨⟨b, rfl⟩, ?_, ?_, ?_, id, ⟨n, writable, []⟩, ?_, rfl, ?_⟩,
    (hsp.trans (N.drift hd₁).spares).trans (.of_eq rfl rfl)⟩
  · exact hg₁.emit_running hw₁.cproc rfl trivial trivial (.inr hw₁.chan)
      (by simp [observe, Core.hist])
  · exact hw₁.emit (by simp [observe, Core.hist])
  · rw [hhist]
    exact hcall
  · rw [hhist]
  · rintro rfl hpos
    have hn : n.toInt.toNat = n.toNat := by
      rw [toInt_pos_iff] at hpos
      rw [BitVec.toInt_eq_toNat_of_lt (by omega), Int.toNat_natCast]
    simp only [Core.bufferWritable, decide_eq_true_eq, hn] at hwr
    refine ⟨Nat.zero_add _, by simp, fun k hk => ?_⟩
    exact hg₁.of_readable hw₁.cproc (hwr k hk).1

/-- The end of `consoleread`. -/
theorem consolereadDone_ends {v : BitVec 32} (hg : Good L S c) (hw : Working p c)
    (hcall : (c.hist p).Called) (hadm : Admissible S.init c.log (.readRet p v))
    (hsp : Spares (· = p) c₀ c) :
    Runs L S N h₀ (consolereadDone p v) (.locked {.cons} b) c (Ends L S (· = p) c₀) := by
  refine .bind (Locked.modCore (.bind (Locked.release_last ?_ (does_pure ?_))))
  · exact hg.emit_running hw.cproc rfl trivial hadm (.inr hw.chan) ⟨rfl, rfl⟩
  · exact ⟨⟨⟨b, rfl⟩, hw.emit rfl, hcall⟩, hsp.trans (.of_eq rfl rfl)⟩

/-- The condition of the outer loop. -/
theorem consolereadRound_ends (hg : Good L S c) (hw : Working p c)
    (hcall : ∃ t, (c.hist p).InCall t) (hr : Reads (c.procs p) (c.hist p) dst n target)
    (hsp : Spares (· = p) c₀ c) :
    Runs L S N h₀ (consolereadRound p dst n target) (.locked {.cons} b) c
      (Ends L S (· = p) c₀) := by
  refine does_ite (fun hpos => does_pure ⟨⟨⟨b, rfl⟩, hg, hw, hcall, hpos, hr⟩, hsp⟩) fun hpos => ?_
  obtain ⟨t, hcall⟩ := hcall
  refine consolereadDone_ends hg hw hcall.called ?_ hsp
  obtain ⟨-, r, hr, rfl, hdone⟩ := hr
  refine ⟨r, hr, fun hwr htarget => ?_⟩
  obtain ⟨hlen, hnl, -⟩ := hdone hwr htarget
  -- nothing is left to read
  rw [toInt_pos_iff] at hpos htarget
  have hz : n.toNat = 0 := by omega
  have hv : (r.n - n).toNat = r.n.toNat := by bv_omega
  exact ⟨by omega, by omega, by omega, fun h => hnl (List.dropLast_subset _ h), by omega⟩

/-- `either_copyout` to the running process. -/
theorem Locked.eitherCopyout {Q : Bool → Mode → Core → Prop} {bytes : List UInt8}
    (hp : c.cproc = some p)
    (h : (Vm.copyout L (c.procs p).pagetable dst (.buffer bytes) bytes.length).Returns c.vm
      fun ok v => Q ok (.locked ls b) (c.setVm v)) :
    Does L D h₀ (eitherCopyout L true dst bytes) (.locked ls b) c Q := by
  refine .bind (Locked.myproc (.bind ?_))
  rw [hp]
  refine does_deref (.bind (Locked.getCore ?_))
  exact Locked.coreAtomic (returns_liftVm.mpr h)

/-- A byte has been taken from the ring. -/
theorem Good.take {e : Event} (hg : Good L S c) (hw : Working p c)
    (hne : c.cons.r ≠ c.cons.w)
    (he : e = .handed p (c.cons.get c.cons.r) ∨ e = .lost p (c.cons.get c.cons.r))
    (hadm : Admissible S.init c.log e) : Good L S ({ c with cons := c.cons.pop }.emit e) := by
  have hown : e.Own p := by rcases he with rfl | rfl <;> rfl
  have hsame : (history (e :: c.log) p).trap = (c.hist p).trap ∧
      (history (e :: c.log) p).ctx = (c.hist p).ctx := by
    rcases he with rfl | rfl <;> simp [observe, Core.hist]
  obtain ⟨hpar, -, -, hend⟩ := hown.kin (l := c.log) p
  have hslot := (hg.slot p).observe (hg.state_running hw.cproc) (.inr hw.chan) (.inl hsame.1) hend
    hpar
  refine hg.record hown hadm (hslot.congr (.inl (.refl _ _ _)) fun _ heq => absurd heq hne)
    (fun _ _ _ heq => absurd heq hne) (fun hf => ?_) (hg.ring.pop hne he)
  rw [hsame.1, hsame.2]
  exact hg.boot hf p

/-- The history of the reader with one more byte. -/
def History.hand (h : History) (x : UInt8) : History :=
  { h with reading := h.reading.map fun r => { r with bytes := r.bytes ++ [x] } }

/-- A byte that is handed over to the reader. -/
theorem Reads.hand {x : UInt8} {h : History} {pr : Proc} (hn : 0 < n.toInt) (hsz : pr.sz ≤ 2 ^ 38)
    (hr : Reads pr h dst n target) (hx : x ≠ 10) :
    Reads pr (h.hand x) ((dst + 1) % wordSize) (n - 1) target := by
  obtain ⟨hpos, r, hr, ht, hrest⟩ := hr
  refine ⟨fun _ => hpos hn, { r with bytes := r.bytes ++ [x] }, by rw [History.hand, hr]; rfl, ht,
    ?_⟩
  intro hwr htarget
  obtain ⟨hlen, hnl, hbuf⟩ := hrest hwr htarget
  rw [toInt_pos_iff] at hn
  have hsub : (n - 1).toNat = n.toNat - 1 := by bv_omega
  refine ⟨?_, ?_, fun k hk => ?_⟩
  · simp only [List.length_append, List.length_singleton, hsub]
    omega
  · simp [hnl, hx.symm]
  · have hfirst := hbuf 0 hn.1
    have hnext := hbuf (k + 1) (by omega)
    have hlt : dst + 1 < 2 ^ 64 := by omega
    rw [show (dst + 1) % wordSize = dst + 1 from Nat.mod_eq_of_lt hlt, Nat.add_assoc,
      Nat.add_comm 1 k]
    exact hnext

/-- A newline ends the read. -/
theorem Reads.done {h : History} {pr : Proc} (hn : 0 < n.toInt) (hr : Reads pr h dst n target) :
    ∃ r, (h.hand 10).reading = some r ∧
      (r.writable = true → 0 < r.n.toInt → r.Done (target - (n - 1))) := by
  obtain ⟨-, r, hr, rfl, hrest⟩ := hr
  refine ⟨{ r with bytes := r.bytes ++ [10] }, by rw [History.hand, hr]; rfl, fun hwr htarget => ?_⟩
  obtain ⟨hlen, hnl, -⟩ := hrest hwr htarget
  rw [toInt_pos_iff] at hn htarget
  have hv : (r.n - (n - 1)).toNat = r.n.toNat - (n.toNat - 1) := by bv_omega
  constructor
  case count =>
    simp only [List.length_append, List.length_singleton]
    omega
  case pos => simp
  case le =>
    simp only [List.length_append, List.length_singleton]
    omega
  case newline => simpa using hnl
  case short => simp

/-- **`consoleread` from the test for input on.** -/
theorem consolereadWaitRound_ends (hg : Good L S c) (hw : Working p c)
    (hcall : ∃ t, (c.hist p).InCall t) (hn : 0 < n.toInt)
    (hr : Reads (c.procs p) (c.hist p) dst n target) (hsp : Spares (· = p) c₀ c) :
    Runs L S N h₀ (consolereadWaitRound L p dst n target) (.locked {.cons} b) c
      (Ends L S (· = p) c₀) := by
  have hcalled : (c.hist p).Called := by
    obtain ⟨t, ht⟩ := hcall
    exact ht.called
  refine .bind (Locked.getCore (does_ite (fun hempty => .bind (Locked.myproc (.bind ?_)))
    fun hne => ?_))
  · -- nothing to read: the process registers on the channel before it gives up the lock
    rw [hw.cproc]
    refine does_deref (.bind (Locked.killed (by simp) (by simp) ?_))
    rw [hg.not_killed hcalled, if_neg (by decide)]
    refine .bind (Locked.sleepPrepare hw.cproc (by simp) (by simp) (.bind (Locked.release_last
      (hg.prepare hw.cproc (fun _ => hempty) fun _ h => by cases h) ?_)))
    refine sleep_ends (hw.toBusy.prepare _) ?_ (hsp.trans (.of_eq rfl (c.spaces_prepare p _)))
    exact Resume.Ok.prepare (k := .consoleread dst n target) ⟨hcall, hn, hr⟩ _
  · refine .bind (Locked.modCore (.bind (Locked.eitherCopyout (p := p) hw.cproc ?_)))
    refine (hg.copyout hw.cproc dst [c.cons.get c.cons.r]).mono ?_
    rintro ok v ⟨hcopied, hok, hbytes⟩
    have hw₁ := hw.copied hcopied
    have hsp₁ := hsp.trans hcopied.spares
    refine does_ite (fun hfail => .bind (Locked.modCore ?_)) fun hsucc => .bind (Locked.modCore ?_)
    · -- the byte is lost; the buffer was not writable in the first place
      have hadm : Admissible S.init c.log (.lost p (c.cons.get c.cons.r)) := by
        obtain ⟨hpos, r, hr, rfl, hrest⟩ := hr
        refine ⟨r, hr, Bool.eq_false_iff.mpr fun hwr => ?_⟩
        obtain ⟨-, -, hbuf⟩ := hrest hwr (hpos hn)
        rw [toInt_pos_iff] at hn
        rw [hfail] at hok
        refine absurd (hok.mpr fun k hk => hg.writable hw.cproc (hbuf k ?_)) (by decide)
        simp only [List.length_singleton] at hk
        omega
      have hg₂ := hcopied.good.take hw₁ hne (.inr rfl) hadm
      refine consolereadDone_ends hg₂ (hw₁.take rfl) hcalled ?_ (hsp₁.trans (.of_eq rfl rfl))
      obtain ⟨r, hr, hwr⟩ := hadm
      exact ⟨r, hr, fun h => by rw [hwr] at h; cases h⟩
    · -- the process reads the byte that was taken
      have hbyte : v.mem (v.mem.phys (c.procs p).pagetable dst) = c.cons.get c.cons.r := by
        have := hbytes (Bool.eq_true_of_not_eq_false hsucc)
        simpa [Mem.userBytes] using this
      show Does L _ h₀ _ _ ({ c.setVm v with cons := c.cons.pop }.emit
        (.handed p (v.mem (v.mem.phys (c.procs p).pagetable dst)))) _
      rw [hbyte]
      have hg₂ : Good L S ({ c.setVm v with cons := c.cons.pop }.emit
          (.handed p (c.cons.get c.cons.r))) := hcopied.good.take hw₁ hne (.inl rfl) trivial
      have hw₂ := hw₁.take (k := c.cons.pop) (e := .handed p (c.cons.get c.cons.r))
        (by simp [observe, Core.hist])
      have hsz : (c.procs p).sz ≤ 2 ^ 38 := hg.size_le hw.cproc
      generalize c.cons.get c.cons.r = x at hg₂ hw₂ ⊢
      have hhist : ({ c.setVm v with cons := c.cons.pop }.emit (.handed p x)).hist p =
          (c.hist p).hand x := by
        simp [Core.hist, Core.emit, Core.setVm, observe, History.hand]
      refine does_ite (fun hx => ?_) fun hx => does_pure ⟨⟨⟨b, rfl⟩, hg₂, hw₂, ?_, ?_⟩, ?_⟩
      · subst hx
        refine consolereadDone_ends hg₂ hw₂ ?_ ?_ (hsp₁.trans (.of_eq rfl rfl))
        · rw [hhist]
          exact hcalled
        · show ∃ r, History.reading (Core.hist _ p) = some r ∧ _
          rw [hhist]
          exact hr.done hn
      · rw [hhist]
        exact hcall
      · rw [hhist]
        exact hr.hand hn hsz hx
      · exact hsp₁.trans (.of_eq rfl rfl)

/-! ### `consolewrite` -/

/-- The bytes are those at the address `va` of the process, and it can read them. -/
structure Core.Shown (c : Core) (p : Slot) (va : ℕ) (bytes : List UInt8) : Prop where
  readable : ∀ k, k < bytes.length → c.vm.mem.Readable (c.procs p).pagetable (va + k)
  bytes : bytes = c.vm.mem.userBytes (c.procs p).pagetable va bytes.length

/-- **A round of `consolewrite`**: what is sent to the UART are bytes the process can read, at the
address it has come to. -/
theorem consolewriteRound_runs {src : ℕ} {i : BitVec 32} (hw : Working p c)
    (hcall : ∃ t, (c.hist p).InCall t) (hsp : Spares (· = p) c₀ c) :
    Runs L S N h₀ (consolewriteRound L p src n i) (.unlocked b) c fun a μ c' =>
      Ends L S (· = p) c₀ a μ c' ∧
        ∃ c₁ bytes, N.Rel c c₁ ∧ Sent N bytes c₁ c' ∧
          c₁.Shown p ((src + i.toNat) % wordSize) bytes := by
  obtain ⟨t, hcall⟩ := hcall
  -- nothing is sent by a round that ends the loop
  have hend : ∀ {c'}, N.Rel c c' → (∃ c₁ bytes, N.Rel c c₁ ∧ Sent N bytes c₁ c' ∧
      c₁.Shown p ((src + i.toNat) % wordSize) bytes) :=
    fun hd => ⟨_, [], hd, .nil (N.refl _), by simp, rfl⟩
  refine does_ite (fun _ => .bind (.bind (Unlocked.myproc fun c₁ hd₁ _ => .bind ?_))) fun _ =>
    does_pure ⟨⟨⟨⟨b, rfl⟩, hw, hcall.called⟩, hsp⟩, hend (N.refl c)⟩
  rw [(hw.drift (N.drift hd₁)).cproc]
  refine does_deref
    (.bind (Unlocked.getCore fun c₂ hd₂ _ => Unlocked.coreAtomic fun c₃ hd₃ hg₃ => ?_))
  have hd := N.trans hd₁ (N.trans hd₂ hd₃)
  have hw₃ := hw.drift (N.drift hd)
  have hcall₃ : (c₃.hist p).InCall t := by rwa [(N.drift hd).hist]
  have hsp₃ := hsp.trans (N.drift hd).spares
  have hpt : (c₂.procs p).pagetable = (c₃.procs p).pagetable :=
    (congrArg Space.pagetable ((N.drift hd₃).space p)).symm
  rw [hpt]
  refine .inl (returns_liftVm.mpr ((Good.copyin hg₃ hw₃.cproc _ _).mono ?_))
  rintro res v ⟨rfl, hres⟩
  refine ⟨hg₃, ?_⟩
  cases res with
  | none => exact does_pure ⟨⟨⟨⟨b, rfl⟩, hw₃, hcall₃.called⟩, hsp₃⟩, hend hd⟩
  | some bytes =>
    obtain ⟨hread, hbytes⟩ := hres bytes rfl
    refine .bind (putBytes_runs bytes hg₃ fun c₄ hs₄ hg₄ =>
      does_pure ⟨⟨⟨⟨b, rfl⟩, ?_, ?_⟩, ?_⟩, ?_⟩)
    · exact hw₃.drift hs₄.drift
    · rw [hs₄.drift.hist]
      exact ⟨t, hcall₃⟩
    · exact hsp₃.trans hs₄.drift.spares
    · refine ⟨c₃, bytes, hd, hs₄, ?_⟩
      rw [hbytes]
      refine ⟨fun k hk => hread k ?_, ?_⟩
      · rwa [Mem.length_userBytes] at hk
      · rw [Mem.length_userBytes]

end OsKernel
