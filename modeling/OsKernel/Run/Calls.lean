import OsKernel.Boot.FirstProcess
import OsKernel.Run.Processes

/-!
# System calls in every run

What a system call does to the processes there are, and what `fork` makes. A call runs in pieces
between two switches; the results hold of each piece, from any reachable state.

`fork` is looked at in the state in which `syscall` is called, `Core.called`, where the saved pc is
already behind the `ecall`. By itself, without interrupts, it does exactly what is said here; with
interrupts this is so up to what their handlers do, `Drift`.

`kalloc` may fail at any call. The allocator there is fails for good once memory is used up, and so
the counter of pids does not wrap around while processes can be made. If `kalloc` had failed at will
all along, the counter could be anything, −1 as well.
-/

namespace OsKernel

variable {L : Layout} {image : Mem} {fails : ℕ → Bool} {d : System.Config K Panic Label}
  {S : Site} {N : Env} {c c₁ c' c'' : Core} {i j p : Slot} {s t : K} {v : BitVec 32}

/-! ### What a process has -/

/-- The process in slot `j` has what it had: its page table and all translations, its size, its
memory and its trapframe. -/
structure Core.Untouched (c c' : Core) (j : Slot) : Prop where
  space : (c'.procs j).space = (c.procs j).space
  mappings : ∀ w, w < 2 ^ 27 → c'.vm.mem.meaning (c.procs j).pagetable w =
    c.vm.mem.meaning (c.procs j).pagetable w
  memory : ∀ w q, c.MapsUser j w q → ∀ k, k < 4096 → c'.vm.mem (q + k) = c.vm.mem (q + k)
  frame : ∀ k, k < 4096 → c'.vm.mem ((c.procs j).trapframe + k) =
    c.vm.mem ((c.procs j).trapframe + k)

/-- The bytes of a page that a process maps, as `copyin` finds them. -/
theorem Core.MapsUser.readable {o : Owners} (hsp : Spaces L S.image S.kpt c.vm c.spaces o noRole)
    {w q k : ℕ} (h : c.MapsUser j w q) (hk : k < 4096) :
    c.vm.mem.Readable (c.procs j).pagetable (w * 4096 + k) ∧
      c.vm.mem.phys (c.procs j).pagetable (w * 4096 + k) = q + k := by
  have hdiv : (w * 4096 + k) / 4096 = w := by omega
  have hmod : (w * 4096 + k) % 4096 = k := by omega
  have hlt : ∀ {n}, w * 4096 < n → n ≤ 2 ^ 38 → w * 4096 + k < 2 ^ 38 := by omega
  obtain ⟨hlive, hw, fl, hm, hu⟩ := h
  obtain ⟨-, hpa, hfl⟩ := leafMeaning_eq_some.mp hm
  rw [← hfl, ← and_eq_pteFlags_and (by decide)] at hu
  have hshape := (hsp.owned_of_ne hlive).shape
  refine ⟨⟨hlt (hshape.lt_of_user hw hu) hshape.size_le, by rw [hdiv]; exact hu⟩, ?_⟩
  rw [Mem.phys, hdiv, hmod, hpa]

theorem Spaces.mapsUser_of_readable {o : Owners} {va : ℕ}
    (hsp : Spaces L S.image S.kpt c.vm c.spaces o noRole) (hlive : (c.procs j).state ≠ .unused)
    (h : c.vm.mem.Readable (c.procs j).pagetable va) : ∃ q, c.MapsUser j (va / 4096) q ∧
      c.vm.mem.phys (c.procs j).pagetable va = q + va % 4096 :=
  ⟨_, (hsp.mapsUser_iff hlive).mpr (h.owner hsp.inv.tables (hsp.owned_of_ne hlive).root), rfl⟩

/-- A byte that is shown is in a page the process maps, at its address. -/
theorem Core.Shown.mapped {o : Owners} {va k : ℕ} {bytes : List UInt8} {x : UInt8}
    (h : c.Shown j va bytes) (hsp : Spaces L S.image S.kpt c.vm c.spaces o noRole)
    (hlive : (c.procs j).state ≠ .unused) (hx : bytes[k]? = some x) :
    ∃ q, c.MapsUser j ((va + k) / 4096) q ∧ x = c.vm.mem (q + (va + k) % 4096) := by
  obtain ⟨hk, hget⟩ := List.getElem?_eq_some_iff.mp hx
  obtain ⟨q, hq, hphys⟩ := hsp.mapsUser_of_readable hlive (h.readable k hk)
  refine ⟨q, hq, ?_⟩
  have hbyte : (c.vm.mem.userBytes (c.procs j).pagetable va bytes.length)[k]? = some x := by
    rw [← h.bytes, hx]
  rw [← hphys]
  simpa [Mem.userBytes, hk] using hbyte.symm

theorem Spares.untouched {X : Slot → Prop} (h : Spares X c c') {o : Owners}
    (hsp : Spaces L S.image S.kpt c.vm c.spaces o noRole) (hj : (c.procs j).state ≠ .unused)
    (hX : ¬X j) : c.Untouched c' j := by
  have hspace := Core.spaces_of_ne hj
  have hsame := h.user j _ hX hspace
  refine ⟨?_, fun w hw => ?_, fun w q hq k hk => ?_, fun k hk => ?_⟩
  · exact (Core.spaces_eq_some (h.space j _ hX hspace)).2.symm
  · exact congrArg leafMeaning (hsame.entry w hw)
  · obtain ⟨hread, hphys⟩ := hq.readable hsp hk
    have hbyte := hsame.byte _ hread
    rwa [show c.vm.mem.phys (c.procs j).space.pagetable _ = q + k from hphys] at hbyte
  · exact h.frame j _ hX hspace k hk

/-- The state an operation began on may be taken after interrupts. -/
theorem Spares.of_drift {X : Slot → Prop} (h : Spares X c c') (hd : Drift c c₁) :
    Spares X c₁ c' := by
  obtain ⟨hspace, hframe, huser⟩ := h
  rw [← hd.spaces, ← hd.vm] at *
  exact ⟨hspace, hframe, huser⟩

/-- What a program establishes when it runs by itself. -/
theorem Discipline.of_run {D : Discipline} {α : Type} {x : KernelM α} {Q : α → K → Prop} {a : α}
    (h : D.wp L x Q s) (hrun : x.run s = .ok (a, t)) : Q a t := by
  rcases Prog.wp_run Discipline.interferes_refl h with ⟨a', t', hrun', -, hq⟩ | ⟨e, hrun', -⟩
  · rw [hrun] at hrun'
    cases hrun'
    exact hq
  · rw [hrun] at hrun'
    cases hrun'

/-- Whether there are interrupts or not makes no difference to where the kernel is. -/
theorem Mode.IsUnlocked.alone {h₀ : Hart} {b : Bool}
    (h : Mode.IsUnlocked L (Env.interrupts.discipline L S) h₀ b s) :
    Mode.IsUnlocked L (Env.alone.discipline L S) h₀ b s :=
  ⟨⟨h.unlocked.hart, h.unlocked.noff, h.unlocked.good, h.unlocked.vector⟩, h.frame, h.sie⟩

/-! ### A process that calls `fork` -/

/-- The process `p` has trapped to call `fork`. -/
structure K.CallsFork (s : K) (p : Slot) : Prop where
  cproc : s.core.cproc = some p
  scause : s.hart.scause = 8
  number : (s.core.tfLoad p Reg.a7.offset).setWidth 32 = (1 : BitVec 32)

/-- A call of `fork` is carried out. -/
theorem TrapOk.run_fork {Q : BitVec 32 → Core → Prop} (htrap : TrapOk L S .usertrap s)
    (hI : (Env.interrupts.discipline L S).Inv L s) (hf : s.CallsFork p)
    (h : ∀ x h₀ m, Calling L S p x (s.core.setMem m) →
      Does L .solo h₀ (kfork L) (.unlocked true) (s.core.setMem m) fun v _ c' => Q v c') :
    ∃ v t, (usertrap L).run s = .ok (.sysret p (v.signExtend 64), t) ∧ Q v t.core := by
  have hcall := htrap.next_call (Q := fun a _ c' =>
    ∃ v : BitVec 32, a = .sysret p (v.signExtend 64) ∧ Q v c') hI hf.cproc hf.scause ?_
  · obtain ⟨_, t, _, ⟨_, ⟨⟩, hrun⟩, v, rfl, hQ⟩ := hcall
    exact ⟨v, t, hrun, hQ⟩
  · intro x h₀ m hcalling hregs
    have hfork : lookupSyscall (x.regs .a7) = some .fork := by
      rw [lookupSyscall_eq_some_iff, ← hregs, hf.number]
      rfl
    rw [dispatch, hfork]
    refine .bind ((h x h₀ m hcalling).mono ?_)
    exact fun v _ c' hQ => does_pure ⟨v, rfl, hQ⟩

/-- The result of `fork` can be read off the return value of the call. -/
theorem sysret_inj {v w : BitVec 32}
    (h : Label.sysret p (v.signExtend 64) = .sysret p (w.signExtend 64)) : v = w := by
  rw [Label.sysret.injEq] at h
  have hint := congrArg BitVec.toInt h.2
  rw [BitVec.toInt_signExtend_of_le (by decide), BitVec.toInt_signExtend_of_le (by decide)] at hint
  exact BitVec.eq_of_toInt_eq hint

/-- The first process calls `fork`, and there are pages for a child. -/
theorem exists_fork_call_virt : ∃ s : K,
    Reachable .virt shImage (fun _ => false) ⟨s, .ret .usertrap, []⟩ ∧ s.CallsFork 0 ∧
    s.core.Single ∧ Supply .virt s.core.vm (forkPages (s.core.procs 0).sz) := by
  obtain ⟨r, hr, hsingle, hroom⟩ := exists_single_virt
  obtain ⟨s, m, hs, hcore, hcause, hregs⟩ := hr.traps hsingle.cproc (Sysno.fork.regs 0 0 0)
  refine ⟨s, hs, ⟨by rw [hcore]; exact hsingle.cproc, hcause, by rw [hregs]; rfl⟩, ?_, ?_⟩
  · rw [hcore]
    exact { hsingle with calls := allWritable_cons.mpr ⟨by simp, hsingle.calls⟩ }
  · rw [hcore]
    exact ⟨hroom.1, hroom.2⟩

/-! ### Confinement -/

/-- `wait` by `p` has reaped the process in slot `j`. -/
def Core.Reaped (c c' : Core) (p j : Slot) : Prop :=
  (c.procs j).state = .zombie ∧ (c.procs j).parent = some p ∧ (c'.procs j).state = .unused

/-- **Confinement.** Whatever a process passes to a system call, no piece of it touches the memory,
the trapframe or the page table of another process, but for the zombie child that a `wait` reaps;
and what `write` sends to the UART are the bytes at the addresses it was given, in pages that the
process maps with `PTE_U`. -/
theorem system_calls_confined {a : Label} (hs : Reachable L image fails ⟨s, .ret a, []⟩)
    (hp : s.core.cproc = some p) :
    (∀ x b t, kernelCode L a = some x →
      Relation.ReflTransGen (kernel L).segment.Micro ⟨s, x, []⟩ ⟨t, .ret b, []⟩ →
      ∀ j, j ≠ p → (s.core.procs j).state ≠ .unused → ¬s.core.Reaped t.core p j →
        s.core.Untouched t.core j) ∧
    ∀ src n i, a = .consolewrite p src n i → ∀ b t, (consolewriteRound L p src n i).run
      s = .ok (b, t) →
      ∃ bytes, t.core.tx = s.core.tx ++ bytes ∧ ∀ k x, bytes[k]? = some x →
        ∃ q, s.core.MapsUser p (((src + i.toNat) % wordSize + k) / 4096) q ∧
          x = s.core.vm.mem (q + ((src + i.toNat) % wordSize + k) % 4096) := by
  obtain ⟨kpt, hI, hpre⟩ := hs.pre
  obtain ⟨cp, hg, -⟩ := hpre.good hI
  obtain ⟨o, hsp⟩ : ∃ o, Spaces L (bootSite image fails kpt).image (bootSite image fails kpt).kpt
      s.core.vm s.core.spaces o noRole := hg.spaces
  refine ⟨fun x b t hx hrun j hj hlive hno => ?_, ?_⟩
  · have hspares := segment_ends
      (Q := fun _ u => ∀ p, s.core.cproc = some p → Spares (Reaps p s.core u.core) s.core u.core)
      (Discipline.wp_mono (fun _ _ _ h => h.2)
        (kernelCode_arrives (N := .interrupts) id hx hI hpre))
      (fun a u v hq hint p hp => ?_) hrun p hp
    · refine hspares.untouched hsp hlive fun hreap => ?_
      exact hreap.elim hj hno
    · have hd : Drift u.core v.core := hint.after.drift
      refine ((hq p hp).mono fun i hi => ?_).trans hd.spares
      exact hi.imp_right fun ⟨hz, hpar, hu⟩ =>
        ⟨hz, hpar, (hd.state_iff (by decide) (by decide)).mpr hu⟩
  · rintro src n i rfl b t hrun
    obtain ⟨h₀, μ, -, hμ, ⟨sie, rfl⟩, hw, hcall⟩ | hfalse := hpre
    · obtain ⟨-, -, -, c₁, bytes, rfl, hsent, hshown⟩ := Discipline.of_run
        (consolewriteRound_runs (N := .alone) hw hcall (.refl _) s hμ.alone rfl) hrun
      have hlive : (s.core.procs p).state ≠ .unused := by
        rw [hμ.unlocked.good.state_running hp]
        decide
      exact ⟨bytes, by rw [hsent.alone], fun k x hx => hshown.mapped hsp hlive hx⟩
    · exact absurd hfalse id

/-- A process writes a byte while its parent sleeps. -/
theorem system_calls_confined_virt : ∃ (s t : K) (i : Slot) (q : ℕ),
    Reachable .virt shImage (fun _ => false) ⟨s, .ret (.consolewrite i 16 1 0), []⟩ ∧
    s.core.cproc = some i ∧ i ≠ 0 ∧ s.core.MapsUser 0 0 q ∧
    (consolewriteRound .virt i 16 1 0).run s = .ok (.consolewrite i 16 1 1, t) ∧
    s.core.Untouched t.core 0 ∧
    ∃ x q, t.core.tx = s.core.tx ++ [x] ∧ s.core.MapsUser i 0 q ∧
      x = s.core.vm.mem (q + 16) := by
  obtain ⟨r, i, hr, hpair, hcp, -, hzero⟩ := exists_parent_waits_virt
  obtain ⟨s, m, hs, hcore⟩ := hr.writes hcp 16 1
  replace hs : Reachable .virt shImage (fun _ => false) ⟨s, .ret (.consolewrite i 16 1 0), []⟩ := hs
  have hcp' : s.core.cproc = some i := by rw [hcore]; exact hcp
  have hprocs : s.core.procs = r.core.procs := by rw [hcore]; rfl
  have hlive : (s.core.procs 0).state ≠ .unused := by
    rw [hprocs, hzero.state]
    decide
  obtain ⟨q, hq⟩ := hs.exists_mapsUser (.inr ⟨_, rfl, rfl⟩) (w := 0) hlive
    (by rw [hprocs]; exact lt_of_lt_of_le (by decide) (hpair.size 0 (.inl rfl)))
  obtain ⟨t, ⟨_, ⟨⟩, hrun⟩, hsent⟩ := hs.next_sends
    (by rw [hprocs]; exact lt_of_lt_of_le (by decide) (hpair.size i (.inr rfl)))
  obtain ⟨hspared, hbytes⟩ := system_calls_confined hs hcp'
  refine ⟨s, t, i, q, hs, hcp', hpair.ne, hq, hrun, ?_, ?_⟩
  · refine hspared _ _ t rfl (System.micro_of_run (M := (kernel .virt).segment) hrun) 0
      hpair.ne.symm hlive ?_
    rintro ⟨hzombie, -⟩
    rw [hprocs, hzero.state] at hzombie
    cases hzombie
  · obtain ⟨bytes, htx, hshown⟩ := hbytes 16 1 0 rfl _ t hrun
    rw [hsent] at htx
    obtain rfl := List.append_cancel_left htx
    obtain ⟨q', hq', hx⟩ := hshown 0 _ rfl
    exact ⟨_, q', by rw [hsent]; rfl, hq', hx⟩

/-! ### `fork` -/

/-- **A copy.** The process `i` is a copy of `p` as it was in `c`, on pages of its own, and `p` has
what it had. -/
structure ForkCopied (L : Layout) (p i : Slot) (v : BitVec 32) (c c' : Core) : Prop
    extends Forked L p i v c c' where
  disjoint : ∀ w w' q, c'.MapsUser i w q → ¬c.MapsUser p w' q
  caller : c.Untouched c' p

/-- **No copy.** The slot that was tried, if there was one, is empty again, the others are as they
were, and every process has what it had. -/
structure ForkFailed (c c' : Core) : Prop where
  slots : (∀ j, c'.procs j = c.procs j) ∨ ∃ i, (c.procs i).state = .unused ∧
    (c'.procs i).state = .unused ∧ (c'.procs i).Blank ∧ ∀ j, j ≠ i → c'.procs j = c.procs j
  memory : ∀ j, (c.procs j).state ≠ .unused → c.Untouched c' j

/-- How `fork` ends. -/
def ForkResult (L : Layout) (p : Slot) (v : BitVec 32) (c c' : Core) : Prop :=
  v = -1 ∧ ForkFailed c c' ∨ ∃ i, ForkCopied L p i v c c'

theorem Core.Untouched.mapsUser {w q : ℕ} (h : c.Untouched c' j) (hq : c.MapsUser j w q)
    (hlive : (c'.procs j).state ≠ .unused) : c'.MapsUser j w q := by
  obtain ⟨-, hw, fl, hm, hu⟩ := hq
  refine ⟨hlive, hw, fl, ?_, hu⟩
  rw [show (c'.procs j).pagetable = (c.procs j).pagetable from congrArg Space.pagetable h.space,
    h.mappings w hw, hm]

/-- The pages of the child are not those of its parent. -/
theorem Forked.copied {o : Owners} (h : Forked L p i v c c')
    (hsp : Spaces L S.image S.kpt c.vm c.spaces o noRole) (hp : (c.procs p).state ≠ .unused)
    (hg' : Good L S c') (hcp : c'.cproc = some p) (hspares : Spares (fun _ => False) c c') :
    ForkCopied L p i v c c' := by
  have hcaller := hspares.untouched hsp hp id
  refine ⟨h, fun w w' q hi hq => ?_, hcaller⟩
  obtain ⟨o', hsp'⟩ := hg'.spaces
  have hp' : (c'.procs p).state ≠ .unused := by
    rw [hg'.state_running hcp]
    decide
  have hown := (hsp'.mapsUser_iff hi.1).mp hi
  rw [(hsp'.mapsUser_iff hp').mp (hcaller.mapsUser hq hp'), Option.some.injEq,
    Role.user.injEq] at hown
  have hpi := hsp'.pagetable_inj (Core.spaces_of_ne hp') (Core.spaces_of_ne hi.1) hown.1
  exact hp (hpi ▸ h.unused)

theorem ForkEnds.result (h : ForkEnds L S N p c v c') (hg : Good L S c) (hcp : c.cproc = some p)
    (hk : ForkKeeps L S p c c') : ∃ c₁, N.Rel c c₁ ∧ ForkResult L p v c₁ c' := by
  obtain ⟨o, hsp⟩ := hg.spaces
  have hsp₁ : ∀ {c₁}, Drift c c₁ → Spaces L S.image S.kpt c₁.vm c₁.spaces o noRole := fun hd => by
    rw [hd.vm, hd.spaces]
    exact hsp
  rcases h with ⟨hv, ⟨hd, -⟩ | ⟨c₁, i, hd, htried, -⟩⟩ | ⟨c₁, i, hd, hforked⟩
  · refine ⟨c', hd, .inl ⟨hv, .inl fun _ => rfl, fun j hj => ?_⟩⟩
    exact (Spares.refl c' (X := fun _ => False)).untouched (hsp₁ (N.drift hd)) hj id
  · refine ⟨c₁, hd, .inl ⟨hv, .inr ⟨i, htried.unused, htried.cleared, ?_, htried.others⟩,
      fun j hj => htried.spares.untouched (hsp₁ (N.drift hd)) hj id⟩⟩
    exact (htried.good.slot i).blank htried.cleared
  · have hlive : (c₁.procs p).state ≠ .unused := fun hu => by
      have hu' := ((N.drift hd).state_iff (by decide) (by decide)).mp hu
      rw [hg.state_running hcp] at hu'
      cases hu'
    exact ⟨c₁, hd, .inr ⟨i, hforked.copied (hsp₁ (N.drift hd)) hlive hk.good hk.working.cproc
      (hk.spares.of_drift (N.drift hd))⟩⟩

/-- `fork` from the trap on. -/
theorem fork_wp (hq : ¬N.Quiet) (hI : (N.discipline L S).Inv L s) (h : TrapOk L S .usertrap s)
    (hf : s.CallsFork p) : (N.discipline L S).wp L (usertrap L) (fun a t => ∃ v c₁ c₂,
      a = .sysret p (v.signExtend 64) ∧ N.Rel (s.core.called p s.hart.sepc) c₁ ∧
        ForkResult L p v c₁ c₂ ∧ N.Rel c₂ t.core) s := by
  refine usertrap_wp_of (fun _ => hq) hI h (fun _ q t c hq' hregs hd hcalling _ => ?_)
    fun hno => absurd hf.scause hno
  obtain rfl : q = p := Option.some.inj (hq'.symm.trans hf.cproc)
  refine (syscall_fork_runs hcalling ?_).mono ?_
  · rw [Trap.number, ← hregs]
    exact hf.number
  · rintro a μ c' ⟨-, v, c₁, rfl, hd₁, hcalling₁, hk, hend⟩ u - rfl
    obtain ⟨c₂, hd₂, hres⟩ := hend.result hcalling₁.good hcalling₁.working.cproc hk
    exact ⟨v, c₂, u.core, rfl, N.trans hd (N.trans hd₁ hd₂), hres, N.refl _⟩

/-- `fork` on the machine. -/
theorem fork_segment {a : Label} (hI : (Env.interrupts.discipline L S).Inv L s)
    (h : TrapOk L S .usertrap s) (hf : s.CallsFork p)
    (hrun : Relation.ReflTransGen (kernel L).segment.Micro ⟨s, usertrap L, []⟩ ⟨t, .ret a, []⟩) :
    ∃ v c₁ c₂, a = .sysret p (v.signExtend 64) ∧ Drift (s.core.called p s.hart.sepc) c₁ ∧
      ForkResult L p v c₁ c₂ ∧ Drift c₂ t.core := by
  refine segment_ends (fork_wp (N := .interrupts) id hI h hf) ?_ hrun
  rintro a u w ⟨v, c₁, c₂, ha, hd, hres, hd'⟩ hw
  exact ⟨v, c₁, c₂, ha, hd, hres, hd'.trans hw.after.drift⟩

/-- From here on `kalloc` fails as `f` says. -/
def K.failing (s : K) (f : ℕ → Bool) : K :=
  { s with core := { s.core with vm := { s.core.vm with fails := f } } }

/-- Memory is in order whatever `kalloc` is going to do. -/
theorem Good.failing (hg : Good L S s.core) (f : ℕ → Bool) :
    Good L { S with bump := False } (s.failing f).core := by
  obtain ⟨o, hsp⟩ := hg.spaces
  have hinv := hsp.inv
  exact { hg with
    spaces := ⟨o, ⟨hinv.tables, hinv.aligned, hinv.heap_le, hinv.le_phystop, hinv.owned, hinv.freed,
      hinv.nodup⟩, hsp.kernel, hsp.trampoline, hsp.kstack, hsp.image, hsp.owned, hsp.exact⟩
    fails := False.elim
    pids := False.elim
    exits := False.elim }

theorem Good.inv_failing (hg : Good L S s.core) (hI : (Env.interrupts.discipline L S).Inv L s)
    (hq : ¬N.Quiet) (f : ℕ → Bool) :
    (N.discipline L { S with bump := False }).Inv L (s.failing f) :=
  ⟨⟨hI.1.count, hI.1.masked, hI.1.vector, fun h => absurd h hq⟩, fun _ => hg.failing f⟩

theorem TrapOk.failing (h : TrapOk L S .usertrap s) (f : ℕ → Bool) :
    TrapOk L { S with bump := False } .usertrap (s.failing f) := by
  obtain ⟨hborder, q, t, ⟨hcp, hchan, hall, hkilled, hbooted, ⟨h₁, h₂, h₃, h₄⟩⟩, hrest⟩ := h
  exact ⟨hborder, q, t, ⟨hcp, hchan, hall, hkilled, hbooted, ⟨h₁, h₂, h₃, h₄⟩⟩, hrest⟩

theorem K.CallsFork.failing (h : s.CallsFork p) (f : ℕ → Bool) : (s.failing f).CallsFork p :=
  ⟨h.cproc, h.scause, h.number⟩

/-- A pid there is a page for is not −1. -/
theorem Pids.next_ne {vm : Vm} {n : BitVec 32} {procs : Slot → Proc} (h : Pids L vm n procs)
    (hroom : vm.freemem + 4096 ≤ L.phystop) : n ≠ -1 := by
  rintro rfl
  have hword := L.phystop_le
  obtain ⟨-, hle, -⟩ := h.next.resolve_left (by omega)
  rw [show (-1 : BitVec 32).toNat = 2 ^ 32 - 1 from rfl] at hle
  omega

/-- What the return value `v` of `fork` tells its caller. Under `fits` the counter of pids has not
come to −1. -/
structure ForkTells (L : Layout) (fits : Prop) (p : Slot) (v : BitVec 32) (c c' : Core) : Prop where
  copied : 0 < v.toInt → ∃ i, ForkCopied L p i v c c'
  failed : fits → v = -1 → ForkFailed c c'

theorem ForkResult.tells {fits : Prop} (h : ForkResult L p v c c')
    (hfits : fits → c.vm.freemem + 4096 ≤ L.phystop → c.nextpid ≠ -1) :
    ForkTells L fits p v c c' := by
  constructor
  · intro hpos
    refine h.resolve_left fun ⟨hv, _⟩ => ?_
    rw [hv] at hpos
    exact absurd hpos (by decide)
  · intro hfit hv
    rcases h with ⟨-, hfailed⟩ | ⟨i, hcopied⟩
    · exact hfailed
    · exact absurd (hcopied.number.symm.trans hv) (hfits hfit hcopied.room)

/-- **`fork` copies exactly, or fails cleanly**, for every pattern of failures of `kalloc`: by
itself, and up to what interrupt handlers do with interrupts anywhere. -/
theorem fork_copies_or_fails (hs : Reachable L image fails ⟨s, .ret .usertrap, []⟩)
    (hf : s.CallsFork p) (f : ℕ → Bool) :
    let fits := (∀ n, fails n = false) ∨ s.core.nextpid ≠ -1
    let c := (s.failing f).core.called p s.hart.sepc
    (∀ a t, (usertrap L).run (s.failing f) = .ok (a, t) →
      ∃ v, a = .sysret p (v.signExtend 64) ∧ ForkTells L fits p v c t.core) ∧
    ∀ a t, Relation.ReflTransGen (kernel L).segment.Micro ⟨s.failing f, usertrap L, []⟩
        ⟨t, .ret a, []⟩ →
      ∃ v c₁ c₂, a = .sysret p (v.signExtend 64) ∧ Drift c c₁ ∧ ForkTells L fits p v c₁ c₂ ∧
        Drift c₂ t.core := by
  intro fits c
  obtain ⟨kpt, hI, ⟨_, _, -, -, hfalse⟩ | htrap⟩ := hs.pre
  · exact absurd hfalse id
  have hg : Good L (bootSite image fails kpt) s.core := hI.2 htrap.1.noff
  have htrap' := htrap.failing f
  have hf' := hf.failing f
  -- a pid that has a page is positive, or the counter is not −1 by assumption
  have hfits : ∀ c₁, Drift c c₁ → fits → c₁.vm.freemem + 4096 ≤ L.phystop → c₁.nextpid ≠ -1 := by
    intro c₁ hd hfit hroom
    rw [hd.vm] at hroom
    rw [hd.nextpid]
    exact hfit.elim (fun hall => (hg.pids hall).next_ne hroom) id
  refine ⟨fun a t hrun => ?_, fun a t hrun => ?_⟩
  · obtain ⟨v, c₁, c₂, ha, rfl, hres, rfl⟩ :=
      Discipline.of_run (fork_wp (N := .alone) id (hg.inv_failing hI id f) htrap' hf') hrun
    exact ⟨v, ha, hres.tells (hfits c (.refl c))⟩
  · obtain ⟨v, c₁, c₂, ha, hd, hres, hd'⟩ := fork_segment (hg.inv_failing hI id f) htrap' hf' hrun
    exact ⟨v, c₁, c₂, ha, hd, hres.tells (hfits c₁ hd), hd'⟩

/-- A process with memory forks: with pages for a child, and without. -/
theorem fork_copies_or_fails_virt : ∃ s : K,
    Reachable .virt shImage (fun _ => false) ⟨s, .ret .usertrap, []⟩ ∧ s.CallsFork 0 ∧
    (s.core.procs 0).sz = 16384 ∧
    (∃ v i t, (usertrap .virt).run (s.failing fun _ => false) =
        .ok (.sysret 0 (v.signExtend 64), t) ∧ 0 < v.toInt ∧
      ForkCopied .virt 0 i v ((s.failing fun _ => false).core.called 0 s.hart.sepc) t.core) ∧
    ∃ t, (usertrap .virt).run (s.failing fun _ => true) =
        .ok (.sysret 0 ((-1 : BitVec 32).signExtend 64), t) ∧
      ForkFailed ((s.failing fun _ => true).core.called 0 s.hart.sepc) t.core := by
  obtain ⟨s, hs, hf, hsingle, hroom⟩ := exists_fork_call_virt
  obtain ⟨kpt, hI, ⟨_, _, -, -, hno⟩ | htrap⟩ := hs.pre
  · exact absurd hno id
  have hg : Good .virt (bootSite shImage (fun _ => false) kpt) s.core := hI.2 htrap.1.noff
  have hfree : ∃ i, (s.core.procs i).state = .unused := ⟨1, hsingle.others 1 (by decide)⟩
  refine ⟨s, hs, hf, hsingle.size, ?_, ?_⟩
  · have hrun := (htrap.failing fun _ => false).run_fork (Q := fun v _ => v = s.core.nextpid)
      (hg.inv_failing hI id _) (hf.failing _) fun x h₀ m hcalling =>
        (Solo.kfork hcalling.good hcalling.working hfree ⟨fun _ _ => rfl, hroom.2⟩).mono
          fun _ _ _ h => h.1
    obtain ⟨v, t, hrun, hv⟩ := hrun
    obtain ⟨w, hw, htells⟩ := (fork_copies_or_fails hs hf _).1 _ t hrun
    obtain rfl := sysret_inj hw
    have hpos : 0 < v.toInt := by
      rw [hv, hsingle.pid]
      decide
    obtain ⟨i, hcopied⟩ := htells.copied hpos
    exact ⟨v, i, t, hrun, hpos, hcopied⟩
  · have hrun := (htrap.failing fun _ => true).run_fork (Q := fun v _ => v = -1)
      (hg.inv_failing hI id _) (hf.failing _) fun x h₀ m hcalling =>
        Solo.kfork_fails hcalling.good hcalling.working hfree fun hsupply => by
          cases hsupply.1 0 (by decide)
    obtain ⟨_, t, hrun, rfl⟩ := hrun
    obtain ⟨w, hw, htells⟩ := (fork_copies_or_fails hs hf _).1 _ t hrun
    exact ⟨t, hrun, htells.failed (.inl fun _ => rfl) (sysret_inj hw).symm⟩

/-! ### Pids -/

/-- The pids of the processes there are. -/
structure Core.PidsDiffer (c : Core) : Prop where
  pos : ∀ i, (c.procs i).state ≠ .unused → 0 < (c.procs i).pid.toInt
  inj : ∀ i j, (c.procs i).state ≠ .unused → (c.procs j).state ≠ .unused →
    (c.procs i).pid = (c.procs j).pid → i = j

/-- **Pids are unique.** With the allocator there is, between the operations of the kernel the pids
are positive and distinct, however many calls of `fork` have failed; and `fork` returns −1 or the
pid of the new child, which no other process has. -/
theorem pids_unique (hd : Reachable L image (fun _ => false) d) :
    (d.BetweenSections → d.state.core.PidsDiffer) ∧
    ∀ s p, d = ⟨s, .ret .usertrap, []⟩ → s.CallsFork p → ∀ a t,
      Relation.ReflTransGen (kernel L).segment.Micro ⟨s, usertrap L, []⟩ ⟨t, .ret a, []⟩ →
      ∃ v, a = .sysret p (v.signExtend 64) ∧ (v = -1 ∨ ∃ i, (s.core.procs i).state = .unused ∧
        (t.core.procs i).state ≠ .unused ∧ (t.core.procs i).parent = some p ∧
        (t.core.procs i).pid = v ∧
        ∀ j, j ≠ i → (t.core.procs j).state ≠ .unused → (t.core.procs j).pid ≠ v) := by
  have hpids : ∀ {d}, Reachable L image (fun _ => false) d → d.BetweenSections →
      d.state.core.PidsDiffer := fun hd hb => by
    obtain ⟨kpt, cp, hg, -⟩ := hd.between hb
    exact ⟨(hg.pids fun _ => rfl).pos, (hg.pids fun _ => rfl).inj⟩
  refine ⟨hpids hd, ?_⟩
  rintro s p rfl hf a t hrun
  have hdiffer := hpids (hd.step (.head (.jump rfl) (System.micro_of_segment hrun)))
    (.inr ⟨a, rfl, rfl⟩)
  obtain ⟨kpt, hI, ⟨_, _, -, -, hfalse⟩ | htrap⟩ := hd.pre
  · exact absurd hfalse id
  obtain ⟨v, c₁, c₂, ha, hd₁, ⟨hv, -⟩ | ⟨i, hcopied⟩, hd₂⟩ := fork_segment hI htrap hf hrun
  · exact ⟨v, ha, .inl hv⟩
  · have hlive : (t.core.procs i).state ≠ .unused := fun hu => by
      have hu' := (hd₂.state_iff (by decide) (by decide)).mp hu
      rw [hcopied.state] at hu'
      cases hu'
    have hpid : (t.core.procs i).pid = v := by
      obtain ⟨st, ch, he⟩ := hd₂.fields i
      rw [he]
      exact hcopied.pid
    refine ⟨v, ha, .inr ⟨i, (hd₁.state_iff (by decide) (by decide)).mp hcopied.unused, hlive,
      (hd₂.parent i).trans hcopied.parent, hpid, fun j hj hlive' hpid' => hj ?_⟩⟩
    exact hdiffer.inj j i hlive' hlive (hpid'.trans hpid.symm)

/-- A process forks, and its child has the next pid. -/
theorem pids_unique_virt : ∃ (s t : K) (i : Slot),
    Reachable .virt shImage (fun _ => false) ⟨s, .ret .usertrap, []⟩ ∧ s.CallsFork 0 ∧
    s.core.PidsDiffer ∧
    Relation.ReflTransGen (kernel .virt).segment.Micro ⟨s, usertrap .virt, []⟩
      ⟨t, .ret (.sysret 0 2), []⟩ ∧
    (s.core.procs i).state = .unused ∧ (t.core.procs i).state ≠ .unused ∧
    (t.core.procs i).parent = some 0 ∧ (t.core.procs i).pid = 2 ∧
    (∀ j, j ≠ i → (t.core.procs j).state ≠ .unused → (t.core.procs j).pid ≠ 2) ∧
    t.core.PidsDiffer := by
  obtain ⟨s, hs, hf, hsingle, hroom⟩ := exists_fork_call_virt
  obtain ⟨kpt, hI, ⟨_, _, -, -, hno⟩ | htrap⟩ := hs.pre
  · exact absurd hno id
  have hrun := htrap.run_fork (Q := fun v _ => v = s.core.nextpid) hI hf fun x h₀ m hcalling =>
    (Solo.kfork hcalling.good hcalling.working ⟨1, hsingle.others 1 (by decide)⟩
      ⟨hroom.1, hroom.2⟩).mono fun _ _ _ h => h.1
  obtain ⟨_, t, hrun, rfl⟩ := hrun
  rw [hsingle.pid] at hrun
  have hsegment := System.micro_of_run (M := (kernel .virt).segment) hrun
  have ht := hs.run rfl hrun
  obtain ⟨hpids, hfork⟩ := pids_unique hs
  obtain ⟨v, hv, hchild⟩ := hfork s 0 rfl hf _ t hsegment
  obtain rfl := sysret_inj (w := v) hv
  obtain ⟨i, hunused, hlive, hparent, hpid, hothers⟩ := hchild.resolve_left (by decide)
  exact ⟨s, t, i, hs, hf, hpids (.inr ⟨_, rfl, rfl⟩), hsegment, hunused, hlive, hparent, hpid,
    hothers, (pids_unique ht).1 (.inr ⟨_, rfl, rfl⟩)⟩

end OsKernel
