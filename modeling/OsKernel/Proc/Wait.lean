import OsKernel.Proc.Freeproc
import OsKernel.Proc.UserCopy

/-!
# Wait

`kwait` looks for a zombie among the children of the process, with `wait_lock` held. If there is
one, its status is copied out and its slot is emptied; if there are only living children, the
process registers on its own channel before it gives up the lock, so that it cannot miss an exit.
The log then says that the child that is returned has ended with that status, and that its parent
is the one that waits.
-/

namespace OsKernel

variable {L : Layout} {S : Site} {N : Env} {h₀ : Hart} {b : Bool} {c c' c₀ : Core} {p i : Slot}
  {addr : ℕ} {v : Vm} {stored : BitVec 32}

/-! ### Reaping -/

/-- The changes of `kwait` for a zombie, after `copyout`. -/
def Core.reap (p i : Slot) (addr : ℕ) (stored : BitVec 32) (v : Vm) (c : Core) : Core :=
  (((c.emit (.reaped p i (c.procs i).pid addr stored)).setParent i none).freed i v).emit
    (.waitRet p (c.procs i).pid)

theorem Core.reap_eq (c : Core) (p i : Slot) (addr : ℕ) (stored : BitVec 32) (v : Vm) :
    c.reap p i addr stored v = c.vacated i v c.nextpid { c.procs i with parent := none }
      (.waitRet p (c.procs i).pid :: .freed c.cproc i :: .parentSet c.cproc i none ::
        .reaped p i (c.procs i).pid addr stored :: c.log) := by
  have hprocs : (c.reap p i addr stored v).procs =
      Function.update c.procs i (Proc.clear { c.procs i with parent := none }) := by
    show Function.update (Function.update c.procs i { c.procs i with parent := none }) i
      (Proc.clear (Function.update c.procs i { c.procs i with parent := none } i)) = _
    rw [Function.update_idem, Function.update_self]
  rw [Core.vacated, ← hprocs]
  rfl

/-- **The log of a reaping.** The child has ended with the status that was stored, and its parent
returns it. -/
theorem Good.vacates_reap (hg : Good L S c) (hp : c.cproc = some p) (hip : i ≠ p)
    (hpar : (c.procs i).parent = some p) (hz : (c.procs i).state = .zombie)
    (hstored : addr ≠ 0 → stored = (c.procs i).xstate) :
    Vacates S.init p i c.log (c.reap p i addr stored v).log := by
  rw [c.reap_eq, hp]
  show Vacates S.init p i c.log (_ :: _ :: _ :: _ :: c.log)
  have hslot := hg.slot i
  have hended : (history c.log i).ended = some ((c.procs i).pid, (c.procs i).xstate) :=
    hslot.ended.trans (if_pos hz)
  constructor
  case others =>
    intro j hjp hji
    simp [observe, disturb, hjp.symm, Function.update_of_ne hjp, Function.update_of_ne hji]
  case actor =>
    refine ⟨false, some (c.procs i).pid, ?_⟩
    simp [observe, disturb, Function.update_of_ne hip.symm]
  case slot =>
    refine ⟨none, (history c.log i).quiet, (history c.log i).got, ?_⟩
    simp [observe, disturb, hip.symm, Function.update_of_ne hip]
  case orphaned => simp [observe, disturb, hip.symm]
  case ring => exact fun hr => ⟨hr.fits, hr.committed, hr.full, hr.content, hr.echo⟩
  case legal =>
    intro hl
    refine ⟨.inl ?_, ?_, trivial, ?_, hl⟩
    · simp [observe, disturb, Function.update_of_ne hip.symm]
    · show (history _ i).ended = none
      simp [observe, disturb, hip.symm, Function.update_of_ne hip]
    · exact ⟨hslot.parent.trans hpar, hg.kin.lineage i p hpar, _, hended, hstored⟩
  case exits =>
    exact fun h => (((h.cons (by simp)).cons (by simp)).cons (by simp)).cons (by simp)

/-- **A zombie is reaped.** -/
theorem Good.reap {a : ℕ} (hg : Good L S c) (hw : Working p c) (hpar : (c.procs i).parent = some p)
    (hz : (c.procs i).state = .zombie) (hstored : a ≠ 0 → stored = (c.procs i).xstate)
    (hkept : Kept (Function.update c.spaces i none) c.vm v)
    (hsp : ∃ o, Spaces L S.image S.kpt v (Function.update c.spaces i none) o noRole) :
    Good L S (c.reap p i a stored v) ∧ Working p (c.reap p i a stored v) ∧
      ((c.reap p i a stored v).hist p).trap = (c.hist p).trap := by
  have hip : i ≠ p := by
    rintro rfl
    rw [hg.state_running hw.cproc] at hz
    cases hz
  have hvac := hg.vacates_reap (v := v) hw.cproc hip hpar hz hstored
  rw [c.reap_eq] at hvac ⊢
  refine ⟨hg.vacate hw hip ?_ (.inr hpar) (hg.slot i).kstack (hg.slot i).name rfl hkept hsp hvac
    fun hb => ?_, .vacate hg hw hip hkept hvac, hvac.kin.2.2.1⟩
  · rintro (h | h | h) <;> rw [hz] at h <;> cases h
  · rcases (hg.pids hb).next with h | ⟨h₁, h₂, -⟩
    · exact .inl (h.trans_le (Nat.add_le_add_right hkept.mono _))
    · exact .inr ⟨h₁, h₂.trans (Nat.add_le_add_right hkept.mono _), le_rfl⟩

/-! ### The loop of `kwait` -/

/-- The process itself, and the zombie child that is reaped. -/
def Reaps (p : Slot) (c c' : Core) (i : Slot) : Prop :=
  i = p ∨ (c.procs i).state = .zombie ∧ (c.procs i).parent = some p ∧ (c'.procs i).state = .unused

/-- What `copyout` of the status does, if it is called. -/
theorem Good.copyStatus (hg : Good L S c) (hp : c.cproc = some p) (x : BitVec 32) :
    (if addr ≠ 0 then Vm.copyout L (c.procs p).pagetable addr (.buffer (leBytes 4 x.toNat)) 4
      else pure true : VmM Bool).Returns c.vm fun ok v => Copied L S p c v ∧
        (ok = true → addr ≠ 0 → (c.setVm v).userWord p addr = x) := by
  split_ifs with h0
  · refine (hg.copyout hp addr (leBytes 4 x.toNat)).mono ?_
    rintro ok v ⟨hc, -, hbytes⟩
    refine ⟨hc, fun hok _ => ?_⟩
    have hb := hbytes hok
    rw [length_leBytes] at hb
    have hval : leValue (leBytes 4 x.toNat) = x.toNat := leValue_leBytes x.isLt
    rw [Core.userWord]
    show BitVec.ofNat 32 (leValue (v.mem.userBytes (c.procs p).pagetable addr 4)) = x
    rw [hb, hval, BitVec.ofNat_toNat, BitVec.setWidth_eq]
  · refine PanicM.returns_pure.mpr ⟨⟨hg, .refl _ _, .refl _ _ _⟩, fun _ h => absurd h h0⟩

/-- What the loop of `kwait` has found. -/
def ScanOk (L : Layout) (S : Site) (p : Slot) (b : Bool) (c : Core) :
    Except (BitVec 32) Bool → Mode → Core → Prop
  | .error v, μ, c' => Ends L S (Reaps p c c') c (.sysret p (v.signExtend 64)) μ c'
  | .ok havekids, μ, c' => μ = .locked {.wait} b ∧ c' = c ∧
      (havekids = true → ∃ i, (c.procs i).parent = some p) ∧
      ∀ i, (c.procs i).parent = some p → (c.procs i).state ≠ .zombie

/-- **The loop of `kwait`** over the process table. -/
theorem kwaitScan_runs (hg : Good L S c) (hw : Working p c) (hcall : (c.hist p).Called)
    (hquiet : (c.hist p).quiet = true) : ∀ (ps : List Slot) (havekids : Bool),
    (havekids = true → ∃ i, (c.procs i).parent = some p) →
    (∀ i, i ∉ ps → (c.procs i).parent = some p → (c.procs i).state ≠ .zombie) →
    Runs L S N h₀ (kwaitScan L p addr ps havekids) (.locked {.wait} b) c (ScanOk L S p b c)
  | [], havekids, hkids, hseen => does_pure ⟨rfl, rfl, hkids, fun i => hseen i (by simp)⟩
  | i :: ps, havekids, hkids, hseen => by
    refine .bind (Locked.getCore (does_ite (fun hpar => ?_) fun hpar => ?_))
    swap
    · -- not a child of `p`
      refine kwaitScan_runs hg hw hcall hquiet ps havekids hkids fun j hj hjpar => ?_
      exact hseen j (fun hmem => (List.mem_cons.mp hmem).elim
        (fun hji => hpar (hji ▸ hjpar)) hj) hjpar
    refine .bind (Locked.acquire (by simp) (.bind (Locked.getCore (does_ite (fun hz => ?_)
      fun hz => .bind ?_))))
    swap
    · -- a child that has not exited
      refine Locked.release_inner (by simp) (by simp) ?_
      refine kwaitScan_runs hg hw hcall hquiet ps true (fun _ => ⟨i, hpar⟩) fun j hj hjpar => ?_
      by_cases hji : j = i
      · exact hji ▸ hz
      · exact hseen j (by simp [hji, hj]) hjpar
    refine .bind (Locked.getCore (.bind (Locked.getCore (.bind (Locked.getCore (.bind ?_))))))
    refine Locked.coreAtomic (returns_liftVm.mpr ((hg.copyStatus hw.cproc _).mono ?_))
    rintro ok v ⟨hcopied, hword⟩
    have hg₁ := hcopied.good
    have hw₁ := hw.copied hcopied
    refine does_ite (fun _ => ?_) fun hok => ?_
    · -- the status could not be stored: nothing has happened
      refine .bind (Locked.modCore (.bind (Locked.release_inner (by simp) (by simp) (.bind
        (Locked.release_last ?_ (does_pure ?_))))))
      · exact hg₁.emit_running hw₁.cproc rfl trivial (.inr ⟨rfl, hquiet⟩) (.inr hw₁.chan) ⟨rfl, rfl⟩
      · have hsp : Spares (· = p) c ((c.setVm v).emit (.waitRet p (-1))) :=
          hcopied.spares.trans (.of_eq rfl rfl)
        exact ⟨⟨⟨b, rfl⟩, hw₁.emit rfl, hcall⟩, hsp.mono fun j hj => .inl hj⟩
    · rw [Bool.not_eq_false] at hok
      refine .bind (Locked.modCore (.bind (Locked.modCore (.bind (Locked.coreAtomic
        ((freeproc_returns (R := fun v' => Kept (Function.update c.spaces i none) v v' ∧
          ∃ o, Spaces L S.image S.kpt v' (Function.update c.spaces i none) o noRole) ?_).mono
            ?_))))))
      · obtain ⟨o, hsp⟩ := hg₁.spaces
        rw [Core.setParent_self]
        exact hsp.freeMemory (Core.spaces_of_ne (c := c) (by rw [hz]; decide))
      · rintro _ _ ⟨v', ⟨hkept, hsp⟩, rfl⟩
        obtain ⟨hg₂, hw₂, htrap⟩ := hg₁.reap (i := i) (a := addr) (v := v') hw₁ hpar hz
          (hword hok) hkept hsp
        refine .bind (Locked.modCore (.bind (Locked.release_inner (by simp) (by simp) (.bind
          (Locked.release_last hg₂ (does_pure ⟨⟨⟨b, rfl⟩, hw₂, ?_⟩, ?_⟩))))))
        · obtain ⟨t, ht, hcall⟩ := hcall
          exact ⟨t, htrap.trans ht, hcall⟩
        · have hsp₁ : Spares (· = i) (c.setVm v) ((c.setVm v).reap p i addr
              ((c.setVm v).userWord p addr) v') := by
            rw [Core.reap_eq]
            exact .vacate hkept
          refine Spares.trans (hcopied.spares.mono fun j hj => Or.inl hj)
            (hsp₁.mono fun j hj => Or.inr ?_)
          subst hj
          exact ⟨hz, hpar, congrArg Proc.state (Core.freed_self ..)⟩

/-- **A round of `kwait`.** The process returns, or it goes to sleep with a living child. -/
theorem kwaitRound_ends (hg : Good L S c) (hw : Working p c) (hcall : ∃ t, (c.hist p).InCall t)
    (hquiet : (c.hist p).quiet = true) :
    Runs L S N h₀ (kwaitRound L p addr) (.locked {.wait} b) c fun a μ c' =>
      Ends L S (Reaps p c c') c a μ c' := by
  have hcalled : (c.hist p).Called := by
    obtain ⟨t, ht⟩ := hcall
    exact ht.called
  have hself : ∀ {a μ c'}, Ends L S (· = p) c a μ c' → Ends L S (Reaps p c c') c a μ c' :=
    fun h => ⟨h.1, h.2.mono fun j hj => .inl hj⟩
  -- the two ways to return -1 from here
  have hstop : Runs L S N h₀ (do
      modCore fun c => c.emit (.waitRet p (-1))
      release .wait
      return .sysret p ((-1 : BitVec 32).signExtend 64)) (.locked {.wait} b) c
      (fun a μ c' => Ends L S (Reaps p c c') c a μ c') := by
    refine .bind (Locked.modCore (.bind (Locked.release_last ?_ (does_pure (hself ?_)))))
    · exact hg.emit_running hw.cproc rfl trivial (.inr ⟨rfl, hquiet⟩) (.inr hw.chan) ⟨rfl, rfl⟩
    · exact ⟨⟨⟨b, rfl⟩, hw.emit rfl, hcalled⟩, .of_eq rfl rfl⟩
  refine .bind ((kwaitScan_runs hg hw hcalled hquiet slots false (by simp)
    fun i hi => absurd (List.mem_finRange i) hi).mono ?_)
  rintro (v | havekids) μ c' h
  · exact does_pure h
  · obtain ⟨rfl, rfl, hkids, hz⟩ := h
    cases havekids with
    | false => exact hstop
    | true =>
      refine .bind (Locked.killed (by simp) (by simp) ?_)
      rw [hg.not_killed hcalled]
      refine .bind (Locked.sleepPrepare hw.cproc (by simp) (by simp) (.bind (Locked.release_last
        (hg.prepare hw.cproc (fun h => by cases h) fun j hj => ?_) ?_)))
      · cases hj
        exact ⟨rfl, hkids rfl, hz⟩
      · have hsp : Spares (· = p) c' (c'.prepare p (.proc p)) := .of_eq rfl (c'.spaces_prepare p _)
        refine (sleep_ends (hw.toBusy.prepare _) ?_ hsp).mono fun _ _ _ => hself
        exact Resume.Ok.prepare (k := .kwait addr) ⟨hcall, hquiet⟩ _

/-- `kwait` takes its lock. -/
theorem kwaitEnter_ends (hw : Working p c) (hcall : ∃ t, (c.hist p).InCall t)
    (hsp : Spares (· = p) c₀ c) :
    Runs L S N h₀ (kwaitEnter addr) (.unlocked b) c (Ends L S (· = p) c₀) := by
  refine .bind (Unlocked.myproc fun c₁ hd₁ _ => .bind ?_)
  have hw₁ := hw.drift (N.drift hd₁)
  rw [hw₁.cproc]
  refine does_deref
    (.bind (Unlocked.acquire fun c₂ hd₂ hg₂ => .bind (Locked.modCore (does_pure ?_))))
  have hd := N.drift (N.trans hd₁ hd₂)
  have hw₂ := hw.drift hd
  rw [← hd.hist] at hcall
  have hhist : (c₂.emit (.waitCall p addr)).hist p =
      { c₂.hist p with quiet := true, got := none } := by
    simp [Core.hist, Core.emit, observe]
  refine ⟨⟨⟨b, rfl⟩, ?_, hw₂.emit (by simp [observe, Core.hist]), ?_, ?_⟩,
    (hsp.trans hd.spares).trans (.of_eq rfl rfl)⟩
  · exact Good.emit_running hg₂ hw₂.cproc rfl trivial trivial (.inr hw₂.chan)
      (by simp [observe, Core.hist])
  · rw [hhist]
    exact hcall
  · rw [hhist]

end OsKernel
