import OsKernel.Console.Write

/-!
# What a read takes from the ring

`consoleread` takes a byte from the ring with `cons.r++` and then copies it to the process. If the
copy fails it leaves the loop and returns the number of bytes it has copied, but the byte it could
not copy is gone. `ReadCall` follows a call from its entry to its end and counts by how much the
call itself has advanced `cons.r`. The count agrees with what the call returns exactly if no copy
has failed.

The rounds of the loop are run without interruption, since `cons.lock` is held. While the call
sleeps, anything may happen to the ring, to the buffer of the caller and to everything else.
-/

namespace OsKernel

variable {L : Layout} {p : Slot} {a b : Label} {s t : K} {dst : ℕ} {n target adv : BitVec 32}
  {failed : Bool}

/-! ### What leaves the ring alone -/

theorem killed_post (q : Slot) (s : K) : (killed q).Post s fun _ t => t.core = s.core :=
  .bind ((acquire_post _ s).mono fun _ _ ht => .bind (Prog.post_read (.bind
    ((release_post _ _).mono fun _ _ hu => Prog.post_pure (hu.trans ht)))))

/-! ### A process that reads -/

/-- `p` runs; `swtch` leads it back to the scheduler. -/
structure Core.Runs (c : Core) (p : Slot) : Prop where
  cproc : c.cproc = some p
  ccontext : c.ccontext = some (.schedulerBack p)

/-- The label is one of `consoleread`, or its end, for the process `p`. -/
def Label.InRead (p : Slot) : Label → Prop
  | .consoleread q _ _ _ | .consolereadWait q _ _ _ | .sysret q _ => q = p
  | _ => False

/-- `either_copyout` of the next byte of the ring returns −1. -/
def Core.copyFails (L : Layout) (p : Slot) (dst : ℕ) (c : Core) : Bool :=
  match Vm.copyout L (c.procs p).pagetable dst (.buffer [c.cons.get c.cons.r]) 1 c.vm with
  | .ok (ok, _) => !ok
  | .error _ => false

/-- The round at a label takes a byte and cannot copy it. -/
def Label.copyFails (L : Layout) : Label → K → Bool
  | .consolereadWait p dst _ _, s =>
    decide (s.core.cons.r ≠ s.core.cons.w) && s.core.copyFails L p dst
  | _, _ => false

/-- **A call of `consoleread`** by the process `p` for `target` bytes: where it is, by how much it
has itself advanced `cons.r`, and whether it could not copy a byte. -/
inductive ReadCall (L : Layout) (p : Slot) (target : BitVec 32) :
    Label → K → (adv : BitVec 32) → (failed : Bool) → Prop
  | enter {s t : K} {a : Label} (dst : ℕ) (hs : s.core.Runs p)
      (hrun : (consolereadEnter p dst target).run s = .ok (a, t)) :
      ReadCall L p target a t (t.core.cons.r - s.core.cons.r) false
  | round {a b : Label} {s t : K} {adv : BitVec 32} {failed : Bool}
      (h : ReadCall L p target a s adv failed) (hnext : (kernel L).Next (a, s) (b, t))
      (hb : b.InRead p) :
      ReadCall L p target b t (adv + (t.core.cons.r - s.core.cons.r)) (failed || a.copyFails L s)
  | sleep {b : Label} {s t u : K} {dst : ℕ} {n adv : BitVec 32} {failed : Bool}
      (h : ReadCall L p target (.consolereadWait p dst n target) s adv failed)
      (hnext : (kernel L).Next (.consolereadWait p dst n target, s) (b, t)) (hb : ¬b.InRead p)
      (hu : u.core.Runs p) :
      ReadCall L p target (.consolereadWait p dst n target) u
        (adv + (t.core.cons.r - s.core.cons.r)) failed

/-! ### The rounds -/

theorem sleepPrepare_post (chan : Chan) (hp : s.core.cproc = some p) :
    (sleepPrepare chan).Post s fun _ t => t.core.cons = s.core.cons ∧
      t.core.cproc = s.core.cproc ∧ t.core.ccontext = s.core.ccontext := by
  refine myproc_bind_post hp fun t ht => ?_
  refine .bind ((acquire_post _ t).mono fun _ u hu => ?_)
  refine .bind (Prog.post_update ((release_post _ _).mono fun _ v hv => ?_))
  rw [hv, ← ht, ← hu]
  exact ⟨rfl, rfl, rfl⟩

theorem sleep_post {k : Resume} {l : Label} (hp : s.core.cproc = some p)
    (hl : s.core.ccontext = some l) :
    (OsKernel.sleep k).Post s fun b t => t.core.cons = s.core.cons ∧ (b = l ∨ b = .awake p k) := by
  refine myproc_bind_post hp fun t ht => ?_
  refine .bind (Prog.post_update ?_)
  refine .bind ((acquire_post _ _).mono fun _ u hu => ?_)
  have hcore : u.core = s.core.emit (.pause p t.hart.sie) := by rw [hu, ← ht]
  refine .bind (Prog.post_read (Prog.post_ite (fun _ => ?_) fun _ => ?_))
  · -- the process is still to sleep
    refine .bind (Prog.post_update ((sched_post _ _).mono ?_))
    rintro b v ⟨hb, q, intena, -, hv⟩
    replace hb : u.core.ccontext = some b := hb
    rw [hcore] at hb
    refine ⟨?_, .inl (Option.some.inj (hb.symm.trans hl))⟩
    rw [hv]
    show u.core.cons = s.core.cons
    rw [hcore]
    rfl
  · -- it was woken in between
    refine .bind ((release_post _ _).mono fun _ v hv => ?_)
    refine .bind (Prog.post_update (Prog.post_pure ⟨?_, .inr rfl⟩))
    show v.core.cons = s.core.cons
    rw [hv, hcore]
    rfl

theorem consolereadDone_post (v : BitVec 32) (s : K) : (consolereadDone p v).Post s fun b t =>
    b = .sysret p (v.signExtend 64) ∧ t.core.cons = s.core.cons := by
  refine .bind (Prog.post_update (.bind ((release_post _ _).mono fun _ t ht => Prog.post_pure
    ⟨rfl, ?_⟩)))
  rw [ht]
  rfl

/-- How a round of the inner loop ends. -/
inductive WaitRound (L : Layout) (p : Slot) (dst : ℕ) (n target : BitVec 32) (s : K) :
    Label → K → Prop
  /-- The ring is empty: the process is killed or goes to sleep. -/
  | empty {b : Label} {t : K} (hempty : s.core.cons.r = s.core.cons.w)
      (hcons : t.core.cons = s.core.cons)
      (hb : b = .sysret p ((-1 : BitVec 32).signExtend 64) ∨ ¬b.InRead p) :
      WaitRound L p dst n target s b t
  /-- A byte is taken and not copied. -/
  | lost {t : K} (hne : s.core.cons.r ≠ s.core.cons.w) (hcopy : s.core.copyFails L p dst = true)
      (hcons : t.core.cons = s.core.cons.pop) :
      WaitRound L p dst n target s (.sysret p ((target - n).signExtend 64)) t
  /-- A byte is taken and copied. -/
  | handed {b : Label} {t : K} (hne : s.core.cons.r ≠ s.core.cons.w)
      (hcopy : s.core.copyFails L p dst = false) (hcons : t.core.cons = s.core.cons.pop)
      (hb : b = .sysret p ((target - (n - 1)).signExtend 64) ∨
        b = .consoleread p ((dst + 1) % wordSize) (n - 1) target ∧ t.core.Runs p) :
      WaitRound L p dst n target s b t

/-- By itself `either_copyout` to the user is `copyout` with the page table of the process. -/
theorem eitherCopyout_post {bytes : List UInt8} (hp : s.core.cproc = some p) :
    (eitherCopyout L true dst bytes).Post s fun ok t => ∃ v,
      Vm.copyout L (s.core.procs p).pagetable dst (.buffer bytes) bytes.length s.core.vm =
        .ok (ok, v) ∧ t.core = s.core.setVm v := by
  refine myproc_bind_post hp fun t ht => .bind (Prog.post_read ?_)
  rw [if_pos rfl, ← ht]
  exact vmAtomic_post fun ok v hcopy => ⟨v, hcopy, rfl⟩

/-- **A round of the inner loop.** -/
theorem consolereadWaitRound_post (hs : s.core.Runs p) :
    (consolereadWaitRound L p dst n target).Post s (WaitRound L p dst n target s) := by
  refine .bind (Prog.post_read (Prog.post_ite (fun hempty => ?_) fun hne => ?_))
  · refine myproc_bind_post hs.cproc fun t ht => .bind ((killed_post p t).mono fun k u hu =>
      Prog.post_ite (fun _ => ?_) fun _ => ?_)
    · refine (consolereadDone_post _ u).mono fun b v hv => .empty hempty ?_ (.inl hv.1)
      rw [hv.2, hu, ht]
    · rw [← ht, ← hu] at hs
      refine .bind ((sleepPrepare_post _ hs.cproc).mono fun _ v hv => .bind
        ((release_post _ v).mono fun _ w hw => ?_))
      have hcp : w.core.cproc = some p := by rw [hw, hv.2.1, hs.cproc]
      have hcc : w.core.ccontext = some (.schedulerBack p) := by rw [hw, hv.2.2, hs.ccontext]
      refine (sleep_post hcp hcc).mono fun b x hx => .empty hempty ?_ (.inr ?_)
      · rw [hx.1, hw, hv.1, hu, ht]
      · rcases hx.2 with rfl | rfl <;> exact id
  · refine .bind (Prog.post_update (.bind ((eitherCopyout_post (p := p)
      (s := ⟨{ s.core with cons := s.core.cons.pop }, s.hart⟩) hs.cproc).mono ?_)))
    rintro ok t ⟨v, hcopy, ht⟩
    replace hcopy : Vm.copyout L (s.core.procs p).pagetable dst
        (.buffer [s.core.cons.get s.core.cons.r]) 1 s.core.vm = .ok (ok, v) := hcopy
    have hfails : s.core.copyFails L p dst = !ok := by
      rw [Core.copyFails, hcopy]
    have hcons : t.core.cons = s.core.cons.pop := by
      rw [ht]
      rfl
    refine Prog.post_ite (fun hok => .bind (Prog.post_update ?_)) fun hok => .bind (Prog.post_update
      (Prog.post_ite (fun _ => ?_) fun _ => Prog.post_pure ?_))
    · refine (consolereadDone_post _ _).mono ?_
      rintro _ u ⟨rfl, hu⟩
      exact .lost hne (by rw [hfails, hok]; rfl) (hu.trans hcons)
    · refine (consolereadDone_post _ _).mono fun b u hu => ?_
      exact .handed hne (by rw [hfails, Bool.eq_true_of_not_eq_false hok]; rfl) (hu.2.trans hcons)
        (.inl hu.1)
    · refine .handed hne (by rw [hfails, Bool.eq_true_of_not_eq_false hok]; rfl) hcons
        (.inr ⟨rfl, ?_, ?_⟩)
      · exact (congrArg Core.cproc ht).trans hs.cproc
      · exact (congrArg Core.ccontext ht).trans hs.ccontext

/-- The test of the outer loop. -/
theorem consolereadRound_post (hs : s.core.Runs p) :
    (consolereadRound p dst n target).Post s fun b t => t.core.cons = s.core.cons ∧
      (b = .consolereadWait p dst n target ∧ t.core.Runs p ∨
        b = .sysret p ((target - n).signExtend 64)) := by
  refine Prog.post_ite (fun _ => Prog.post_pure ⟨rfl, .inl ⟨rfl, hs⟩⟩) fun _ => ?_
  exact (consolereadDone_post _ s).mono fun _ _ ht => ⟨ht.2, .inr ht.1⟩

theorem consolereadEnter_post (hs : s.core.Runs p) :
    (consolereadEnter p dst n).Post s fun b t => b = .consoleread p dst n n ∧
      t.core.cons = s.core.cons ∧ t.core.Runs p := by
  refine .bind ((acquire_post _ s).mono fun _ t ht => .bind (Prog.post_update
    (Prog.post_pure ⟨rfl, ?_, ?_⟩)))
  · show t.core.cons = s.core.cons
    rw [ht]
  · rw [← ht] at hs
    exact ⟨hs.cproc, hs.ccontext⟩

/-! ### The call -/

/-- What the variables of a call say about its advance. -/
def ReadInv (p : Slot) (target : BitVec 32) (s : K) (adv : BitVec 32) (failed : Bool) :
    Label → Prop
  | .consoleread q _ n t | .consolereadWait q _ n t =>
    q = p ∧ t = target ∧ s.core.Runs p ∧ failed = false ∧ adv = target - n
  | .sysret _ w => ∃ v : BitVec 32, w = v.signExtend 64 ∧
      (v = -1 ∨ adv = v + if failed then 1 else 0)
  | _ => False

theorem advance_same (h : t.core.cons = s.core.cons) (x : BitVec 32) :
    x + (t.core.cons.r - s.core.cons.r) = x := by
  rw [h, BitVec.sub_self, BitVec.add_zero]

theorem advance_pop (h : t.core.cons = s.core.cons.pop) (x : BitVec 32) :
    x + (t.core.cons.r - s.core.cons.r) = x + 1 := by
  rw [h, Cons.pop]
  bv_omega

theorem ReadCall.inv (h : ReadCall L p target a s adv failed) :
    ReadInv p target s adv failed a := by
  induction h with
  | enter dst hs hrun =>
    obtain ⟨rfl, hcons, ht⟩ := consolereadEnter_post hs _ _ hrun
    rw [hcons]
    exact ⟨rfl, rfl, ht, rfl, by bv_omega⟩
  | @round a b s t adv failed _ hnext hb ih =>
    obtain ⟨x, hx, hrun⟩ := hnext
    cases a with
    | consoleread q dst n tg =>
      obtain ⟨rfl, rfl, hs, rfl, rfl⟩ := ih
      cases hx
      obtain ⟨hcons, ⟨rfl, ht⟩ | rfl⟩ := consolereadRound_post hs _ _ hrun
      · exact ⟨rfl, rfl, ht, rfl, advance_same hcons _⟩
      · exact ⟨tg - n, rfl, .inr ((advance_same hcons _).trans (BitVec.add_zero _).symm)⟩
    | consolereadWait q dst n tg =>
      obtain ⟨rfl, rfl, hs, rfl, rfl⟩ := ih
      cases hx
      cases consolereadWaitRound_post hs _ _ hrun with
      | empty hempty hcons hb' =>
        obtain rfl := hb'.resolve_right (not_not.mpr hb)
        exact ⟨-1, rfl, .inl rfl⟩
      | lost hne hcopy hcons =>
        have hfailed : Label.copyFails L (.consolereadWait q dst n tg) s = true := by
          simp [Label.copyFails, hne, hcopy]
        rw [hfailed]
        exact ⟨tg - n, rfl, .inr (advance_pop hcons _)⟩
      | handed hne hcopy hcons hb' =>
        have hcopied : Label.copyFails L (.consolereadWait q dst n tg) s = false := by
          simp [Label.copyFails, hcopy]
        have hadv : tg - n + (_ - s.core.cons.r) = tg - (n - 1) :=
          (advance_pop hcons _).trans (by bv_omega)
        rw [hcopied, hadv]
        rcases hb' with rfl | ⟨rfl, ht⟩
        · exact ⟨tg - (n - 1), rfl, .inr (BitVec.add_zero _).symm⟩
        · exact ⟨rfl, rfl, ht, rfl, rfl⟩
    | sysret q w =>
      -- the call has returned
      cases hx
      have hlabel : (syscallReturn q w).Post s fun b _ => b = .usertrapTail q :=
        .bind (Prog.post_update (Prog.post_pure rfl))
      obtain rfl := hlabel _ _ hrun
      exact absurd hb id
    | _ => exact absurd ih id
  | @sleep b s t u dst n adv failed _ hnext hb hu ih =>
    obtain ⟨-, -, hs, rfl, rfl⟩ := ih
    obtain ⟨x, hx, hrun⟩ := hnext
    cases hx
    -- a round that takes a byte stays in the call
    cases consolereadWaitRound_post hs _ _ hrun with
    | empty hempty hcons _ => exact ⟨rfl, rfl, hu, rfl, advance_same hcons _⟩
    | lost hne hcopy hcons => exact absurd rfl hb
    | handed hne hcopy hcons hb' => rcases hb' with rfl | ⟨rfl, -⟩ <;> exact absurd rfl hb

/-- **What a read takes from the ring.** For every console state, every address and every `n`: a
call of `consoleread` that returns a count has advanced `cons.r` by this count exactly if each byte
it has taken was copied to the caller; if a copy has failed, it has taken one byte more than it
returns. -/
theorem consoleread_advances {w : BitVec 64}
    (h : ReadCall L p target (.sysret p w) s adv failed) : ∃ v : BitVec 32, w = v.signExtend 64 ∧
      (0 ≤ v.toInt → (adv = v ↔ failed = false) ∧ (failed = true → adv = v + 1)) := by
  obtain ⟨v, rfl, hv⟩ := h.inv
  refine ⟨v, rfl, fun hpos => ?_⟩
  have hadv := hv.resolve_left fun hneg => absurd hpos (by rw [hneg]; decide)
  cases failed with
  | false => exact ⟨⟨fun _ => rfl, fun _ => hadv.trans (BitVec.add_zero v)⟩, nofun⟩
  | true =>
    refine ⟨⟨fun heq => absurd (hadv.symm.trans heq) ?_, nofun⟩, fun _ => hadv⟩
    simp

/-! ### A call that loses a byte -/

/-- A copy of one byte to a user page table fails exactly if the user cannot store to the
address. -/
theorem UserTable.copyout_byte {r : ℕ} {v : Vm} (h : UserTable v.mem r) (x : UInt8) (dst : ℕ) :
    ∃ v', Vm.copyout L r dst (.buffer [x]) 1 v = .ok (decide (v.mem.Storable r dst), v') := by
  obtain ⟨ok, v', hcopy, m', k, -, hst⟩ := h.copyout_returns (L := L) (.buffer [x]) dst 1
  refine ⟨v', hcopy.trans (congrArg (fun ok => Except.ok (ok, v')) ?_)⟩
  have hiff : ok = true ↔ v.mem.Storable r dst := by
    rw [hst.ok_iff]
    constructor
    · rintro rfl
      exact hst.storable 0 Nat.one_pos
    · intro hdst
      by_contra hne
      have hle := hst.le
      obtain rfl : k = 0 := by omega
      exact hst.stop Nat.one_pos hdst
  cases ok with
  | false => exact (decide_eq_false (hiff.not.mp (by decide))).symm
  | true => exact (decide_eq_true (hiff.mp rfl)).symm

theorem Core.copyFails_eq {c : Core} (h : UserTable c.vm.mem (c.procs p).pagetable) :
    c.copyFails L p dst = !decide (c.vm.mem.Storable (c.procs p).pagetable dst) := by
  obtain ⟨v, hcopy⟩ := h.copyout_byte (L := L) (c.cons.get c.cons.r) dst
  rw [Core.copyFails, hcopy]

theorem run_consolereadDone (v : BitVec 32) (hheld : .cons ∈ s.hart.held)
    (hsie : s.hart.sie = false) (hnoff : 0 < s.hart.noff) : ∃ h, (consolereadDone p v).run s =
      .ok (.sysret p (v.signExtend 64), ⟨s.core.emit (.readRet p v), h⟩) := by
  rw [consolereadDone, modCore, Prog.run_update_bind]
  exact ⟨_, run_release_bind (s := ⟨s.core.emit (.readRet p v), s.hart⟩) .cons hheld hsie hnoff _⟩

/-- A round that takes a byte, up to the end of the copy. -/
theorem run_consolereadWaitRound (n target : BitVec 32) (hs : s.core.Runs p)
    (hne : s.core.cons.r ≠ s.core.cons.w)
    (hoff : 0 < s.hart.noff → s.hart.sie = false) {ok : Bool} {v : Vm}
    (hcopy : Vm.copyout L (s.core.procs p).pagetable dst (.buffer [s.core.cons.get s.core.cons.r]) 1
      s.core.vm = .ok (ok, v)) :
    ∃ i, (consolereadWaitRound L p dst n target).run s = (if ok = false then do
        modCore fun c => c.emit (.lost p (s.core.cons.get s.core.cons.r))
        consolereadDone p (target - n)
      else do
        modCore fun c =>
          c.emit (.handed p (c.vm.mem (c.vm.mem.phys (c.procs p).pagetable dst)))
        if s.core.cons.get s.core.cons.r = 10 then
          consolereadDone p (target - (n - 1))
        else
          return .consoleread p ((dst + 1) % wordSize) (n - 1) target : KernelM Label).run
        ⟨{ s.core with vm := v, cons := s.core.cons.pop }, { s.hart with intena := i }⟩ := by
  obtain ⟨i, hvisited⟩ := Hart.visited_eq hoff
  refine ⟨i, ?_⟩
  rw [consolereadWaitRound, getCore, Prog.run_read_bind, if_neg hne]
  show Prog.run (modCore _ >>= _) s = _
  rw [modCore, Prog.run_update_bind]
  refine Prog.run_bind_of_ok ?_
  refine (run_myproc_bind (s := ⟨{ s.core with cons := s.core.cons.pop }, s.hart⟩) hs.cproc _).trans
    ?_
  rw [getCore, Prog.run_read_bind, if_pos rfl]
  refine (run_vmAtomic (s := ⟨{ s.core with cons := s.core.cons.pop }, s.hart.visited⟩)
    hcopy).trans ?_
  rw [← hvisited]
  rfl

/-- The process has `cons.lock` and finds the end of a line in the ring. -/
structure AtLine (p : Slot) (s : K) : Prop where
  runs : s.core.Runs p
  table : UserTable s.core.vm.mem (s.core.procs p).pagetable
  some : s.core.cons.r ≠ s.core.cons.w
  byte : s.core.cons.get s.core.cons.r = 10
  held : .cons ∈ s.hart.held
  sie : s.hart.sie = false
  noff : 0 < s.hart.noff

/-- A call that takes the end of a line returns, whether it can store it or not. -/
theorem ReadCall.line (hcall : ReadCall L p target (.consolereadWait p dst n target) s adv failed)
    (hs : AtLine p s) {ok : Bool}
    (hok : decide (s.core.vm.mem.Storable (s.core.procs p).pagetable dst) = ok) : ∃ t,
      ReadCall L p target (.sysret p ((target - if ok then n - 1 else n).signExtend 64)) t (adv + 1)
        (failed || !ok) := by
  obtain ⟨v, hcopy⟩ := hs.table.copyout_byte (L := L) (s.core.cons.get s.core.cons.r) dst
  rw [hok] at hcopy
  obtain ⟨i, hround⟩ := run_consolereadWaitRound n target hs.runs hs.some (fun _ => hs.sie) hcopy
  have hnext : ∃ (e : Event) (h : Hart), (kernel L).Next (.consolereadWait p dst n target, s)
      (.sysret p ((target - if ok then n - 1 else n).signExtend 64),
        ⟨({ s.core with vm := v, cons := s.core.cons.pop }.emit e).emit
          (.readRet p (target - if ok then n - 1 else n)), h⟩) := by
    cases ok with
    | false =>
      rw [if_pos rfl, modCore, Prog.run_update_bind] at hround
      obtain ⟨h, hdone⟩ := run_consolereadDone (p := p) (target - n)
        (s := ⟨{ s.core with vm := v, cons := s.core.cons.pop }.emit _,
          { s.hart with intena := i }⟩)
        hs.held hs.sie hs.noff
      exact ⟨_, h, _, rfl, hround.trans hdone⟩
    | true =>
      rw [if_neg (by decide), modCore, Prog.run_update_bind, if_pos hs.byte] at hround
      obtain ⟨h, hdone⟩ := run_consolereadDone (p := p) (target - (n - 1))
        (s := ⟨{ s.core with vm := v, cons := s.core.cons.pop }.emit _,
          { s.hart with intena := i }⟩)
        hs.held hs.sie hs.noff
      exact ⟨_, h, _, rfl, hround.trans hdone⟩
  obtain ⟨e, h, hnext⟩ := hnext
  have hfails : Label.copyFails L (.consolereadWait p dst n target) s = !ok := by
    simp [Label.copyFails, hs.some, Core.copyFails_eq hs.table, hok]
  have hresult := hcall.round hnext rfl
  rw [hfails, advance_pop (t := ⟨_, h⟩) rfl] at hresult
  exact ⟨_, hresult⟩

/-- The process with one page of memory, and the end of a line in the ring. -/
def oneLineK (L : Layout) : K := ⟨{ onePageCore with cons := ⟨fun _ => 10, 0, 1, 1⟩ }, .plain L⟩

/-- A call of `consoleread` in this state, up to the inner loop. -/
theorem readCall_oneLine (dst : ℕ) : ∃ s : K,
    ReadCall .virt 0 1 (.consolereadWait 0 dst 1 1) s 0 false ∧ AtLine 0 s ∧
      s.core.vm = onePageVm ∧ (s.core.procs 0).pagetable = 0x80041000 := by
  let s : K :=
    ⟨(oneLineK .virt).core.emit (.readCall 0 dst 1 ((oneLineK .virt).core.bufferWritable 0
    dst 1)), (Hart.plain .virt).pushed.take .cons⟩
  have henter : (consolereadEnter 0 dst 1).run (oneLineK .virt) = .ok (.consoleread 0 dst 1 1, s) :=
    run_acquire_bind .cons (Finset.notMem_empty _) _
  have hround : (kernel .virt).Next (.consoleread 0 dst 1 1, s) (.consolereadWait 0 dst 1 1, s) :=
    ⟨_, rfl, rfl⟩
  have hcall := (ReadCall.enter (L := .virt) (p := 0) dst ⟨rfl, rfl⟩ henter).round hround rfl
  rw [advance_same rfl, show s.core.cons.r - (oneLineK .virt).core.cons.r = 0 from
    BitVec.sub_self _] at hcall
  refine ⟨s, hcall, ⟨⟨rfl, rfl⟩, onePageVm_userTable, ?_, rfl, Finset.mem_insert_self _ _, rfl,
    Nat.one_pos⟩, rfl, rfl⟩
  exact show (0 : BitVec 32) ≠ 1 by decide

/-- A read of one byte into the page of the process. -/
theorem consoleread_advances_oneLine : ∃ (t : K) (v : BitVec 32),
    ReadCall .virt 0 1 (.sysret 0 (v.signExtend 64)) t 1 false ∧ 0 ≤ v.toInt ∧ 1 = v := by
  obtain ⟨s, hcall, hs, hvm, hpt⟩ := readCall_oneLine 0
  have hdst : s.core.vm.mem.Storable (s.core.procs 0).pagetable 0 := by
    rw [hvm, hpt]
    exact onePageVm_storable (by decide)
  obtain ⟨t, ht⟩ := hcall.line hs (decide_eq_true hdst)
  replace ht : ReadCall .virt 0 1 (.sysret 0 ((1 : BitVec 32).signExtend 64)) t 1 false := ht
  obtain ⟨v, hv, hadv⟩ := consoleread_advances ht
  obtain rfl : 1 = v := by
    refine BitVec.eq_of_toInt_eq ?_
    have hint := congrArg BitVec.toInt hv
    rwa [BitVec.toInt_signExtend_of_le (by decide), BitVec.toInt_signExtend_of_le
      (by decide)] at hint
  exact ⟨t, 1, ht, by decide, (hadv (by decide)).1.mpr rfl⟩

/-- **A read that loses a byte.** The buffer is not mapped: the call returns 0, and has taken a byte
from the ring. -/
theorem consoleread_loses_byte : ∃ t : K,
    ReadCall .virt 0 1 (.sysret 0 ((0 : BitVec 32).signExtend 64)) t 1 true := by
  obtain ⟨s, hcall, hs, hvm, hpt⟩ := readCall_oneLine 8192
  have hdst : ¬s.core.vm.mem.Storable (s.core.procs 0).pagetable 8192 := by
    rw [hvm, hpt]
    intro h
    exact absurd (onePageVm_userPage h.loadable.userPage).1 (by decide)
  exact hcall.line hs (decide_eq_false hdst)

end OsKernel
