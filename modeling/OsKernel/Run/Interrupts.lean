import OsKernel.Kernel.Record
import OsKernel.Run.Processes

/-!
# Interrupts in every run

`intena` and `noff` belong to the hart, and whether interrupts are on belongs to a process. Two
things bring them together: `sched` keeps `intena` on the stack of the process while the process is
switched out, and `push_off` saves it for the first of several sections only.

Nothing in the kernel calls `yield`. The machine below may call it at the end of `usertrap`, for any
trap and as often as it likes.
-/

namespace OsKernel

variable {L : Layout} {S : Site} {image : Mem} {fails : ℕ → Bool}
  {d e : System.Config K Panic Label} {s : K} {h₀ h : Hart} {ls ls' : Finset Lock} {k k' : ℕ}

/-! ### A kernel that yields -/

/-- A step of the kernel, or a call of `yield` at the end of `usertrap`. -/
inductive YieldStep (L : Layout) : System.Config K Panic Label → System.Config K Panic Label → Prop
  | kernel {d e : System.Config K Panic Label} (h : (kernel L).Micro d e) : YieldStep L d e
  | yield (s : K) (p : Slot) :
      YieldStep L ⟨s, .ret (.usertrapTail p), []⟩ ⟨s, yield .usertrap, []⟩

/-- The configurations of the kernel that yields. -/
def Yielding (L : Layout) (image : Mem) (fails : ℕ → Bool) (d : System.Config K Panic Label) :
    Prop :=
  ∃ s, Booted L image fails s ∧ Relation.ReflTransGen (YieldStep L) ⟨s, .ret .scheduler, []⟩ d

theorem Reachable.yielding (hd : Reachable L image fails d) : Yielding L image fails d := by
  obtain ⟨s, hs, hrun⟩ := hd
  exact ⟨s, hs, Relation.ReflTransGen.mono (fun _ _ h => .kernel h) _ _ hrun⟩

theorem YieldStep.safe (hde : YieldStep L d e) (hd : Safe L S (OsKernel.kernel L) d) :
    Safe L S (OsKernel.kernel L) e := by
  cases hde with
  | kernel h => exact kernel_safe hd (.single h)
  | yield s p =>
    rcases hd with ⟨-, -, ⟨h₀, μ, hk, hμ, ⟨b, rfl⟩, hw, htrap, hset⟩ | htrap⟩ | ⟨_, hone, -⟩
    · refine .inl ⟨rfl, Discipline.wp_mono (fun _ _ _ ha => ha.1) (arrives_of (N := .interrupts)
        (X := fun _ _ => False) (yield_ends hw ⟨htrap, hset⟩ (.refl _)) hk hμ ?_)⟩
      exact fun _ _ _ _ => False.elim
    · exact absurd htrap id
    · cases hone

theorem Yielding.safe (hd : Yielding L image fails d) :
    ∃ kpt, Safe L (bootSite image fails kpt) (kernel L) d := by
  obtain ⟨s, hs, hrun⟩ := hd
  obtain ⟨kpt, hsafe⟩ := Reachable.safe ⟨s, hs, .refl⟩
  refine ⟨kpt, ?_⟩
  induction hrun with
  | refl => exact hsafe
  | tail _ hstep ih => exact hstep.safe ih

/-! ### Sequences of lock operations -/

/-- The operations of `spinlock.c`. -/
inductive LockOp where
  | acquire (lk : Lock)
  | release (lk : Lock)
  | pushOff
  | popOff

/-- An operation as a program. -/
def LockOp.code : LockOp → KernelM Unit
  | .acquire lk => OsKernel.acquire lk
  | .release lk => OsKernel.release lk
  | .pushOff => OsKernel.pushOff
  | .popOff => OsKernel.popOff

/-- A sequence of operations. -/
def lockOps : List LockOp → KernelM Unit
  | [] => pure ()
  | op :: ops => do
    op.code
    lockOps ops

/-- The locks that a sequence has acquired so far and not released, and how many sections it has
opened and not closed, after one more operation. A sequence releases what it has acquired, and
closes what it has opened. -/
def LockOp.next : LockOp → Finset Lock × ℕ → Option (Finset Lock × ℕ)
  | .acquire lk, (ls, k) => if lk ∈ ls then none else some (insert lk ls, k + 1)
  | .release lk, (ls, k) => if lk ∈ ls ∧ 0 < k then some (ls.erase lk, k - 1) else none
  | .pushOff, (ls, k) => some (ls, k + 1)
  | .popOff, (ls, k) => if 0 < k then some (ls, k - 1) else none

/-- What is open after a sequence. -/
def openAfter : List LockOp → Finset Lock × ℕ → Option (Finset Lock × ℕ)
  | [], o => some o
  | op :: ops, o => (op.next o).bind (openAfter ops)

/-- Every lock that the sequence acquires is released, and every section it opens is closed, in any
order. -/
def Balanced (ops : List LockOp) : Prop := openAfter ops (∅, 0) = some (∅, 0)

/-- The sequence takes no lock that is held already. -/
def TakesFree (ops : List LockOp) (held : Finset Lock) : Prop :=
  ∀ lk, .acquire lk ∈ ops → lk ∉ held

/-- The hart after a sequence that began on `h₀` and has the locks `ls` and `k` sections open. -/
structure Opened (h₀ : Hart) (ls : Finset Lock) (k : ℕ) (h : Hart) : Prop where
  held : h.held = h₀.held ∪ ls
  free : ∀ lk ∈ ls, lk ∉ h₀.held
  noff : h.noff = h₀.noff + k
  masked : 0 < h.noff → h.sie = false
  /-- The first section has saved `SIE`. -/
  saved : h₀.noff = 0 → (if h.noff = 0 then h.sie else h.intena) = h₀.sie

namespace Opened

theorem refl (hmask : 0 < h.noff → h.sie = false) : Opened h ∅ 0 h :=
  ⟨(Finset.union_empty _).symm, fun _ hlk => absurd hlk (Finset.notMem_empty _), rfl, hmask,
    fun h0 => if_pos h0⟩

theorem pushed (ho : Opened h₀ ls k h) : Opened h₀ ls (k + 1) h.pushed where
  held := (Hart.held_pushed h).trans ho.held
  free := ho.free
  noff := by
    rw [h.noff_pushed, ho.noff]
    omega
  masked _ := h.sie_pushed
  saved h0 := by
    rw [if_neg (by rw [h.noff_pushed]; omega), h.intena_pushed]
    exact ho.saved h0

theorem take {lk : Lock} (ho : Opened h₀ ls k h) (hlk : lk ∉ h₀.held) :
    Opened h₀ (insert lk ls) k (h.take lk) where
  held := by
    show insert lk h.held = _
    rw [ho.held, Finset.union_insert]
  free := (Finset.forall_mem_insert ..).mpr ⟨hlk, ho.free⟩
  noff := ho.noff
  masked := ho.masked
  saved := ho.saved

theorem drop {lk : Lock} (ho : Opened h₀ ls k h) (hlk : lk ∈ ls) :
    Opened h₀ (ls.erase lk) k (h.drop lk) where
  held := by
    show h.held.erase lk = _
    rw [ho.held, Finset.erase_union_distrib, Finset.erase_eq_of_notMem (ho.free lk hlk)]
  free lk' hlk' := ho.free lk' (Finset.mem_of_mem_erase hlk')
  noff := ho.noff
  masked := ho.masked
  saved := ho.saved

/-- The end of a section restores what the first one has saved. -/
theorem pop (ho : Opened h₀ ls k h) (hk : 0 < k) : Opened h₀ ls (k - 1) h.pop.restore := by
  have hnoff := ho.noff
  have hsie := ho.masked (by omega)
  have hpop : h.pop.restore.noff = h.noff - 1 := by
    simp only [Hart.restore]
    split_ifs <;> rfl
  refine ⟨?_, ho.free, by omega, fun hpos => ?_, fun h0 => ?_⟩
  · simp only [Hart.restore]
    split_ifs <;> exact ho.held
  · rw [Hart.restore, if_neg fun hz => by rw [hpop] at hpos; exact absurd hz.1 hpos.ne']
    exact hsie
  · have hsaved := ho.saved h0
    rw [if_neg (by omega)] at hsaved
    rw [hpop]
    split_ifs with hz
    · rw [← hsaved]
      cases hi : h.intena <;> simp [Hart.restore, Hart.pop, Hart.intrOn, hz, hi, hsie]
    · rw [Hart.restore, if_neg fun hz' => hz hz'.1]
      exact hsaved

end Opened

/-- What an operation does to the hart. -/
def LockOp.effect : LockOp → Hart → Hart
  | .acquire lk, h => h.pushed.take lk
  | .release lk, h => (h.drop lk).pop.restore
  | .pushOff, h => h.pushed
  | .popOff, h => h.pop.restore

variable {op : LockOp} {ops : List LockOp}

/-- One operation. -/
theorem Opened.next (ho : Opened h₀ ls k h) (hnext : op.next (ls, k) = some (ls', k'))
    (hfree : ∀ lk, op = .acquire lk → lk ∉ h₀.held) : Opened h₀ ls' k' (op.effect h) := by
  cases op with
  | acquire lk =>
    rw [LockOp.next] at hnext
    split_ifs at hnext
    cases hnext
    exact ho.pushed.take (hfree lk rfl)
  | release lk =>
    rw [LockOp.next] at hnext
    split_ifs at hnext with hlk
    cases hnext
    exact (ho.drop hlk.1).pop hlk.2
  | pushOff =>
    cases hnext
    exact ho.pushed
  | popOff =>
    rw [LockOp.next] at hnext
    split_ifs at hnext with hk
    cases hnext
    exact ho.pop hk

/-- An operation of a sequence does not panic. -/
theorem Opened.run_code_bind (ho : Opened h₀ ls k s.hart)
    (hnext : op.next (ls, k) = some (ls', k')) (hfree : ∀ lk, op = .acquire lk → lk ∉ h₀.held)
    (x : KernelM Unit) :
    (op.code >>= fun _ => x).run s = x.run { s with hart := op.effect s.hart } := by
  cases op with
  | acquire lk =>
    rw [LockOp.next] at hnext
    split_ifs at hnext with hlk
    refine run_acquire_bind lk ?_ _
    rw [ho.held, Finset.notMem_union]
    exact ⟨hfree lk rfl, hlk⟩
  | release lk =>
    rw [LockOp.next] at hnext
    split_ifs at hnext with hlk
    have hpos : 0 < s.hart.noff := by rw [ho.noff]; omega
    refine run_release_bind lk ?_ (ho.masked hpos) hpos _
    rw [ho.held]
    exact Finset.mem_union_right _ hlk.1
  | pushOff => exact run_pushOff_bind s _
  | popOff =>
    rw [LockOp.next] at hnext
    split_ifs at hnext with hk
    have hpos : 0 < s.hart.noff := by rw [ho.noff]; omega
    exact Prog.run_bind_of_ok (run_popOff (ho.masked hpos) hpos)

/-- **Sequences of lock operations** that release what they acquire do not panic. -/
theorem Opened.run_lockOps : ∀ {ops : List LockOp} {ls : Finset Lock} {k : ℕ} {s : K},
    Opened h₀ ls k s.hart → TakesFree ops h₀.held → openAfter ops (ls, k) = some (ls', k') →
      ∃ h, (lockOps ops).run s = .ok ((), { s with hart := h }) ∧ Opened h₀ ls' k' h
  | [], ls, k, s, ho, _, hops => by
    cases hops
    exact ⟨s.hart, rfl, ho⟩
  | op :: ops, ls, k, s, ho, hfree, hops => by
    obtain ⟨⟨ls₁, k₁⟩, hnext, hops⟩ := Option.bind_eq_some_iff.mp hops
    have hop : ∀ lk, op = .acquire lk → lk ∉ h₀.held := fun lk hlk =>
      hfree lk (hlk ▸ List.mem_cons_self)
    obtain ⟨h, hrun, hh⟩ := (ho.next hnext hop).run_lockOps
      (s := { s with hart := op.effect s.hart })
      (fun lk hlk => hfree lk (List.mem_cons_of_mem _ hlk)) hops
    exact ⟨h, (ho.run_code_bind hnext hop _).trans hrun, hh⟩

/-! ### `SIE` -/

/-- **Whether interrupts are on belongs to the process.** A call of `sleep` or `yield` returns with
`noff = 0` and with the `SIE` it was made with; and a sequence of lock operations that releases what
it acquires, in any order, ends with the `SIE` and the `noff` it began with. -/
theorem interrupts_belong_to_the_process (L : Layout) (image : Mem) (fails : ℕ → Bool) :
    (∀ d, Yielding L image fails d → d.BetweenSections → SleepProtocol d.state.core.log) ∧
    ∀ (s : K) (ops : List LockOp), (0 < s.hart.noff → s.hart.sie = false) → Balanced ops →
      TakesFree ops s.hart.held → ∃ h, (lockOps ops).run s = .ok ((), { s with hart := h }) ∧
        h.sie = s.hart.sie ∧ h.noff = s.hart.noff ∧ h.held = s.hart.held := by
  refine ⟨fun d hd hb => ?_, fun s ops hmask hops hfree => ?_⟩
  · obtain ⟨kpt, hsafe⟩ := hd.safe
    obtain ⟨cp, hg, -⟩ := hsafe.between hb
    exact hg.legal.sleepProtocol
  · obtain ⟨h, hrun, hh⟩ := (Opened.refl hmask).run_lockOps hfree hops
    refine ⟨h, hrun, ?_, hh.noff, hh.held.trans (Finset.union_empty _)⟩
    rcases Nat.eq_zero_or_pos s.hart.noff with h0 | hpos
    · rw [← hh.saved h0, if_pos (hh.noff.trans h0)]
    · rw [hmask hpos, hh.masked (hh.noff ▸ hpos)]

/-- A process has slept and is back, and its `SIE` is what it was; then locks are taken. -/
theorem interrupts_belong_to_the_process_virt : ∃ (s : K) (i : Slot) (sie : Bool),
    Yielding .virt shImage (fun _ => false) ⟨s, .ret .user, []⟩ ∧
    (∃ post pre mid rest, s.core.log = post ++ .back i sie 0 :: pre ∧
      LastAt (Event.Pauses i) pre mid (.pause i sie) rest) ∧
    ∃ h, (lockOps [.acquire .wait, .acquire .cons, .pushOff, .release .wait, .popOff,
      .release .cons]).run s = .ok ((), { s with hart := h }) ∧ h.sie = s.hart.sie := by
  obtain ⟨s, i, hs, -, -, -, -, -, sie, hback⟩ := exists_line_read_virt
  obtain ⟨hprotocol, hops⟩ :=
    interrupts_belong_to_the_process .virt shImage fun _ => false
  obtain ⟨post, pre, hlog⟩ := List.append_of_mem hback
  obtain ⟨-, mid, rest, hlast⟩ :=
    hprotocol _ hs.yielding (.inr ⟨.user, rfl, rfl⟩) post i sie 0 pre hlog
  -- in user mode no lock is held
  obtain ⟨kpt, hI, ⟨_, _, -, -, hno⟩ | htrap⟩ := hs.pre
  · exact absurd hno id
  have hnoff := htrap.1.noff
  have hcount : s.hart.noff = s.hart.held.card + s.hart.opens := hI.1.count
  have hnone : s.hart.held = ∅ := Finset.card_eq_zero.mp (by omega)
  obtain ⟨h, hrun, hsie, -⟩ := hops s [.acquire .wait, .acquire .cons, .pushOff, .release .wait,
    .popOff, .release .cons] (fun hpos => by omega) (by unfold Balanced; decide)
    fun lk _ => by rw [hnone]; exact Finset.notMem_empty _
  exact ⟨s, i, sie, hs.yielding, ⟨post, pre, mid, rest, hlog, hlast⟩, h, hrun, hsie⟩

end OsKernel
