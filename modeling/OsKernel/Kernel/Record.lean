import OsKernel.Kernel.History
import OsKernel.Lib.Trace

/-!
# The contract of the kernel, in terms of the record

`Legal` says of every event of a log what its history has to be. Here the same is said without
histories, by pointing to earlier events: a status that is handed out is that of the last exit of
the process, a resumed process has the registers of its last trap, `sleep` returns with the `SIE` of
its last call.

`Event.Changes` says once which events change which part of a history; each part can then be traced
back to the last event that did.
-/

namespace OsKernel

namespace Event

/-- The event sets the parent of slot `i`. -/
def Links (i : Slot) : Event → Prop
  | .parentSet _ j _ => j = i
  | _ => False

/-- A process comes to be in slot `i`. -/
def Creates (i : Slot) : Event → Prop
  | .forked _ j => j = i
  | _ => False

/-- The process in slot `i` terminates or is reaped. -/
def Settles (i : Slot) : Event → Prop
  | .exited j _ _ => j = i
  | .reaped _ j _ _ _ => j = i
  | _ => False

/-- The process in slot `i` enters the kernel, by a trap or because it is created there. -/
def Enters (i : Slot) : Event → Prop
  | .trap j _ _ _ => j = i
  | .forked _ j => j = i
  | _ => False

/-- The process in slot `i` is given other registers to resume with. -/
def Directs (i : Slot) : Event → Prop
  | .sysret j _ => j = i
  | .execed j => j = i
  | e => e.Enters i

/-- A wait of the process in slot `i` begins or ceases to be quiet. -/
def Waits (i : Slot) : Event → Prop
  | .waitCall j _ => j = i
  | .freed a _ => a = some i
  | .parentSet a _ _ => a = some i
  | e => e.Creates i

/-- A wait of the process in slot `i` begins or picks a child. -/
def Collects (i : Slot) : Event → Prop
  | .waitCall j _ => j = i
  | .reaped j _ _ _ _ => j = i
  | e => e.Creates i

/-- A read by the process in slot `i` begins. -/
def StartsRead (i : Slot) : Event → Prop
  | .readCall j _ _ _ => j = i
  | e => e.Creates i

/-- The process in slot `i` calls `sleep` or `yield`, or returns from it. -/
def Pauses (i : Slot) : Event → Prop
  | .pause j _ => j = i
  | .back j _ _ => j = i
  | e => e.Creates i

/-- What an event leaves of the history of slot `i`. -/
structure Keeps (e : Event) (i : Slot) (h h' : History) : Prop where
  parent : ¬e.Links i → h'.parent = h.parent
  creator : ¬e.Creates i → h'.creator = h.creator
  orphan : ¬e.Creates i → (∀ j pid status, e ≠ .exited j pid status) → h'.orphan = h.orphan
  ended : ¬e.Settles i → h'.ended = h.ended
  trap : ¬e.Enters i → h'.trap = h.trap
  returned : ¬e.Enters i → (∀ v, e ≠ .sysret i v) → h'.returned = h.returned
  ctx : ¬e.Directs i → h'.ctx = h.ctx
  quiet : ¬e.Waits i → h'.quiet = h.quiet
  got : ¬e.Collects i → h'.got = h.got
  reading : ¬e.StartsRead i → (∀ b, e ≠ .handed i b) → h'.reading = h.reading
  paused : ¬e.Pauses i → h'.paused = h.paused

theorem Keeps.refl (e : Event) (i : Slot) (h : History) : e.Keeps i h h := by
  constructor <;> first | exact fun _ => rfl | exact fun _ _ => rfl

/-- An event that concerns one slot only. -/
theorem Keeps.update {e : Event} {i j : Slot} {H : Slot → History} {x : History}
    (h : e.Keeps j (H j) x) : e.Keeps i (H i) (Function.update H j x i) := by
  by_cases hij : i = j
  · subst hij
    rwa [Function.update_self]
  · rw [Function.update_of_ne hij]
    exact .refl ..

/-- **Which events change what.** -/
theorem keeps (e : Event) (l : List Event) (i : Slot) :
    e.Keeps i (history l i) (history (e :: l) i) := by
  cases e with
  | parentSet a child par =>
    show Keeps _ i _ (disturb a (Function.update (history l) child _) i)
    have hset := Keeps.update (e := .parentSet a child par) (i := i) (j := child) (H := history l)
      (x := { history l child with parent := par }) (by
        constructor <;>
          first | exact fun _ => rfl | exact fun _ _ => rfl | exact fun h => absurd rfl h)
    rw [disturb]
    split_ifs with ha
    · exact { hset with quiet := fun h => absurd ha h }
    · exact hset
  | freed a j =>
    show Keeps _ i _ (disturb a (history l) i)
    rw [disturb]
    split_ifs with ha
    · exact { Keeps.refl (.freed a j) i (history l i) with quiet := fun h => absurd ha h }
    · exact .refl ..
  | exited j pid status =>
    exact { Keeps.refl (.exited j pid status) i (history l i) with
      orphan := fun _ h => absurd rfl (h j pid status)
      ended := fun h => if_neg fun hij => h hij.symm }
  | reaped j child pid addr stored =>
    have hchild := Keeps.update (e := .reaped j child pid addr stored) (i := i) (j := child)
      (H := history l) (x := { history l child with ended := none }) (by
        constructor <;>
          first | exact fun _ => rfl | exact fun _ _ => rfl | exact fun h => absurd rfl h)
    show Keeps _ i _ (Function.update (Function.update (history l) child _) j _ i)
    by_cases hij : i = j
    · subst hij
      rw [Function.update_self]
      exact { hchild with got := fun h => absurd rfl h }
    · rwa [Function.update_of_ne hij]
  | resume j regs pc => exact .refl ..
  | waitRet j v => exact .refl ..
  | arrived x => exact .refl ..
  | echoed x => exact .refl ..
  | lost j x => exact .refl ..
  | readRet j v => exact .refl ..
  | _ =>
    refine Keeps.update ?_
    constructor <;> first
      | exact fun _ => rfl
      | exact fun _ _ => rfl
      | exact fun h => absurd rfl h
      | exact fun h _ => absurd rfl h
      | exact fun _ h => absurd rfl (h _)

end Event

section Trace

variable {init i j p : Slot} {l l' mid rest : List Event} {t : Trap} {pid status v : BitVec 32}

/-! ### The events behind a history -/

theorem trap_eq_some (h : (history l i).trap = some t) :
    ∃ mid rest, LastAt (Event.Enters i) l mid (.trap i t.regs t.pc t.scause) rest := by
  obtain ⟨mid, e, rest, hlast, heq⟩ := exists_lastAt_of_ne
    (f := fun l => (history l i).trap) (fun e l => (e.keeps l i).trap) (l := l)
    (by rw [h]; exact Option.some_ne_none _)
  rw [h] at heq
  have hhere := hlast.here
  cases e with
  | trap k regs pc scause =>
    obtain rfl : k = i := hhere
    obtain rfl : t = ⟨regs, pc, scause⟩ := by simpa [observe] using heq
    exact ⟨mid, rest, hlast⟩
  | forked q k =>
    obtain rfl : k = i := hhere
    simp [observe] at heq
  | _ => exact absurd hhere id

theorem paused_eq_some {sie : Bool} (h : (history l i).paused = some sie) :
    ∃ mid rest, LastAt (Event.Pauses i) l mid (.pause i sie) rest := by
  obtain ⟨mid, e, rest, hlast, heq⟩ := exists_lastAt_of_ne
    (f := fun l => (history l i).paused) (fun e l => (e.keeps l i).paused) (l := l)
    (by rw [h]; exact Option.some_ne_none _)
  rw [h] at heq
  have hhere := hlast.here
  cases e with
  | pause k sie' =>
    obtain rfl : k = i := hhere
    obtain rfl : sie = sie' := by simpa [observe] using heq
    exact ⟨mid, rest, hlast⟩
  | back k sie' noff =>
    obtain rfl : k = i := hhere
    simp [observe] at heq
  | forked q k =>
    obtain rfl : k = i := hhere
    simp [observe] at heq
  | _ => exact absurd hhere id

/-- **The registers a process resumes with**, as the record of a run has to show them. -/
structure TrapProtocol (l : List Event) : Prop where
  /-- After an interrupt they are those of the trap. -/
  interrupt : ∀ post i regs pc pre, l = post ++ .resume i regs pc :: pre →
    ∀ mid regs₀ pc₀ scause rest, LastAt (Event.Enters i) pre mid (.trap i regs₀ pc₀ scause) rest →
      scause ≠ 8 → regs = regs₀ ∧ pc = pc₀
  /-- After a system call the process goes on behind the `ecall` with the return value in `a0`. -/
  call : ∀ post i regs pc pre, l = post ++ .resume i regs pc :: pre →
    ∀ mid regs₀ pc₀ rest, LastAt (Event.Enters i) pre mid (.trap i regs₀ pc₀ 8) rest →
      .execed i ∉ mid → ∃ v later earlier,
        LastAt (fun e => ∃ v, e = .sysret i v) mid later (.sysret i v) earlier ∧
          regs = Function.update regs₀ .a0 v ∧ pc = pc₀ + 4
  /-- A new process has the registers its creator trapped with, and returns 0. -/
  child : ∀ post i regs pc pre, l = post ++ .resume i regs pc :: pre →
    ∀ mid p rest, LastAt (Event.Enters i) pre mid (.forked p i) rest →
      ∃ later regs₀ pc₀ earlier, LastAt (Event.Enters p) rest later (.trap p regs₀ pc₀ 8) earlier ∧
        regs = Function.update regs₀ .a0 0 ∧ pc = pc₀ + 4

/-- What a process is to resume with changes only in `a0` while it is in the kernel. -/
theorem ctx_append {x : Ctx} (hx : (history l i).ctx = some x) (hmid : ∀ e ∈ mid, ¬e.Enters i)
    (hexec : .execed i ∉ mid) :
    ∃ y, (history (mid ++ l) i).ctx = some y ∧ ∀ v, y.ret v = x.ret v := by
  induction mid with
  | nil => exact ⟨x, hx, fun _ => rfl⟩
  | cons e mid ih =>
    rw [List.forall_mem_cons] at hmid
    rw [List.mem_cons, not_or] at hexec
    obtain ⟨y, hy, hret⟩ := ih hmid.2 hexec.2
    by_cases he : e.Directs i
    · cases e with
      | sysret k v =>
        obtain rfl : k = i := he
        refine ⟨y.ret v, ?_, fun w => by rw [Ctx.ret_ret, hret]⟩
        simp [observe, hy]
      | execed k =>
        obtain rfl : k = i := he
        exact absurd rfl hexec.1
      | _ => exact absurd he hmid.1
    · exact ⟨y, ((e.keeps (mid ++ l) i).ctx he).trans hy, hret⟩

/-- A process that has not trapped since it was created keeps what it was created with. -/
theorem ctx_append_of_untrapped {x : Ctx} (h : Legal init (mid ++ l))
    (hx : (history l i).ctx = some x) (htrap : (history l i).trap = none)
    (hmid : ∀ e ∈ mid, ¬e.Enters i) :
    (history (mid ++ l) i).ctx = some x ∧ (history (mid ++ l) i).trap = none := by
  induction mid with
  | nil => exact ⟨hx, htrap⟩
  | cons e mid ih =>
    rw [List.forall_mem_cons] at hmid
    obtain ⟨hctx, hnone⟩ := ih h.2 hmid.2
    refine ⟨?_, ((e.keeps (mid ++ l) i).trap hmid.1).trans hnone⟩
    refine ((e.keeps (mid ++ l) i).ctx fun he => ?_).trans hctx
    have hadm : Admissible init (mid ++ l) e := h.1
    cases e with
    | sysret k v =>
      obtain rfl : k = i := he
      obtain ⟨t, ht, -⟩ := hadm
      rw [hnone] at ht
      cases ht
    | execed k =>
      obtain rfl : k = i := he
      rcases hadm with ⟨t, ⟨ht, -⟩, -⟩ | hctx'
      · rw [hnone] at ht
        cases ht
      · rw [hctx] at hctx'
        cases hctx'
    | _ => exact absurd he hmid.1

/-- A process that did not trap for a system call keeps what it trapped with. -/
theorem ctx_append_of_not_call {x : Ctx} (h : Legal init (mid ++ l))
    (hx : (history l i).ctx = some x) (htrap : (history l i).trap = some t) (ht : ¬t.IsCall)
    (hmid : ∀ e ∈ mid, ¬e.Enters i) :
    (history (mid ++ l) i).ctx = some x ∧ (history (mid ++ l) i).trap = some t := by
  induction mid with
  | nil => exact ⟨hx, htrap⟩
  | cons e mid ih =>
    rw [List.forall_mem_cons] at hmid
    obtain ⟨hctx, hsome⟩ := ih h.2 hmid.2
    refine ⟨?_, ((e.keeps (mid ++ l) i).trap hmid.1).trans hsome⟩
    refine ((e.keeps (mid ++ l) i).ctx fun he => ?_).trans hctx
    have hadm : Admissible init (mid ++ l) e := h.1
    cases e with
    | sysret k v =>
      obtain rfl : k = i := he
      obtain ⟨t', ht', hcall⟩ := hadm
      rw [hsome, Option.some.injEq] at ht'
      exact ht (ht' ▸ hcall)
    | execed k =>
      obtain rfl : k = i := he
      rcases hadm with ⟨t', ⟨ht', hcall, -⟩, -⟩ | hctx'
      · rw [hsome, Option.some.injEq] at ht'
        exact ht (ht' ▸ hcall)
      · rw [hctx] at hctx'
        cases hctx'
    | _ => exact absurd he hmid.1

/-- A call that has not returned. -/
theorem returned_append (hmid : ∀ e ∈ mid, ¬e.Enters i) (hno : ∀ e ∈ mid, ¬∃ v, e = .sysret i v) :
    (history (mid ++ l) i).returned = (history l i).returned := by
  refine append_eq_of_stable (P := fun e => e.Enters i ∨ ∃ v, e = .sysret i v)
    (f := fun l => (history l i).returned) (fun e l he => ?_) fun e he => ?_
  · rw [not_or] at he
    exact (e.keeps l i).returned he.1 fun v hv => he.2 ⟨v, hv⟩
  · exact not_or.mpr ⟨hmid e he, hno e he⟩

theorem LastAt.trap_eq {regs : Reg → BitVec 64} {pc scause : BitVec 64}
    (h : LastAt (Event.Enters i) l mid (.trap i regs pc scause) rest) :
    (history l i).trap = some ⟨regs, pc, scause⟩ := by
  rw [h.eq_of_stable (f := fun l => (history l i).trap) fun e l => (e.keeps l i).trap]
  simp [observe]

theorem Legal.trapProtocol (h : Legal init l) : TrapProtocol l := by
  constructor
  case interrupt =>
    rintro post i regs pc pre rfl mid regs₀ pc₀ scause rest hlast hcause
    obtain ⟨-, hregs⟩ := h.at
    have hlegal : Legal init (mid ++ .trap i regs₀ pc₀ scause :: rest) := by
      rw [← hlast.eq]
      exact h.suffix.2
    obtain ⟨hctx, -⟩ := ctx_append_of_not_call (i := i) (t := ⟨regs₀, pc₀, scause⟩)
      (x := Trap.resume ⟨regs₀, pc₀, scause⟩) hlegal (by simp [observe]) (by simp [observe]) hcause
      hlast.after
    rw [← hlast.eq] at hctx
    obtain ⟨rfl, rfl⟩ := hregs _ hctx
    exact ⟨rfl, if_neg hcause⟩
  case call =>
    rintro post i regs pc pre rfl mid regs₀ pc₀ rest hlast hexec
    obtain ⟨hsettled, hregs⟩ := h.at
    obtain ⟨v, hv⟩ := hsettled _ hlast.trap_eq rfl
    rcases exists_lastAt (fun e => ∃ v, e = .sysret i v) mid with
      hnone | ⟨later, e, earlier, hret⟩
    · -- a call that is settled has returned
      rw [hlast.eq, returned_append hlast.after hnone] at hv
      simp [observe] at hv
    · obtain ⟨w, rfl⟩ := hret.here
      refine ⟨w, later, earlier, hret, ?_⟩
      have hafter := hlast.after
      rw [hret.eq] at hafter hexec
      have hmid : ∀ x ∈ earlier, ¬x.Enters i := fun x hx =>
        hafter x (List.mem_append_right _ (List.mem_cons_of_mem _ hx))
      have hnoexec : .execed i ∉ earlier := fun hx =>
        hexec (List.mem_append_right _ (List.mem_cons_of_mem _ hx))
      obtain ⟨y, hy, hyret⟩ := ctx_append (l := .trap i regs₀ pc₀ 8 :: rest)
        (x := Trap.resume ⟨regs₀, pc₀, 8⟩) (by simp [observe]) hmid hnoexec
      -- nothing happens to the registers after the return of the call
      have hdirect : ∀ x ∈ later, ¬x.Directs i := by
        intro x hx hdir
        have henters := hafter x (List.mem_append_left _ hx)
        cases x with
        | sysret k u =>
          obtain rfl : k = i := hdir
          exact hret.after _ hx ⟨u, rfl⟩
        | execed k =>
          obtain rfl : k = i := hdir
          exact hexec (List.mem_append_left _ hx)
        | _ => exact henters hdir
      have heq : pre = later ++ .sysret i w :: (earlier ++ .trap i regs₀ pc₀ 8 :: rest) := by
        rw [hlast.eq, hret.eq, List.append_assoc, List.cons_append]
      have hctx : (history pre i).ctx = some (y.ret w) := by
        rw [heq, append_eq_of_stable (f := fun l => (history l i).ctx)
          (fun e l => (e.keeps l i).ctx) hdirect]
        simp only [history_cons, observe, Function.update_self]
        rw [hy]
        rfl
      obtain ⟨rfl, rfl⟩ := hregs _ hctx
      rw [hyret]
      exact ⟨rfl, rfl⟩
  case child =>
    rintro post i regs pc pre rfl mid p rest hlast
    obtain ⟨-, hregs⟩ := h.at
    have hlegal : Legal init (mid ++ .forked p i :: rest) := by
      rw [← hlast.eq]
      exact h.suffix.2
    obtain ⟨t, htrap, hcall, hctx⟩ := hlegal.at
    obtain ⟨later, earlier, hparent⟩ := trap_eq_some htrap
    rw [show t.scause = 8 from hcall] at hparent
    refine ⟨later, t.regs, t.pc, earlier, hparent, ?_⟩
    obtain ⟨hx, -⟩ := ctx_append_of_untrapped (i := i) (x := t.resume.ret 0) hlegal
      (by simp [observe, hctx]) (by simp [observe]) hlast.after
    rw [← hlast.eq] at hx
    obtain ⟨rfl, rfl⟩ := hregs _ hx
    exact ⟨rfl, if_pos hcall⟩

/-! ### Sleeping -/

/-- **`SIE` across `sleep` and `yield`**: the call returns with the `SIE` it was made with. -/
def SleepProtocol (l : List Event) : Prop :=
  ∀ post i sie noff pre, l = post ++ .back i sie noff :: pre →
    noff = 0 ∧ ∃ mid rest, LastAt (Event.Pauses i) pre mid (.pause i sie) rest

theorem Legal.sleepProtocol (h : Legal init l) : SleepProtocol l := by
  rintro post i sie noff pre rfl
  obtain ⟨hpaused, hnoff⟩ := h.at
  exact ⟨hnoff, paused_eq_some hpaused⟩

/-! ### Reading -/

/-- Every read so far was into a buffer its process can write. -/
def AllWritable (l : List Event) : Prop := ∀ i dst n w, .readCall i dst n w ∈ l → w = true

@[simp] theorem allWritable_cons {e : Event} : AllWritable (e :: l) ↔
    (∀ i dst n w, .readCall i dst n w = e → w = true) ∧ AllWritable l := by
  simp only [AllWritable, List.mem_cons, or_imp, forall_and]

end Trace

end OsKernel
