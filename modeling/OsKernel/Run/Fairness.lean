import OsKernel.Run.Isolation

/-!
# The scheduler is fair

`scheduler` looks at the slots in a circle. Where it stands can be read off at every label: at the
next slot of the scan, or behind the process that runs. From leg to leg it moves on by at most one
slot, and it passes a slot only if the process there is not `RUNNABLE` or has been given the CPU. A
process that is `RUNNABLE` stays so until then, whatever the others do. So nobody is given the CPU
twice while it waits.

The circle is unrolled: a scan that has gone on for `u` slots stands at `u % NPROC`.
-/

namespace OsKernel

variable {L : Layout} {image : Mem} {fails : ℕ → Bool} {a b : Label} {s t : K} {i j p : Slot}

/-! ### Where the scan stands -/

/-- The slot the scan looks at next, if no process runs. -/
def Label.scan : Label → ℕ
  | .schedulerScan i _ => i
  | _ => 0

/-- The slot the scan looks at next. -/
def K.position (s : K) (a : Label) : ℕ := s.core.cproc.elim a.scan fun p => p + 1

theorem position_busy (hp : s.core.cproc = some p) (a : Label) : s.position a = p + 1 := by
  rw [K.position, hp, Option.elim_some]

theorem position_idle (hidle : s.core.cproc = none) (a : Label) : s.position a = a.scan := by
  rw [K.position, hidle, Option.elim_none]

theorem position_steady (h : SteadyStep s t) (hab : a.scan = b.scan) :
    t.position b = s.position a := by
  rw [K.position, K.position, h.cproc, hab]

/-- What a leg does to the scan and to a process `j` that waits for the CPU. -/
inductive LegTurn (a : Label) (s : K) (b : Label) (t : K) (j : Slot) : Prop
  | stay (h : t.position b = s.position a) (hb : b = .scheduler → a = .scheduler)
      (hno : s.core.cproc = none → t.core.cproc = none) (hj : (t.core.procs j).state = .runnable)
  | wrap (h : s.position a = nproc) (hpos : t.position b = 0) (hidle : t.core.cproc = none)
      (hj : (t.core.procs j).state = .runnable)
  | skip (hi : s.position a ≠ j) (h : t.position b = s.position a + 1) (hb : b ≠ .scheduler)
      (hlt : s.position a < nproc) (hidle : t.core.cproc = none)
      (hj : (t.core.procs j).state = .runnable)
  | turn {p : Slot} (hidle : s.core.cproc = none) (hp : t.core.cproc = some p)
      (hpos : s.position a = p) (hb : b ≠ .scheduler)
      (hj : j ≠ p → (t.core.procs j).state = .runnable)

/-- The slot that is given the CPU is the one the scan stood at. -/
theorem LegTurn.dispatched (h : LegTurn a s b t j) (hidle : s.core.cproc = none)
    (hp : t.core.cproc = some p) :
    s.position a = p ∧ b ≠ .scheduler ∧ (j ≠ p → (t.core.procs j).state = .runnable) := by
  have hno : t.core.cproc ≠ none := by simp [hp]
  cases h with
  | stay _ _ h _ => exact absurd (h hidle) hno
  | wrap _ _ h _ => exact absurd h hno
  | skip _ _ _ _ h _ => exact absurd h hno
  | turn _ hq hpos hb hj =>
    cases Option.some.inj (hp.symm.trans hq)
    exact ⟨hpos, hb, hj⟩

/-- **A leg and the scan.** -/
theorem LegEnds.turn (h : LegEnds a s b t) (hs : Reachable L image fails ⟨s, .ret a, []⟩)
    (ht : Reachable L image fails ⟨t, .ret b, []⟩) (hj : (s.core.procs j).state = .runnable) :
    LegTurn a s b t j := by
  have hsteady : SteadyStep s t → a.scan = b.scan → (b = .scheduler → a = .scheduler) →
      LegTurn a s b t j := fun h hab hb =>
    .stay (position_steady h hab) hb h.cproc.trans (h.keeps hj (by decide))
  cases h with
  | rest hb h => exact hsteady h (by rw [hb]) fun hb' => hb.symm.trans hb'
  | user h =>
    refine hsteady h.steady ?_ ?_
    all_goals
      cases h with
      | compute regs pc hm => simp [Label.scan]
      | trap hi scause stval irq => simp [Label.scan]
  | process ha h hb =>
    obtain ⟨p, hp⟩ := hs.busy ha
    -- `p` is running and `j` is runnable
    have hjp : j ≠ p := by
      rintro rfl
      exact absurd (hj.symm.trans (hs.engaged ha _ hp).1) (by decide)
    obtain ⟨hp', hu⟩ := workSteps_undisturbed h hp hjp (.inl hj)
    refine .stay (by rw [position_busy hp, position_busy hp']) ?_ (by simp [hp])
      (hu.keeps hj (by decide))
    rintro rfl
    exact absurd hb id
  | round ha hb h => exact hsteady h (by rw [ha, hb]; rfl) fun _ => ha
  | @scan i found ha hidle h =>
    have hpos : s.position a = i := by rw [position_idle hidle, ha, Label.scan]
    cases h with
    | skip hi hst hidle' hb hrest =>
      refine .skip ?_ ?_ (by simp [hb]) (hpos.trans_lt hi) hidle' ((hrest j).keeps hj (by decide))
      · rw [hpos]
        rintro rfl
        exact hst hj
      · rw [position_idle hidle', hb, Label.scan, hpos]
    | turn hi hp hst _ _ hrest =>
      refine .turn hidle hp hpos ?_ fun hne => (hrest j hne).keeps hj (by decide)
      rintro rfl
      exact absurd (ht.idle_scheduler.symm.trans hp) (by simp)
    | wrap hi hidle' hb hrest =>
      have hle : i ≤ nproc := by
        have hplace := hs.atPlace
        rw [ha] at hplace
        exact hplace
      refine .wrap (hpos.trans (le_antisymm hle hi)) ?_ hidle' ((hrest j).keeps hj (by decide))
      rw [position_idle hidle', hb]
      rfl
  | @back p ha hp h =>
    obtain ⟨hidle, hb, hrest⟩ := h
    exact .stay (by rw [position_busy hp, position_idle hidle, hb, Label.scan]) (by simp [hb])
      (by simp [hp]) ((hrest j).keeps hj (by decide))

/-! ### Turns -/

/-- A run of legs, with the processes that are given the CPU on the way. -/
inductive Turns (L : Layout) (c : Label × K) : List Slot → Label × K → Prop
  | refl : Turns L c [] c
  | leg {d e : Label × K} {ps : List Slot} (h : Turns L c ps d) (hleg : (kernel L).Leg d e)
      (hno : d.2.core.cproc = none → e.2.core.cproc = none) : Turns L c ps e
  | turn {d e : Label × K} {ps : List Slot} {p : Slot} (h : Turns L c ps d)
      (hleg : (kernel L).Leg d e) (hidle : d.2.core.cproc = none) (hp : e.2.core.cproc = some p) :
      Turns L c (ps ++ [p]) e

theorem Turns.legs {c d : Label × K} {ps : List Slot} (h : Turns L c ps d) :
    Relation.ReflTransGen (kernel L).Leg c d := by
  induction h with
  | refl => exact .refl
  | leg _ hleg _ ih => exact ih.tail hleg
  | turn _ hleg _ _ ih => exact ih.tail hleg

/-- How many slots a scan that stands at `u` passes before it looks at `p`. -/
def ahead (u : ℕ) (p : Slot) : ℕ := (p + nproc - u % nproc) % nproc

theorem ahead_lt (u : ℕ) (p : Slot) : ahead u p < nproc := Nat.mod_lt _ (by decide)

/-- The slot a scan looks at after `m` slots. -/
theorem ahead_eq {u m : ℕ} (hm : m < nproc) (h : (u + m) % nproc = p) : ahead u p = m := by
  rw [ahead, ← h]
  simp only [nproc] at hm ⊢
  omega

/-- The scan stands `m` slots behind `u`, has given everybody in `ps` the CPU once on the way, and
has not come to `j` yet. -/
structure Waits (u : ℕ) (j : Slot) (ps : List Slot) (m : ℕ) (a : Label) (s : K) : Prop where
  position : s.position a % nproc = (u + m) % nproc
  behind : m ≤ ahead u j
  passed : ∀ p ∈ ps, ahead u p < m
  nodup : ps.Nodup
  runnable : (s.core.procs j).state = .runnable

/-- **A leg** while `j` waits. -/
theorem Waits.leg {u m : ℕ} {ps : List Slot} (h : Waits u j ps m a s) (hturn : LegTurn a s b t j)
    (hno : s.core.cproc = none → t.core.cproc = none) : ∃ m', Waits u j ps m' b t := by
  have hposition := h.position
  cases hturn with
  | stay hpos _ _ hj => exact ⟨m, hpos ▸ hposition, h.behind, h.passed, h.nodup, hj⟩
  | wrap hlast hpos _ hj =>
    refine ⟨m, ?_, h.behind, h.passed, h.nodup, hj⟩
    rw [hpos, ← hposition, hlast, Nat.mod_self, Nat.zero_mod]
  | skip hi hpos _ hlt hidle hj =>
    refine ⟨m + 1, ?_, ?_, fun p hp => (h.passed p hp).trans (Nat.lt_succ_self m), h.nodup, hj⟩
    · rw [hpos]
      simp only [nproc] at hposition ⊢
      omega
    · -- the slot that was passed is not that of `j`
      refine lt_of_le_of_ne h.behind fun hm => hi ?_
      rw [hm, ahead, Nat.mod_eq_of_lt hlt] at hposition
      rw [hposition]
      have := j.isLt
      simp only [nproc] at this ⊢
      omega
  | turn hidle hp => exact absurd ((hno hidle).symm.trans hp) (by simp)

/-- **A turn** while `j` waits. -/
theorem Waits.turn {u m : ℕ} {ps : List Slot} (h : Waits u j ps m a s)
    (hturn : LegTurn a s b t j) (hidle : s.core.cproc = none) (hp : t.core.cproc = some p)
    (hjp : j ≠ p) : ∃ m', Waits u j (ps ++ [p]) m' b t := by
  have hposition := h.position
  obtain ⟨hpos, -, hj⟩ := hturn.dispatched hidle hp
  have hahead : ahead u p = m := by
    refine ahead_eq (h.behind.trans_lt (ahead_lt u j)) ?_
    rw [← h.position, hpos, Nat.mod_eq_of_lt p.isLt]
  refine ⟨m + 1, ?_, ?_, ?_, ?_, hj hjp⟩
  · rw [position_busy hp]
    rw [hpos] at hposition
    simp only [nproc] at hposition ⊢
    omega
  · -- the slot of `j` is another one
    refine lt_of_le_of_ne h.behind fun hm => hjp (Fin.ext ?_)
    have hj' := j.isLt
    have hp' := p.isLt
    rw [← hahead, ahead, ahead] at hm
    simp only [nproc] at hm hj' hp'
    omega
  · intro q hq
    rcases List.mem_append.mp hq with hq | hq
    · exact (h.passed q hq).trans (Nat.lt_succ_self m)
    · rw [List.mem_singleton.mp hq, hahead]
      exact Nat.lt_succ_self m
  · refine List.nodup_append.mpr ⟨h.nodup, List.nodup_singleton p, ?_⟩
    rintro q hq _ hq' rfl
    rw [List.mem_singleton.mp hq'] at hq
    exact absurd (h.passed p hq) (by rw [hahead]; exact lt_irrefl m)

/-- What a leg and a turn keep while `j` waits, a run keeps. -/
theorem Turns.induction {P : List Slot → Label → K → Prop} {c d : Label × K} {ps : List Slot}
    (h : Turns L c ps d) (hs : Reachable L image fails ⟨c.2, .ret c.1, []⟩) (hno : j ∉ ps)
    (hrunnable : ∀ {ps a s}, P ps a s → (s.core.procs j).state = .runnable)
    (hleg : ∀ {ps a s b t}, P ps a s → LegTurn a s b t j →
      (s.core.cproc = none → t.core.cproc = none) → P ps b t)
    (hturn : ∀ {ps a s b t p}, P ps a s → LegTurn a s b t j → s.core.cproc = none →
      t.core.cproc = some p → j ≠ p → P (ps ++ [p]) b t)
    (hc : P [] c.1 c.2) : P ps d.1 d.2 := by
  induction h with
  | refl => exact hc
  | @leg d e ps hturns hstep hidle ih =>
    have hd := hs.legs hturns.legs
    have he := hd.step hstep.micro
    exact hleg (ih hno) ((leg_ends hd hd.atPlace hstep).turn hd he (hrunnable (ih hno))) hidle
  | @turn d e ps p hturns hstep hidle hp ih =>
    rw [List.mem_append, not_or, List.mem_singleton] at hno
    have hd := hs.legs hturns.legs
    have he := hd.step hstep.micro
    exact hturn (ih hno.1) ((leg_ends hd hd.atPlace hstep).turn hd he (hrunnable (ih hno.1))) hidle
      hp hno.2

/-- **Fairness.** While a process is `RUNNABLE` and has not been given the CPU, it stays `RUNNABLE`
and no other process is given the CPU twice; so at most `NPROC - 1` turns go to others before its
own. -/
theorem scheduler_fair {ps : List Slot} (hs : Reachable L image fails ⟨s, .ret a, []⟩)
    (hj : (s.core.procs j).state = .runnable) (hturns : Turns L (a, s) ps (b, t)) (hno : j ∉ ps) :
    (t.core.procs j).state = .runnable ∧ ps.Nodup ∧ ps.length < nproc := by
  have hwaits : ∃ m, Waits (s.position a) j ps m b t := by
    refine hturns.induction (P := fun ps b t => ∃ m, Waits (s.position a) j ps m b t) hs hno ?_ ?_
      ?_ ⟨0, rfl, Nat.zero_le _, by simp, .nil, hj⟩
    · rintro ps a s ⟨m, h⟩
      exact h.runnable
    · rintro ps a s b t ⟨m, h⟩
      exact h.leg
    · rintro ps a s b t p ⟨m, h⟩
      exact h.turn
  obtain ⟨m, hw⟩ := hwaits
  refine ⟨hw.runnable, hw.nodup, ?_⟩
  have hcard := (List.nodup_cons.mpr ⟨hno, hw.nodup⟩).length_le_card
  rw [Fintype.card_fin] at hcard
  exact hcard

/-- Two processes wait for the CPU, and the first of them gets it. -/
theorem exists_turn_virt : ∃ (s t : K) (i : Slot) (b : Label),
    Reachable .virt shImage (fun _ => false) ⟨s, .ret (.schedulerScan 0 false), []⟩ ∧ i ≠ 0 ∧
    (s.core.procs i).state = .runnable ∧ Turns .virt (.schedulerScan 0 false, s) [0] (b, t) := by
  obtain ⟨s, i, hs, hi, -, -, hzero, hrun, b, hctx⟩ := exists_both_ready_virt
  obtain ⟨t, hnext, hcore⟩ := hs.next_dispatch (i := 0) hzero hctx
  exact ⟨s, t, i, _, hs, hi, hrun, .turn .refl (System.leg_of_next hnext) hs.idle
    (by rw [hcore]; rfl)⟩

theorem scheduler_fair_virt : ∃ (s t : K) (i : Slot) (b : Label),
    Reachable .virt shImage (fun _ => false) ⟨s, .ret (.schedulerScan 0 false), []⟩ ∧ i ≠ 0 ∧
    (s.core.procs i).state = .runnable ∧ Turns .virt (.schedulerScan 0 false, s) [0] (b, t) ∧
    (t.core.procs i).state = .runnable ∧ [(0 : Slot)].Nodup ∧ [(0 : Slot)].length < nproc := by
  obtain ⟨s, t, i, b, hs, hi, hrun, hturns⟩ := exists_turn_virt
  exact ⟨s, t, i, b, hs, hi, hrun, hturns, scheduler_fair hs hrun hturns (by simpa using hi)⟩

/-- **A round of the scheduler.** A process that is `RUNNABLE` when a round begins is given the CPU
in that round: until then the scan does not pass it, and the round does not end. -/
theorem scheduler_round {ps : List Slot} {found : Bool}
    (hs : Reachable L image fails ⟨s, .ret (.schedulerScan 0 found), []⟩)
    (hj : (s.core.procs j).state = .runnable)
    (hturns : Turns L (.schedulerScan 0 found, s) ps (b, t)) (hno : j ∉ ps) :
    (t.core.procs j).state = .runnable ∧ b ≠ .scheduler ∧ t.position b ≤ j := by
  refine hturns.induction (P := fun _ b t => (t.core.procs j).state = .runnable ∧
    b ≠ .scheduler ∧ t.position b ≤ j) hs hno (fun h => h.1) ?_ ?_ ⟨hj, by simp, ?_⟩
  · rintro ps a s b t ⟨-, ha, hle⟩ hturn hno
    cases hturn with
    | stay hpos hb _ hj => exact ⟨hj, fun hb' => ha (hb hb'), hpos.trans_le hle⟩
    | wrap hlast =>
      rw [hlast] at hle
      exact absurd hle (Nat.not_le_of_lt j.isLt)
    | skip hi hpos hb _ _ hj => exact ⟨hj, hb, hpos.trans_le (lt_of_le_of_ne hle hi)⟩
    | turn hidle hp => exact absurd ((hno hidle).symm.trans hp) (by simp)
  · rintro ps a s b t p ⟨-, ha, hle⟩ hturn hidle hp hjp
    obtain ⟨hpos, hb, hj⟩ := hturn.dispatched hidle hp
    refine ⟨hj hjp, hb, ?_⟩
    rw [position_busy hp]
    rw [hpos] at hle
    exact lt_of_le_of_ne hle fun h => hjp (Fin.ext h.symm)
  · rw [position_idle hs.idle]
    exact Nat.zero_le _

theorem scheduler_round_virt : ∃ (s t : K) (i : Slot) (b : Label),
    Reachable .virt shImage (fun _ => false) ⟨s, .ret (.schedulerScan 0 false), []⟩ ∧ i ≠ 0 ∧
    (s.core.procs i).state = .runnable ∧ Turns .virt (.schedulerScan 0 false, s) [0] (b, t) ∧
    (t.core.procs i).state = .runnable ∧ b ≠ .scheduler ∧ t.position b ≤ i := by
  obtain ⟨s, t, i, b, hs, hi, hrun, hturns⟩ := exists_turn_virt
  exact ⟨s, t, i, b, hs, hi, hrun, hturns, scheduler_round hs hrun hturns (by simpa using hi)⟩

end OsKernel
