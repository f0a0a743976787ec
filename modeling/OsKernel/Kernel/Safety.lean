import OsKernel.Proc.Scheduler
import OsKernel.Trap.UserMode

/-!
# The kernel keeps its invariant

Every program of the kernel leads from what holds at its label to what holds at the next one, and
the interrupt handler stays within `Drift`. By the soundness of `wp` the machine that takes
interrupts between any two steps keeps the invariant in every state it passes through, and it stops
only in the ways `Stops` names.
-/

namespace OsKernel

variable {L : Layout} {S : Site} {N : Env} {h₀ : Hart} {b : Bool} {p : Slot} {s t : K}

/-! ### The interrupt handler -/

/-- **`kernelvec`**: the registers of the trap are restored, whatever the devices had. -/
theorem kernelvec_wp
    (hs : Mode.IsUnlocked L (Env.handler.discipline L S) s.hart false s) (hspp : s.hart.spp = true)
    (hdev : IsDevice s.hart.scause) :
    (Env.handler.discipline L S).wp L (kernelvec L) (fun _ t =>
      Mode.IsUnlocked L (Env.handler.discipline L S) s.hart false t ∧ Drift s.core t.core ∧
        t.hart.spp = true ∧ t.hart.spie = s.hart.spie) s := by
  have hstill := hs.unlocked.still hs.sie
  refine Discipline.wp_bind (hstill.getHart ?_)
  rw [if_pos hs.unlocked.vector]
  refine Discipline.wp_bind (hstill.getHart ?_)
  rw [if_neg (by simp [hspp]), if_neg (by simp [hs.sie])]
  refine Discipline.wp_bind (Discipline.wp_mono ?_ (devintr_wp hs))
  rintro dev t - ⟨ht, hd, hne⟩
  rw [if_neg (hne.mpr hdev)]
  have hstill' := ht.unlocked.still ht.sie
  have hrestored : Discipline.Still (Env.handler.discipline L S) { t with
      hart := { t.hart with
        sepc := s.hart.sepc, sie := s.hart.sie, spp := s.hart.spp, spie := s.hart.spie } } :=
    ⟨hs.sie, ht.unlocked.noff, ht.unlocked.held, ht.unlocked.opens, ht.unlocked.good⟩
  refine hstill'.modHart hrestored ⟨⟨hrestored.unlocked ht.unlocked.vector, ?_, hs.sie⟩,
    hd, hspp, rfl⟩
  exact ⟨ht.frame.supervisor, ht.frame.stvec, ht.frame.satp, ht.frame.regs⟩

/-- The invariant of a handler is that of the kernel, with interrupts off. -/
theorem handlerInv (h : (Env.handler.discipline L S).Inv L s) :
    (Env.interrupts.discipline L S).Inv L s ∧ ¬s.hart.Enabled := by
  refine ⟨⟨⟨h.1.count, h.1.masked, h.1.vector, False.elim⟩, h.2⟩, fun he => ?_⟩
  exact absurd he.1 (by rw [(h.1.quiet trivial).1]; decide)

/-- **Interrupts** stay within the interference. -/
theorem irq_wp (irq : Irq) (hI : (Env.interrupts.discipline L S).Inv L s) (hen : s.hart.Enabled) :
    ((kernel L).handler irq).wp
      (fun s => (Env.interrupts.discipline L S).Inv L s ∧ ¬(kernel L).enabled s) Eq (Stops L S)
      (fun _ t => (Env.interrupts.discipline L S).Inv L ((kernel L).leave t) ∧
        (Env.interrupts.discipline L S).Interferes s ((kernel L).leave t))
      ((kernel L).enter irq s) := by
  have hnoff := hI.1.noff_of_enabled hen
  have hg : Good L S s.core := hI.2 hnoff
  have hvec : s.hart.stvec = BitVec.ofNat 64 L.kernelvec :=
    (hI.1.vector hen.2).resolve_right fun h => absurd hen.1 (by rw [h.1]; decide)
  -- interrupts are enabled only with no lock held, so the handler starts from none
  have hcount := hI.1.count
  rw [hnoff] at hcount
  obtain ⟨claim, rx, input, hdevices⟩ := irq.devices_eq irq.cause s.core
  have hdev : IsDevice irq.cause := by
    cases irq with
    | timer => exact .inr rfl
    | external claim rx => exact .inl rfl
  show Prog.wp _ _ _ (kernelvec L) _ ⟨irq.devices irq.cause s.core, s.hart.trap irq.cause 0⟩
  rw [hdevices]
  have hstill : Discipline.Still (Env.handler.discipline L S)
      ⟨{ s.core with claim := claim, rx := rx, input := input }, s.hart.trap irq.cause 0⟩ :=
    ⟨rfl, hnoff, Finset.card_eq_zero.mp (by show s.hart.held.card = 0; omega),
      by show s.hart.opens = 0; omega, hg.devices⟩
  have hwp := kernelvec_wp ⟨hstill.unlocked hvec, .refl _, rfl⟩ hen.2 hdev
  refine Prog.wp_weaken (fun _ => handlerInv) (fun _ _ h => .inl h) (fun _ => id)
    (Prog.wp_mono (fun _ t _ ht => ?_) hwp)
  obtain ⟨hu, hd, hspp, hspie⟩ := ht
  have hsie : t.hart.sret.sie = s.hart.sie := hspie
  have hsup : t.hart.sret.supervisor = s.hart.supervisor := hspp.trans hen.2.symm
  refine ⟨⟨⟨?_, fun hp => ?_, fun _ => .inl hu.unlocked.vector, False.elim⟩,
    fun _ => hu.unlocked.good⟩,
      .inr ⟨hen, ⟨hsie, hsup, hu.frame.stvec, hu.frame.satp, hu.frame.regs,
    ?_, ?_, ?_⟩, Drift.devices.trans hd, hu.unlocked.good⟩⟩
  · exact hu.unlocked.hart.count
  · exact absurd hp (by show ¬0 < t.hart.noff; simp [hu.unlocked.noff])
  · exact hu.unlocked.held.trans hstill.held.symm
  · exact hu.unlocked.noff.trans hnoff.symm
  · exact hu.unlocked.opens.trans hstill.opens.symm

/-! ### The programs -/

/-- From a specification in terms of modes, for a program that begins in the state `s`. -/
theorem arrives_of {x : KernelM Label} {μ : Mode} {X : Core → Slot → Prop}
    (hx : Runs L S N h₀ x μ s.core fun a μ' c' => Ends L S (X c') s.core a μ' c')
    (hk : Kern L S h₀) (hs : μ.At L (N.discipline L S) h₀ s)
    (hX : ∀ c' q i, s.core.cproc = some q → X c' i → Reaps q s.core c' i) :
    (N.discipline L S).wp L x (Arrives L S (N.discipline L S) s) s := by
  refine Discipline.wp_mono ?_ (hx s hs rfl)
  rintro a u - ⟨μ', hμ', hlabel, hsp⟩
  exact ⟨.inl ⟨h₀, μ', hk, hμ', hlabel⟩, fun q hq => hsp.mono fun i => hX _ q i hq⟩

/-- **Every program of the kernel** leads from what holds at its label to what holds at the next
one, and leaves alone the processes other than the running one and a child it reaps. -/
theorem kernelCode_arrives (hq : ¬N.Quiet) {a : Label} {x : KernelM Label}
    (hcode : kernelCode L a = some x) (hI : (N.discipline L S).Inv L s)
    (hpre : Pre L S (N.discipline L S) a s) :
    (N.discipline L S).wp L x (Arrives L S (N.discipline L S) s) s := by
  have hnone : ∀ (c' : Core) (q i : Slot), s.core.cproc = some q → False → Reaps q s.core c' i :=
    fun _ _ _ _ => False.elim
  have hself : ∀ {p}, s.core.cproc = some p → ∀ (c' : Core) (q i : Slot), s.core.cproc =
      some q → i = p →
      Reaps q s.core c' i := fun hp _ q i hq hi => .inl (by
    rw [hp, Option.some.injEq] at hq
    exact hi.trans hq)
  rcases hpre with ⟨h₀, μ, hk, hμ, hlabel⟩ | htrap
  · cases a with
    | scheduler =>
      obtain ⟨⟨b, rfl⟩, hidle, hc⟩ := hlabel
      cases hcode
      refine arrives_of (X := fun _ _ => False) (.bind (Unlocked.intrOn hq fun c' hd _ =>
        does_pure ⟨⟨⟨true, rfl⟩, ?_, ?_⟩, (N.drift hd).spares⟩)) hk hμ hnone
      · exact (N.drift hd).cproc.trans hidle
      · exact hc.drift (N.drift hd)
    | schedulerScan i found =>
      obtain ⟨⟨b, rfl⟩, hidle, hc⟩ := hlabel
      cases hcode
      exact arrives_of (X := fun _ _ => False) (schedulerScan_ends i found hidle hc (.refl _)) hk hμ
        hnone
    | schedulerBack p =>
      obtain ⟨⟨b, rfl⟩, hg, hc⟩ := hlabel
      cases hcode
      exact arrives_of (X := fun _ _ => False) (schedulerBack_ends hg hc (.refl _)) hk hμ hnone
    | forkret =>
      obtain ⟨p, ⟨b, rfl⟩, hg, hw, htrap⟩ := hlabel
      cases hcode
      refine Discipline.wp_mono (fun a t _ hend => ?_) (forkret_wp hμ hk hg hw htrap)
      exact .of_spares (.inr hend.2.1) hw.cproc hend.2.2.2.1
    | sleepBack p ia k =>
      obtain ⟨⟨b, rfl⟩, hg, hw, hpause, hok⟩ := hlabel
      cases hcode
      exact arrives_of (X := fun _ _ => False) (sleepBack_ends hq hg hw hpause hok (.refl _)) hk hμ
        hnone
    | exitBack => exact absurd hlabel id
    | awake p k =>
      obtain ⟨⟨b, rfl⟩, hw, hok⟩ := hlabel
      cases hcode
      exact arrives_of (X := fun _ _ => False) (awake_ends hw hok (.refl _)) hk hμ hnone
    | kwait p addr =>
      obtain ⟨⟨b, rfl⟩, hg, hw, hcall, hquiet⟩ := hlabel
      cases hcode
      -- the one label from which another process is reached: the child that is reaped
      refine arrives_of (X := fun c' => Reaps p s.core c')
        (kwaitRound_ends hg hw hcall hquiet) hk hμ ?_
      intro c' q i hq hi
      rw [hw.cproc, Option.some.injEq] at hq
      exact hq ▸ hi
    | consoleread p dst n target =>
      obtain ⟨⟨b, rfl⟩, hg, hw, hcall, hr⟩ := hlabel
      cases hcode
      exact arrives_of (X := fun _ i => i = p)
        (consolereadRound_ends hg hw hcall hr (.refl _)) hk hμ
        (hself hw.cproc)
    | consolereadWait p dst n target =>
      obtain ⟨⟨b, rfl⟩, hg, hw, hcall, hn, hr⟩ := hlabel
      cases hcode
      exact arrives_of (X := fun _ i => i = p)
        (consolereadWaitRound_ends hg hw hcall hn hr (.refl _))
        hk hμ (hself hw.cproc)
    | consolewrite p src n i =>
      obtain ⟨⟨b, rfl⟩, hw, hcall⟩ := hlabel
      cases hcode
      exact arrives_of (X := fun _ i => i = p) ((consolewriteRound_runs hw hcall (.refl _)).mono
        fun _ _ _ h => h.1) hk hμ (hself hw.cproc)
    | sysret p v =>
      obtain ⟨⟨b, rfl⟩, hw, hcall⟩ := hlabel
      cases hcode
      exact arrives_of (X := fun _ i => i = p) (syscallReturn_ends hw hcall (.refl _) v) hk hμ
        (hself hw.cproc)
    | usertrapTail p =>
      obtain ⟨⟨b, rfl⟩, hw, htrap, hset⟩ := hlabel
      cases hcode
      exact usertrapTail_wp hμ hk hw htrap hset
    | userret satp => exact absurd hlabel id
    | user => exact absurd hlabel id
    | vector => exact absurd hlabel id
    | usertrap => exact absurd hlabel id
  · cases a with
    | userret satp =>
      cases hcode
      exact userretCode_wp hq hI htrap
    | user => cases hcode
    | vector =>
      cases hcode
      exact vector_wp hI htrap
    | usertrap =>
      cases hcode
      exact usertrap_wp hq hI htrap
    | _ => exact absurd htrap id

/-! ### What holds at labels survives interrupts -/

theorem LabelOk.drift {a : Label} {c c' : Core} (h : LabelOk L S a (.unlocked b) c)
    (hd : Drift c c') : LabelOk L S a (.unlocked b) c' := by
  have hno : ∀ {ls : Finset Lock}, ¬∃ b', Mode.unlocked b = .locked ls b' := by
    rintro ls ⟨_, he⟩
    cases he
  cases a with
  | scheduler => exact ⟨h.1, hd.cproc.trans h.2.1, h.2.2.drift hd⟩
  | schedulerScan i found => exact ⟨h.1, hd.cproc.trans h.2.1, h.2.2.drift hd⟩
  | schedulerBack p => exact absurd h.1 hno
  | forkret =>
    obtain ⟨p, hm, -⟩ := h
    exact absurd hm hno
  | sleepBack p ia k => exact absurd h.1 hno
  | exitBack => exact h
  | awake p k => exact ⟨h.1, h.2.1.drift hd, h.2.2.drift hd⟩
  | kwait p addr => exact absurd h.1 hno
  | consoleread p dst n target => exact absurd h.1 hno
  | consolereadWait p dst n target => exact absurd h.1 hno
  | consolewrite p src n i => exact ⟨h.1, h.2.1.drift hd, by rw [hd.hist]; exact h.2.2⟩
  | sysret p v => exact ⟨h.1, h.2.1.drift hd, by rw [hd.hist]; exact h.2.2⟩
  | usertrapTail p => exact ⟨h.1, h.2.1.drift hd, by rw [hd.hist]; exact h.2.2⟩
  | userret satp => exact h
  | user => exact h
  | vector => exact h
  | usertrap => exact h

/-- Around user mode the kernel takes no interrupts. -/
theorem TrapOk.not_enabled {a : Label} (h : TrapOk L S a s) : ¬s.hart.Enabled := by
  rintro ⟨hsie, hsup⟩
  cases a with
  | userret satp =>
    obtain ⟨-, -, hs, -⟩ := h
    rw [hsie] at hs
    cases hs
  | user =>
    obtain ⟨-, hs, -⟩ := h
    rw [hsup] at hs
    cases hs
  | vector =>
    obtain ⟨-, p, t, -, ht, -⟩ := h
    have hs := ht.sie
    rw [hsie] at hs
    cases hs
  | usertrap =>
    obtain ⟨-, p, t, -, ht, -⟩ := h
    have hs := ht.sie
    rw [hsie] at hs
    cases hs
  | _ => exact h

theorem Pre.interfere {a : Label} (h : Pre L S (Env.interrupts.discipline L S) a s)
    (ht : (Env.interrupts.discipline L S).Interferes s t) :
    Pre L S (Env.interrupts.discipline L S) a t := by
  rcases ht with rfl | ⟨hen, hsame, hd, hg⟩
  · exact h
  rcases h with ⟨h₀, μ, hk, hμ, hlabel⟩ | htrap
  · cases μ with
    | unlocked b =>
      have ha : (Env.interrupts.discipline L S).After s t := ⟨hsame, .inr ⟨hen.1, hd⟩⟩
      exact .inl ⟨h₀, .unlocked b, hk, hμ.after ha (ha.unlocked hμ.unlocked hg), hlabel.drift hd⟩
    | locked ls b => exact absurd hen.1 (by rw [hμ.masked.sie]; decide)
  · exact absurd hen htrap.not_enabled

/-! ### The machine -/

/-- What is known of a configuration of the machine. -/
abbrev Safe (L : Layout) (S : Site) (M : System K Panic Label Irq)
    (d : System.Config K Panic Label) : Prop :=
  System.Config.Good ((Env.interrupts.discipline L S).Inv L)
    (Env.interrupts.discipline L S).Interferes (Stops L S) (Pre L S (Env.interrupts.discipline L S))
    M d

/-- **The kernel keeps its invariant**, whatever the processes do and wherever interrupts are
taken. -/
theorem kernel_safe {c d : System.Config K Panic Label} (hc : Safe L S (kernel L) c)
    (hcd : Relation.ReflTransGen (kernel L).Micro c d) : Safe L S (kernel L) d :=
  System.micro_invariant Discipline.interferes_refl Discipline.interferes_trans
    (fun _ _ _ h _ ht => h.interfere ht)
    (fun _ _ _ hx hI hpre => Discipline.wp_mono (fun _ _ _ h => h.1)
      (kernelCode_arrives (N := .interrupts) id hx hI hpre))
    (fun _ _ _ _ hI hpre h => userStep_ok (N := .interrupts) id hI hpre h)
    (fun irq _ hI hen => irq_wp irq hI hen) hc hcd

/-- What a single program of the kernel establishes, wherever interrupts are taken. -/
theorem segment_ends {x : KernelM Label} {Q : Label → K → Prop}
    (hx : (Env.interrupts.discipline L S).wp L x Q s)
    (hstable : ∀ a u v, Q a u → (Env.interrupts.discipline L S).Interferes u v → Q a v) {a : Label}
    (hrun : Relation.ReflTransGen (kernel L).segment.Micro ⟨s, x, []⟩ ⟨t, .ret a, []⟩) : Q a t :=
  System.segment_post Discipline.interferes_refl Discipline.interferes_trans
    (fun a u v hq _ huv => hstable a u v hq huv) (fun irq _ hI hen => irq_wp irq hI hen) hx hrun

end OsKernel
