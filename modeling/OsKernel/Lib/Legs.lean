import OsKernel.Lib.Guarantee

/-!
# Runs as sequences of legs

`System.Micro` takes single steps. Seen from label to label a run is a sequence of *legs*: the
program at a label runs to its end with the interrupts that are taken on the way, or the
environment takes a step. `System.legs_of_micro` cuts a run into its legs, and what is known of the
states a run passes through is known at the beginning of each leg.

`System.segment_guarantees` is the soundness of `Prog.Guarantees` for a leg: all its steps are as
the program guarantees, those of the handlers included, and it ends as the program does.
`System.segment_guarantees_enabled` is for programs that rely on not being interrupted where
interrupts are disabled.
-/

namespace OsKernel

/-- What a program guarantees, its end included, survives the interference it allows for. -/
theorem Prog.Guarantees.stable {σ ε α : Type} {R G : σ → σ → Prop} {Q : α → σ → Prop}
    {p : Prog σ ε α} {s t : σ} (h : p.Guarantees R G Q s)
    (htrans : ∀ {s t u}, R s t → R t u → R s u) (hstable : ∀ a u v, Q a u → R u v → Q a v)
    (hR : R s t) : p.Guarantees R G Q t := by
  cases p with
  | ret a => exact hstable a s t h hR
  | panic e => exact trivial
  | step change next => exact fun u hu => h u (htrans hR hu)

/-- What a program guarantees may be said with less detail. -/
theorem Prog.Guarantees.weaken {σ ε α : Type} {R G G' : σ → σ → Prop} {Q Q' : α → σ → Prop}
    {p : Prog σ ε α} {s : σ} (h : p.Guarantees R G Q s) (hG : ∀ s t, G s t → G' s t)
    (hQ : ∀ a t, Q a t → Q' a t) : p.Guarantees R G' Q' s := by
  induction p generalizing s with
  | ret a => exact hQ a s h
  | panic e => exact trivial
  | step change next ih => exact fun t ht => ⟨hG _ _ (h t ht).1, ih t (h t ht).2⟩

/-- A program that stays within `H`, which allows for the interference. -/
theorem Prog.Within.guarantees_of {σ ε α : Type} {R H G : σ → σ → Prop} {Q : α → σ → Prop}
    {p : Prog σ ε α} {s : σ} (hp : p.Within H) (hrefl : ∀ s, H s s)
    (htrans : ∀ {s t u}, H s t → H t u → H s u) (hR : ∀ s t, R s t → H s t)
    (hG : ∀ s t, H s t → G s t) (h : ∀ a t, H s t → Q a t) : p.Guarantees R G Q s := by
  induction p generalizing s with
  | ret a => exact h a s (hrefl s)
  | panic e => exact trivial
  | step change next ih =>
    intro t ht
    have hstep := hp.1 t
    exact ⟨hG _ _ hstep, ih t (hp.2 t) fun a u hu => h a u (htrans (hR _ _ ht) (htrans hstep hu))⟩

namespace System

variable {σ ε l ι : Type} (M : System σ ε l ι)

/-- What the machine does from one label to the next: nothing or the program at the label, each
with interrupts, or a step of the environment. -/
inductive Leg : l × σ → l × σ → Prop
  | run {a b : l} {s t : σ} {p : Prog σ ε l} (hp : p = .ret a ∨ M.body a = some p)
      (hrun : Relation.ReflTransGen M.segment.Micro ⟨s, p, []⟩ ⟨t, .ret b, []⟩) : Leg (a, s) (b, t)
  | env {a b : l} {s t : σ} (h : M.env (a, s) (b, t)) : Leg (a, s) (b, t)

/-- A step that starts in a state with `P`. -/
def MicroFrom (P : σ → Prop) (c d : Config σ ε l) : Prop := M.Micro c d ∧ P c.state

/-- A leg that starts in a state with `P`. -/
def LegFrom (P : σ → Prop) (c d : l × σ) : Prop := M.Leg c d ∧ P c.2

variable {M} {P : σ → Prop}

theorem Leg.micro {c d : l × σ} (h : M.Leg c d) :
    Relation.ReflTransGen M.Micro ⟨c.2, .ret c.1, []⟩ ⟨d.2, .ret d.1, []⟩ := by
  cases h with
  | run hp hrun =>
    rcases hp with rfl | hbody
    · exact micro_of_segment hrun
    · exact .head (.jump hbody) (micro_of_segment hrun)
  | env h => exact .single (.env h)

theorem micro_of_legs {c d : l × σ} (h : Relation.ReflTransGen M.Leg c d) :
    Relation.ReflTransGen M.Micro ⟨c.2, .ret c.1, []⟩ ⟨d.2, .ret d.1, []⟩ := by
  induction h with
  | refl => exact .refl
  | tail _ hleg ih => exact ih.trans hleg.micro

theorem leg_of_next {c d : l × σ} (h : M.Next c d) : M.Leg c d := by
  obtain ⟨p, hp, hrun⟩ := h
  exact .run (.inr hp) (micro_of_run hrun)

/-- A program that keeps `P` runs through states with `P`. -/
theorem microFrom_bind {α : Type} {p : Prog σ ε α} {f : α → Prog σ ε l} {a : α} {s t : σ}
    (hp : p.Within fun s t => P s → P t) (hs : P s) (hrun : p.run s = .ok (a, t)) :
    Relation.ReflTransGen (M.MicroFrom P) ⟨s, p >>= f, []⟩ ⟨t, f a, []⟩ ∧ P t := by
  induction p generalizing s with
  | ret a' =>
    cases hrun
    exact ⟨.refl, hs⟩
  | panic e => cases hrun
  | step change next ih =>
    obtain ⟨hpath, ht⟩ := ih s (hp.2 s) (hp.1 s hs) hrun
    exact ⟨.head ⟨.main, hs⟩ hpath, ht⟩

/-- A step is one of the program that runs, or it begins between two programs. -/
theorem Micro.segment_or {c d : Config σ ε l} (h : M.Micro c d) : M.segment.Micro c d ∨
    ∃ a, c.main = .ret a ∧ c.irqs = [] ∧
      ((∃ p, M.body a = some p ∧ d = ⟨c.state, p, []⟩) ∨
        ∃ b, M.env (a, c.state) (b, d.state) ∧ d = ⟨d.state, .ret b, []⟩) := by
  cases h with
  | main => exact .inl .main
  | @jump s a p hbody => exact .inr ⟨a, rfl, rfl, .inl ⟨p, hbody, rfl⟩⟩
  | @env a b s t h => exact .inr ⟨a, rfl, rfl, .inr ⟨b, h, rfl⟩⟩
  | irq i hen => exact .inl (.irq i hen)
  | handle => exact .inl .handle
  | «return» => exact .inl .return

/-- The legs of a run so far, and the leg it is in. -/
theorem legs_of_micro_aux {a : l} {s : σ} {d : Config σ ε l}
    (h : Relation.ReflTransGen (M.MicroFrom P) ⟨s, .ret a, []⟩ d) :
    ∃ b t p, Relation.ReflTransGen (M.LegFrom P) (a, s) (b, t) ∧
      (p = .ret b ∨ M.body b = some p) ∧
      Relation.ReflTransGen (M.segment.MicroFrom P) ⟨t, p, []⟩ d ∧ (P t ∨ d = ⟨t, .ret b, []⟩) := by
  induction h with
  | refl => exact ⟨a, s, .ret a, .refl, .inl rfl, .refl, .inr rfl⟩
  | @tail c d _ hstep ih =>
    obtain ⟨b, t, p, hlegs, hp, hseg, hP⟩ := ih
    obtain ⟨hmicro, hPc⟩ := hstep
    have hPt : P t := hP.elim id fun hc => by
      rw [hc] at hPc
      exact hPc
    rcases hmicro.segment_or with hin | ⟨b', hmain, hirqs, hout⟩
    · exact ⟨b, t, p, hlegs, hp, hseg.tail ⟨hin, hPc⟩, .inl hPt⟩
    -- the leg so far ends at `c`, and another one begins there
    have hc : c = ⟨c.state, .ret b', []⟩ := by rw [← hmain, ← hirqs]
    have hrun : Relation.ReflTransGen M.segment.Micro ⟨t, p, []⟩ ⟨c.state, .ret b', []⟩ := by
      rw [← hc]
      exact Relation.ReflTransGen.mono (fun _ _ h => h.1) _ _ hseg
    have hlegs' := hlegs.tail ⟨.run hp hrun, hPt⟩
    rcases hout with ⟨q, hbody, hd⟩ | ⟨b'', henv, hd⟩
    · rw [hd]
      exact ⟨b', c.state, q, hlegs', .inr hbody, .refl, .inl hPc⟩
    · rw [hd]
      exact ⟨b'', d.state, .ret b'', hlegs'.tail ⟨.env henv, hPc⟩, .inl rfl, .refl, .inr rfl⟩

/-- **A run from label to label** is a sequence of legs. -/
theorem legs_of_micro {a b : l} {s t : σ}
    (h : Relation.ReflTransGen (M.MicroFrom P) ⟨s, .ret a, []⟩ ⟨t, .ret b, []⟩) :
    Relation.ReflTransGen (M.LegFrom P) (a, s) (b, t) := by
  obtain ⟨b', t', p, hlegs, hp, hseg, hP | hd⟩ := legs_of_micro_aux h
  · exact hlegs.tail ⟨.run hp (Relation.ReflTransGen.mono (fun _ _ h => h.1) _ _ hseg), hP⟩
  · injection hd with ht hb _
    injection hb with hb
    rw [ht, hb]
    exact hlegs

/-! ### What the steps of a leg do -/

section Guarantees

variable {R G : σ → σ → Prop} {Q : l → σ → Prop}

/-- **Every step of a leg** is one of `G`, and the leg ends with `Q`. -/
theorem segment_guarantees (hrefl : ∀ s, R s s) (htrans : ∀ {s t u}, R s t → R t u → R s u)
    (hRG : ∀ s t, R s t → G s t) (henter : ∀ i s, R s (M.enter i s)) (hleave : ∀ s, R s (M.leave s))
    (hhandler : ∀ i, (M.handler i).Within R) (hstable : ∀ a u v, Q a u → R u v → Q a v)
    {p : Prog σ ε l} {s t : σ} {b : l} (hp : p.Guarantees R G Q s)
    (hrun : Relation.ReflTransGen M.segment.Micro ⟨s, p, []⟩ ⟨t, .ret b, []⟩) :
    Relation.ReflTransGen G s t ∧ Q b t := by
  have hall : ∀ d, Relation.ReflTransGen M.segment.Micro ⟨s, p, []⟩ d →
      Relation.ReflTransGen G s d.state ∧ (∀ h ∈ d.irqs, h.Within R) ∧
        d.main.Guarantees R G Q d.state := by
    intro d hd
    induction hd with
    | refl => exact ⟨.refl, by simp, hp⟩
    | tail _ hstep ih =>
      obtain ⟨hsteps, hirqs, hmain⟩ := ih
      cases hstep with
      | @main s change next =>
        obtain ⟨hG, hnext⟩ := hmain s (hrefl s)
        exact ⟨hsteps.tail hG, hirqs, hnext⟩
      | jump hbody => cases hbody
      | env h => exact absurd h id
      | @irq s p i hs hen =>
        refine ⟨hsteps.tail (hRG _ _ (henter i s)),
          List.forall_mem_cons.mpr ⟨hhandler i, hirqs⟩, ?_⟩
        exact hmain.stable htrans hstable (henter i s)
      | @handle s p change next hs =>
        obtain ⟨hh, hrest⟩ := List.forall_mem_cons.mp hirqs
        refine ⟨hsteps.tail (hRG _ _ (hh.1 s)), List.forall_mem_cons.mpr ⟨hh.2 s, hrest⟩, ?_⟩
        exact hmain.stable htrans hstable (hh.1 s)
      | @«return» s p hs =>
        refine ⟨hsteps.tail (hRG _ _ (hleave s)), (List.forall_mem_cons.mp hirqs).2, ?_⟩
        exact hmain.stable htrans hstable (hleave s)
  obtain ⟨hsteps, -, hQ⟩ := hall _ hrun
  exact ⟨hsteps, hQ⟩

end Guarantees

/-! ### Interrupts where they are enabled -/

section Enabled

variable {H G : σ → σ → Prop} {Q : l → σ → Prop}

/-- What interrupts do between two steps of a program: nothing where they are disabled. -/
def Interferes (M : System σ ε l ι) (H : σ → σ → Prop) (s t : σ) : Prop :=
  s = t ∨ M.enabled s ∧ H s t

theorem Interferes.refl (s : σ) : M.Interferes H s s := .inl rfl

theorem Interferes.trans (htrans : ∀ s t u, H s t → H t u → H s u) {s t u : σ}
    (h : M.Interferes H s t) (h' : M.Interferes H t u) : M.Interferes H s u := by
  obtain rfl | ⟨hen, h⟩ := h
  · exact h'
  obtain rfl | ⟨-, h'⟩ := h'
  · exact .inr ⟨hen, h⟩
  · exact .inr ⟨hen, htrans _ _ _ h h'⟩

/-- **A leg whose program relies on being alone where interrupts are disabled.** The handlers may
do what `H` allows, with interrupts off themselves; the program notices them only where it could
have been interrupted. -/
theorem segment_guarantees_enabled (htrans : ∀ {s t u}, H s t → H t u → H s u)
    (henter : ∀ i s, H s (M.enter i s)) (hleave : ∀ s, H s (M.leave s))
    (hhandler : ∀ i, (M.handler i).Within H)
    (hstable : ∀ a u v, Q a u → M.Interferes H u v → Q a v) {p : Prog σ ε l} {s t : σ} {b : l}
    (hp : p.Guarantees (M.Interferes H) G Q s)
    (hrun : Relation.ReflTransGen M.segment.Micro ⟨s, p, []⟩ ⟨t, .ret b, []⟩) : Q b t := by
  -- `s₀` is the state in which the program was interrupted
  have hall : ∀ d, Relation.ReflTransGen M.segment.Micro ⟨s, p, []⟩ d →
      (∀ h ∈ d.irqs, h.Within H) ∧ ∃ s₀, d.main.Guarantees (M.Interferes H) G Q s₀ ∧
        (d.irqs = [] → s₀ = d.state) ∧ (d.irqs ≠ [] → M.enabled s₀ ∧ H s₀ d.state) := by
    intro d hd
    induction hd with
    | refl => exact ⟨by simp, s, hp, fun _ => rfl, fun h => absurd rfl h⟩
    | tail _ hstep ih =>
      obtain ⟨hirqs, s₀, hmain, halone, hbusy⟩ := ih
      cases hstep with
      | @main s change next =>
        obtain rfl := halone rfl
        exact ⟨hirqs, _, (hmain _ (.refl _)).2, fun _ => rfl, fun h => absurd rfl h⟩
      | jump hbody => cases hbody
      | env h => exact absurd h id
      | @irq s p i hs hen =>
        refine ⟨List.forall_mem_cons.mpr ⟨hhandler i, hirqs⟩, s₀, hmain, by simp, fun _ => ?_⟩
        by_cases hnil : hs = []
        · rw [halone hnil]
          exact ⟨hen, henter i s⟩
        · exact ⟨(hbusy hnil).1, htrans (hbusy hnil).2 (henter i s)⟩
      | @handle s p change next hs =>
        obtain ⟨hh, hrest⟩ := List.forall_mem_cons.mp hirqs
        obtain ⟨hen, hH⟩ := hbusy (by simp)
        exact ⟨List.forall_mem_cons.mpr ⟨hh.2 s, hrest⟩, s₀, hmain, by simp,
          fun _ => ⟨hen, htrans hH (hh.1 s)⟩⟩
      | @«return» s p hs =>
        obtain ⟨hen, hH⟩ := hbusy (by simp)
        refine ⟨(List.forall_mem_cons.mp hirqs).2, ?_⟩
        by_cases hnil : hs = []
        · exact ⟨M.leave s, hmain.stable (Interferes.trans (H := H) fun _ _ _ => htrans) hstable
            (.inr ⟨hen, htrans hH (hleave s)⟩), fun _ => rfl, fun h => absurd hnil h⟩
        · exact ⟨s₀, hmain, fun h => absurd h hnil, fun _ => ⟨hen, htrans hH (hleave s)⟩⟩
  obtain ⟨-, s₀, hQ, halone, -⟩ := hall _ hrun
  obtain rfl : s₀ = t := halone rfl
  exact hQ

end Enabled

end System

end OsKernel
