import OsKernel.Lib.Interruptible

/-!
# What every step of a program does

`Prog.wp` speaks about the states a program passes through. This module speaks about its steps.

* `p.Within G`: every step of `p` is a step of the relation `G`, from whatever state it is taken.
* `p.Guarantees R G Q s`: started in `s`, with interference `R` before each step, every step of `p`
  is a step of `G`, and `p` returns with `Q`. This is for programs whose steps lie in `G` only
  because of what was read before them.

`System.Config.Follows.micro` puts programs together: if the handlers stay within `R` and every
program that is jumped to guarantees `G`, then every step of the machine is one of `G`.
-/

namespace OsKernel

namespace Prog

variable {σ ε α β : Type} {R G : σ → σ → Prop} {p : Prog σ ε α} {f : α → Prog σ ε β} {s t : σ}
  {Q Q' : α → σ → Prop}

/-! ### Steps from any state -/

/-- Every step of the program is a step of `G`. -/
def Within (G : σ → σ → Prop) : Prog σ ε α → Prop
  | .ret _ => True
  | .panic _ => True
  | .step change next => (∀ s, G s (change s)) ∧ ∀ s, (next s).Within G

theorem within_pure {a : α} : (pure a : Prog σ ε α).Within G := trivial

theorem within_panic {e : ε} : (Prog.panic e : Prog σ ε α).Within G := trivial

theorem within_read (hrefl : ∀ s, G s s) {g : σ → α} : (read g : Prog σ ε α).Within G :=
  ⟨hrefl, fun _ => trivial⟩

theorem within_update {g : σ → σ} (h : ∀ s, G s (g s)) : (update g : Prog σ ε Unit).Within G :=
  ⟨h, fun _ => trivial⟩

theorem within_atomic (hrefl : ∀ s, G s s) {x : PanicM σ ε α}
    (h : ∀ s a t, x s = .ok (a, t) → G s t) : (atomic x).Within G := by
  refine ⟨fun s => ?_, fun s => ?_⟩
  · cases hx : x s with
    | ok r => simpa only [hx] using h s r.1 r.2 hx
    | error e => simpa only [hx] using hrefl s
  · cases hx : x s with
    | ok r => simp only [hx, Within]
    | error e => simp only [hx, Within]

theorem within_ite {c : Prop} {_ : Decidable c} {q : Prog σ ε α} (hp : p.Within G)
    (hq : q.Within G) :
    (if c then p else q).Within G := by
  by_cases h : c
  · rwa [if_pos h]
  · rwa [if_neg h]

theorem Within.bind (hp : p.Within G) (hf : ∀ a, (f a).Within G) : (p >>= f).Within G := by
  show (p.bind f).Within G
  induction p with
  | ret a => exact hf a
  | panic e => exact trivial
  | step change next ih => exact ⟨hp.1, fun s => ih s (hp.2 s)⟩

theorem Within.mono {H : σ → σ → Prop} (hp : p.Within G) (h : ∀ s t, G s t → H s t) :
    p.Within H := by
  induction p with
  | ret a => exact trivial
  | panic e => exact trivial
  | step change next ih => exact ⟨fun s => h _ _ (hp.1 s), fun s => ih s (hp.2 s)⟩

/-! ### Steps from states that are known -/

/-- Started in `s`, with interference `R` before each step, every step of the program is a step
of `G`, and the program returns with `Q`. -/
def Guarantees (R G : σ → σ → Prop) : Prog σ ε α → (α → σ → Prop) → σ → Prop
  | .ret a, Q, s => Q a s
  | .panic _, _, _ => True
  | .step change next, Q, s => ∀ t, R s t → G t (change t) ∧ (next t).Guarantees R G Q (change t)

theorem Guarantees.mono (h : p.Guarantees R G Q s) (hQ : ∀ a t, Q a t → Q' a t) :
    p.Guarantees R G Q' s := by
  induction p generalizing s with
  | ret a => exact hQ a s h
  | panic e => exact trivial
  | step change next ih => exact fun t ht => ⟨(h t ht).1, ih t (h t ht).2⟩

theorem guarantees_pure {a : α} (h : Q a s) : (pure a : Prog σ ε α).Guarantees R G Q s := h

theorem guarantees_panic {e : ε} : (Prog.panic e : Prog σ ε α).Guarantees R G Q s := trivial

theorem Guarantees.bind {Q : β → σ → Prop}
    (h : p.Guarantees R G (fun a t => (f a).Guarantees R G Q t) s) :
    (p >>= f).Guarantees R G Q s := by
  show (p.bind f).Guarantees R G Q s
  induction p generalizing s with
  | ret a => exact h
  | panic e => exact trivial
  | step change next ih => exact fun t ht => ⟨(h t ht).1, ih t (h t ht).2⟩

theorem guarantees_read (hrefl : ∀ s, G s s) {g : σ → α} (h : ∀ t, R s t → Q (g t) t) :
    (read g : Prog σ ε α).Guarantees R G Q s := fun t ht => ⟨hrefl t, h t ht⟩

theorem guarantees_update {g : σ → σ} {Q : Unit → σ → Prop}
    (h : ∀ t, R s t → G t (g t) ∧ Q () (g t)) : (update g : Prog σ ε Unit).Guarantees R G Q s := h

theorem guarantees_atomic (hrefl : ∀ s, G s s) {x : PanicM σ ε α}
    (h : ∀ t, R s t → ∀ a u, x t = .ok (a, u) → G t u ∧ Q a u) :
    (atomic x).Guarantees R G Q s := by
  intro t ht
  cases hx : x t with
  | ok r => simpa only [Guarantees, hx] using h t ht r.1 r.2 hx
  | error e => simpa only [Guarantees, hx, and_true] using hrefl t

theorem guarantees_ite {c : Prop} {_ : Decidable c} {q : Prog σ ε α} (hp : c → p.Guarantees R G Q s)
    (hq : ¬c → q.Guarantees R G Q s) : (if c then p else q).Guarantees R G Q s := by
  by_cases h : c
  · rw [if_pos h]
    exact hp h
  · rw [if_neg h]
    exact hq h

/-- A program that stays within the interference. -/
theorem Within.guarantees (hrefl : ∀ s, R s s) (htrans : ∀ {s t u}, R s t → R t u → R s u)
    (hRG : ∀ s t, R s t → G s t) (hp : p.Within R) (h : ∀ a t, R s t → Q a t) :
    p.Guarantees R G Q s := by
  induction p generalizing s with
  | ret a => exact h a s (hrefl s)
  | panic e => exact trivial
  | step change next ih =>
    intro t ht
    have hchange := hp.1 t
    exact ⟨hRG _ _ hchange, ih t (hp.2 t) fun a u hu => h a u (htrans ht (htrans hchange hu))⟩

/-- What a program guarantees, beside what it establishes under less interference. -/
theorem wp_guarantees {I : σ → Prop} {R' : σ → σ → Prop} {E : ε → Prop}
    (hR : ∀ s t, R' s t → R s t) (h : p.wp I R' E Q s) (h' : p.Guarantees R G Q' s) :
    p.wp I R' E (fun a t => Q a t ∧ Q' a t) s := by
  induction p generalizing s with
  | ret a => exact ⟨h.1, h.2, h'⟩
  | panic e => exact h
  | step change next ih => exact ⟨h.1, fun t ht => ih t (h.2 t ht) (h' t (hR s t ht)).2⟩

/-- A program that stays within a preorder, run without interruption. -/
theorem Within.post (hrefl : ∀ s, G s s) (htrans : ∀ {s t u}, G s t → G t u → G s u)
    (hp : p.Within G) : p.Post s fun _ t => G s t := by
  induction p generalizing s with
  | ret a => exact post_pure (hrefl s)
  | panic e => exact post_panic
  | step change next ih =>
    intro a t hrun
    exact htrans (hp.1 s) (ih s (hp.2 s) a t hrun)

/-- What a program guarantees survives the interference it allows for. -/
theorem Guarantees.interfere (htrans : ∀ {s t u}, R s t → R t u → R s u) (hR : R s t)
    (h : p.Guarantees R G (fun _ _ => True) s) : p.Guarantees R G (fun _ _ => True) t := by
  cases p with
  | ret a => exact trivial
  | panic e => exact trivial
  | step change next => exact fun u hu => h u (htrans hR hu)

end Prog

/-! ### The steps of a machine -/

namespace System

variable {σ ε l ι : Type} {M : System σ ε l ι} {R G : σ → σ → Prop} {c d : Config σ ε l}

/-- The rest of the program guarantees `G`, and the handlers that run stay within `R`. -/
def Config.Follows (R G : σ → σ → Prop) (c : Config σ ε l) : Prop :=
  (∀ h ∈ c.irqs, h.Within R) ∧ c.main.Guarantees R G (fun _ _ => True) c.state

/-- **Every step of the machine** is one of `G`, if the program that is jumped to guarantees it. -/
theorem Config.Follows.micro (hrefl : ∀ s, R s s) (htrans : ∀ {s t u}, R s t → R t u → R s u)
    (hRG : ∀ s t, R s t → G s t) (henter : ∀ i s, R s (M.enter i s)) (hleave : ∀ s, R s (M.leave s))
    (hhandler : ∀ i, (M.handler i).Within R)
    (henv : ∀ a b s t, M.env (a, s) (b, t) → R s t)
    (hbody : ∀ a p, c.main = .ret a → c.irqs = [] → M.body a = some p →
      p.Guarantees R G (fun _ _ => True) c.state)
    (hc : c.Follows R G) (hstep : M.Micro c d) : G c.state d.state ∧ d.Follows R G := by
  obtain ⟨hirqs, hmain⟩ := hc
  cases hstep with
  | @main s change next =>
    obtain ⟨hG, hnext⟩ := hmain s (hrefl s)
    exact ⟨hG, hirqs, hnext⟩
  | @jump s a p hp => exact ⟨hRG _ _ (hrefl s), hirqs, hbody a p rfl rfl hp⟩
  | @env a b s t h => exact ⟨hRG _ _ (henv a b s t h), hirqs, trivial⟩
  | @irq s p i hs hen =>
    refine ⟨hRG _ _ (henter i s), ?_, hmain.interfere htrans (henter i s)⟩
    exact List.forall_mem_cons.mpr ⟨hhandler i, hirqs⟩
  | @handle s p change next hs =>
    obtain ⟨hh, hrest⟩ := List.forall_mem_cons.mp hirqs
    refine ⟨hRG _ _ (hh.1 s), ?_, hmain.interfere htrans (hh.1 s)⟩
    exact List.forall_mem_cons.mpr ⟨hh.2 s, hrest⟩
  | @«return» s p hs =>
    refine ⟨hRG _ _ (hleave s), ?_, hmain.interfere htrans (hleave s)⟩
    exact (List.forall_mem_cons.mp hirqs).2

end System

end OsKernel
