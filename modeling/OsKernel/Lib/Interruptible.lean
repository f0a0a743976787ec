import Mathlib.Logic.Relation
import OsKernel.Lib.PanicM

/-!
# Interruptible programs

Code that runs on one hart with interrupts. A `Prog` is a finite sequence of atomic steps on
a state `σ`: each step changes the state, and the state before it decides how the program
goes on. Loops without a bound are cut at *labels*: a program returns the label of the code
that runs next, and a `System` says which program stands at each label.

Two semantics are given to the same programs.

* `Prog.run` runs a program to its end with nothing in between; `System.Next` is the machine
  that goes from label to label in this way.
* `System.Micro` runs the programs step by step and takes interrupts between any two steps
  at which they are enabled, each interrupt pushing the program of its handler.

`Prog.wp` is the weakest precondition of a program under interference: an invariant `I`
holds before every step, and a relation `R` says what the interrupts taken between two steps
may change. `System.micro_invariant` is its soundness: if the program at every label meets
its specification and the handlers stay within the interference, then every state the
machine passes through satisfies `I` and the only panics are the expected ones.
-/

namespace OsKernel

/-- A program on the state `σ`: it returns an `α`, panics with an `ε`, or takes a step. -/
inductive Prog (σ ε α : Type) : Type where
  | ret (a : α)
  | panic (e : ε)
  | step (change : σ → σ) (next : σ → Prog σ ε α)

namespace Prog

variable {σ ε α β γ : Type}

/-- Sequencing. -/
def bind : Prog σ ε α → (α → Prog σ ε β) → Prog σ ε β
  | .ret a, f => f a
  | .panic e, _ => .panic e
  | .step change next, f => .step change fun s => (next s).bind f

instance : Monad (Prog σ ε) where
  pure := .ret
  bind := Prog.bind

/-- A step that computes a value from the state. -/
def read (f : σ → α) : Prog σ ε α := .step id fun s => .ret (f s)

/-- A step that changes the state. -/
def update (f : σ → σ) : Prog σ ε Unit := .step f fun _ => .ret ()

/-- A whole computation as one step. -/
def atomic (x : PanicM σ ε α) : Prog σ ε α :=
  .step (fun s => match x s with | .ok (_, t) => t | .error _ => s)
    fun s => match x s with | .ok (a, _) => .ret a | .error e => .panic e

/-- The program run to its end without interruption. -/
def run : Prog σ ε α → PanicM σ ε α
  | .ret a => pure a
  | .panic e => PanicM.fail e
  | .step change next => fun s => (next s).run (change s)

variable {p : Prog σ ε α} {f : α → Prog σ ε β} {s t : σ} {a : α}

@[simp] theorem run_ret : (Prog.ret a : Prog σ ε α).run s = .ok (a, s) := rfl

@[simp] theorem run_pure : (pure a : Prog σ ε α).run s = .ok (a, s) := rfl

@[simp] theorem run_panic {e : ε} : (Prog.panic e : Prog σ ε α).run s = .error e := rfl

@[simp] theorem run_read (g : σ → α) : (read g : Prog σ ε α).run s = .ok (g s, s) := rfl

@[simp] theorem run_update (g : σ → σ) : (update g : Prog σ ε Unit).run s = .ok ((), g s) := rfl

@[simp] theorem run_atomic (x : PanicM σ ε α) : (atomic x).run s = x s := by
  cases h : x s with
  | ok r => simp only [atomic, run, h, run_ret]
  | error e => simp only [atomic, run, h, run_panic]

/-- Running a sequence is running its parts in order. -/
theorem run_bind : (p >>= f).run s = (p.run >>= fun a => (f a).run) s := by
  show (p.bind f).run s = _
  induction p generalizing s with
  | ret a => rfl
  | panic e => rfl
  | step change next ih => exact ih s

theorem run_bind_of_ok (h : p.run s = .ok (a, t)) : (p >>= f).run s = (f a).run t := by
  rw [run_bind, PanicM.bind_of_ok h]

theorem run_bind_of_error {e : ε} (h : p.run s = .error e) : (p >>= f).run s = .error e := by
  rw [run_bind, PanicM.bind_of_error h]

theorem run_bind_eq_ok_iff {b : β} {u : σ} :
    (p >>= f).run s = .ok (b, u) ↔ ∃ a t, p.run s = .ok (a, t) ∧ (f a).run t = .ok (b, u) := by
  rw [run_bind, PanicM.bind_eq_ok_iff]

@[simp] theorem ret_bind : ((Prog.ret a : Prog σ ε α) >>= f) = f a := rfl

@[simp] theorem pure_bind' : ((pure a : Prog σ ε α) >>= f) = f a := rfl

@[simp] theorem panic_bind {e : ε} : ((Prog.panic e : Prog σ ε α) >>= f) = Prog.panic e := rfl

theorem bind_assoc {g : β → Prog σ ε γ} : ((p >>= f) >>= g) = p >>= fun a => f a >>= g := by
  show (p.bind f).bind g = p.bind fun a => (f a).bind g
  induction p with
  | ret a => rfl
  | panic e => rfl
  | step change next ih => exact congrArg (Prog.step change) (funext ih)

@[simp] theorem run_read_bind (g : σ → α) : ((read g : Prog σ ε α) >>= f).run s = (f (g s)).run s :=
  rfl

@[simp] theorem run_update_bind (g : σ → σ) (k : Unit → Prog σ ε β) :
    ((update g : Prog σ ε Unit) >>= k).run s = (k ()).run (g s) := rfl

/-- Two computations that do the same to the state, as one step each, with programs behind them
that agree on their results. -/
theorem atomic_bind_congr {x : PanicM σ ε α} {y : PanicM σ ε β} {f : α → Prog σ ε γ}
    {g : β → Prog σ ε γ} (h : ∀ s, (∃ e, x s = .error e ∧ y s = .error e) ∨
      ∃ a b t, x s = .ok (a, t) ∧ y s = .ok (b, t) ∧ f a = g b) :
    (atomic x >>= f) = (atomic y >>= g) := by
  show Prog.step _ _ = Prog.step _ _
  congr 1
  · funext s
    rcases h s with ⟨e, hx, hy⟩ | ⟨a, b, t, hx, hy, -⟩ <;> simp only [hx, hy]
  · funext s
    rcases h s with ⟨e, hx, hy⟩ | ⟨a, b, t, hx, hy, hfg⟩
    · simp only [hx, hy, bind]
    · simp only [hx, hy, bind, hfg]

/-! ### Runs without interruption -/

/-- If the program, run without interruption, returns, then with `Q`. -/
def Post (p : Prog σ ε α) (s : σ) (Q : α → σ → Prop) : Prop :=
  ∀ a t, p.run s = .ok (a, t) → Q a t

section Post

variable {Q Q' : α → σ → Prop}

theorem Post.mono (h : p.Post s Q) (hQ : ∀ a t, Q a t → Q' a t) : p.Post s Q' :=
  fun a t hrun => hQ a t (h a t hrun)

theorem Post.bind {R : β → σ → Prop} (h : p.Post s fun a t => (f a).Post t R) :
    (p >>= f).Post s R := by
  intro b u hrun
  obtain ⟨a, t, hp, hf⟩ := run_bind_eq_ok_iff.mp hrun
  exact h a t hp b u hf

theorem post_pure (h : Q a s) : (pure a : Prog σ ε α).Post s Q := by
  rintro _ _ ⟨⟩
  exact h

theorem post_panic {e : ε} : (Prog.panic e : Prog σ ε α).Post s Q := nofun

theorem post_read {g : σ → α} (h : Q (g s) s) : (read g : Prog σ ε α).Post s Q := by
  rintro _ _ ⟨⟩
  exact h

theorem post_update {g : σ → σ} {Q : Unit → σ → Prop} (h : Q () (g s)) :
    (update g : Prog σ ε Unit).Post s Q := by
  rintro _ _ ⟨⟩
  exact h

theorem post_ite {c : Prop} [Decidable c] {q : Prog σ ε α} (hp : c → p.Post s Q)
    (hq : ¬c → q.Post s Q) : (if c then p else q).Post s Q := by
  by_cases h : c
  · rw [if_pos h]
    exact hp h
  · rw [if_neg h]
    exact hq h

/-- A check that panics. -/
theorem Post.guard {g : σ → α} {c : α → Prop} [DecidablePred c] {e : ε} {R : β → σ → Prop}
    (h : ¬c (g s) → (f (g s)).Post s R) :
    (do let a ← read g; if c a then Prog.panic e else f a : Prog σ ε β).Post s R :=
  .bind (post_read (post_ite (fun _ => post_panic) h))

end Post

/-- The program, run without interruption, keeps `P`. -/
def Maintains (P : σ → Prop) (p : Prog σ ε α) : Prop := ∀ s, P s → p.Post s fun _ t => P t

section Maintains

variable {P : σ → Prop}

theorem Maintains.bind (hp : p.Maintains P) (hf : ∀ a, (f a).Maintains P) : (p >>= f).Maintains P :=
  fun s hs => .bind ((hp s hs).mono fun a t ht => hf a t ht)

theorem Post.bind_maintains {R : β → σ → Prop} (hp : p.Maintains P) (hs : P s)
    (hf : ∀ a t, P t → (f a).Post t R) : (p >>= f).Post s R := .bind ((hp s hs).mono hf)

theorem maintains_pure : (pure a : Prog σ ε α).Maintains P := fun _ hs => post_pure hs

theorem maintains_panic {e : ε} : (Prog.panic e : Prog σ ε α).Maintains P := fun _ _ => post_panic

theorem maintains_read {g : σ → α} : (read g : Prog σ ε α).Maintains P := fun _ hs => post_read hs

theorem maintains_update {g : σ → σ} (h : ∀ s, P s → P (g s)) :
    (update g : Prog σ ε Unit).Maintains P := fun s hs => post_update (h s hs)

theorem maintains_ite {c : Prop} [Decidable c] {q : Prog σ ε α} (hp : p.Maintains P)
    (hq : q.Maintains P) : (if c then p else q).Maintains P :=
  fun s hs => post_ite (fun _ => hp s hs) fun _ => hq s hs

end Maintains

/-! ### Weakest preconditions under interference -/

section Wp

variable (I : σ → Prop) (R : σ → σ → Prop) (E : ε → Prop)

/-- The states from which a program, with interference `R` before each of its steps, keeps
`I`, panics within `E` only, and returns with `Q`. -/
def wp : Prog σ ε α → (α → σ → Prop) → σ → Prop
  | .ret a, Q, s => I s ∧ Q a s
  | .panic e, _, s => I s ∧ E e
  | .step change next, Q, s => I s ∧ ∀ t, R s t → wp (next t) Q (change t)

variable {I R E} {Q Q' : α → σ → Prop}

theorem wp_inv (h : p.wp I R E Q s) : I s := by
  cases p with
  | ret a => exact h.1
  | panic e => exact h.1
  | step change next => exact h.1

theorem wp_mono (hQ : ∀ a t, I t → Q a t → Q' a t) (h : p.wp I R E Q s) : p.wp I R E Q' s := by
  induction p generalizing s with
  | ret a => exact ⟨h.1, hQ a s h.1 h.2⟩
  | panic e => exact h
  | step change next ih => exact ⟨h.1, fun t ht => ih t (h.2 t ht)⟩

/-- The rule for a sequence. -/
theorem wp_bind {Q : β → σ → Prop} (h : p.wp I R E (fun a t => (f a).wp I R E Q t) s) :
    (p >>= f).wp I R E Q s := by
  show (p.bind f).wp I R E Q s
  induction p generalizing s with
  | ret a => exact h.2
  | panic e => exact h
  | step change next ih => exact ⟨h.1, fun t ht => ih t (h.2 t ht)⟩

theorem wp_pure (hI : I s) (h : Q a s) : (pure a : Prog σ ε α).wp I R E Q s := ⟨hI, h⟩

theorem wp_update {g : σ → σ} {Q : Unit → σ → Prop} (hI : I s)
    (h : ∀ t, R s t → I (g t) ∧ Q () (g t)) : (update g : Prog σ ε Unit).wp I R E Q s := ⟨hI, h⟩

theorem wp_atomic {x : PanicM σ ε α} (hI : I s)
    (hok : ∀ t, R s t → ∀ a u, x t = .ok (a, u) → I u ∧ Q a u)
    (herr : ∀ t, R s t → ∀ e, x t = .error e → I t ∧ E e) : (atomic x).wp I R E Q s := by
  refine ⟨hI, fun t ht => ?_⟩
  cases h : x t with
  | ok r => simpa only [wp, h] using hok t ht r.1 r.2 h
  | error e => simpa only [wp, h] using herr t ht e h

/-- A weaker invariant, less interference, more panics. -/
theorem wp_weaken {I' : σ → Prop} {R' : σ → σ → Prop} {E' : ε → Prop} (hI : ∀ s, I s → I' s)
    (hR : ∀ s t, R' s t → R s t) (hE : ∀ e, E e → E' e) (h : p.wp I R E Q s) :
    p.wp I' R' E' Q s := by
  induction p generalizing s with
  | ret a => exact ⟨hI s h.1, h.2⟩
  | panic e => exact ⟨hI s h.1, hE e h.2⟩
  | step change next ih => exact ⟨hI s h.1, fun t ht => ih t (h.2 t (hR s t ht))⟩

/-- Without interference: the program ends as `wp` says. -/
theorem wp_run (hrefl : ∀ s, R s s) (h : p.wp I R E Q s) :
    (∃ a t, p.run s = .ok (a, t) ∧ I t ∧ Q a t) ∨ ∃ e, p.run s = .error e ∧ E e := by
  induction p generalizing s with
  | ret a => exact .inl ⟨a, s, rfl, h.1, h.2⟩
  | panic e => exact .inr ⟨e, rfl, h.2⟩
  | step change next ih => exact ih s (h.2 s (hrefl s))

/-- Without interference the program ends as its run without interruption does. -/
theorem wp_post (h : p.wp I Eq E Q s) (h' : p.Post s Q') :
    p.wp I Eq E (fun a t => Q a t ∧ Q' a t) s := by
  induction p generalizing s with
  | ret a => exact ⟨h.1, h.2, h' a s rfl⟩
  | panic e => exact h
  | step change next ih =>
    refine ⟨h.1, ?_⟩
    rintro t rfl
    exact ih s (h.2 s rfl) fun a u hrun => h' a u hrun

/-- A program that keeps interrupts away meets no interference. -/
theorem wp_of_quiet {enabled : σ → Prop} (hR : ∀ s t, R s t → s = t ∨ enabled s)
    (h : p.wp (fun s => I s ∧ ¬enabled s) Eq E Q s) : p.wp I R E Q s := by
  induction p generalizing s with
  | ret a => exact ⟨h.1.1, h.2⟩
  | panic e => exact ⟨h.1.1, h.2⟩
  | step change next ih =>
    refine ⟨h.1.1, fun t ht => ?_⟩
    obtain rfl := (hR s t ht).resolve_right h.1.2
    exact ih s (h.2 s rfl)

/-- A precondition survives the interference it allows for. -/
theorem wp_interfere (htrans : ∀ {s t u}, R s t → R t u → R s u) (hI : I t) (hR : R s t)
    (hQ : ∀ a, Q a s → Q a t) (h : p.wp I R E Q s) : p.wp I R E Q t := by
  cases p with
  | ret a => exact ⟨hI, hQ a h.2⟩
  | panic e => exact ⟨hI, h.2⟩
  | step change next => exact ⟨hI, fun u hu => h.2 u (htrans hR hu)⟩

end Wp

end Prog

/-! ### Systems of programs -/

/-- The code of a machine: the program at each label, the environment's steps at labels
where no program runs, and the interrupts with their handlers. -/
structure System (σ ε l ι : Type) where
  /-- The program at a label, if the kernel runs there. -/
  body : l → Option (Prog σ ε l)
  /-- What the environment may do at a label. -/
  env : l × σ → l × σ → Prop
  /-- Interrupts are enabled. -/
  enabled : σ → Prop
  /-- The hardware's part of taking an interrupt. -/
  enter : ι → σ → σ
  /-- The program that handles an interrupt. -/
  handler : ι → Prog σ ε Unit
  /-- The hardware's part of returning from it. -/
  leave : σ → σ

namespace System

variable {σ ε l ι : Type} (M : System σ ε l ι)

/-- A state of the machine that runs step by step: the state, the interrupted or running main
program, and the programs of the interrupts being handled, the innermost first. -/
structure Config (σ ε l : Type) where
  state : σ
  main : Prog σ ε l
  irqs : List (Prog σ ε Unit)

/-- The machine that runs step by step; interrupts are taken wherever they are enabled. -/
inductive Micro : Config σ ε l → Config σ ε l → Prop
  | main {s : σ} {change : σ → σ} {next : σ → Prog σ ε l} :
      Micro ⟨s, .step change next, []⟩ ⟨change s, next s, []⟩
  | jump {s : σ} {a : l} {p : Prog σ ε l} (hbody : M.body a = some p) :
      Micro ⟨s, .ret a, []⟩ ⟨s, p, []⟩
  | env {a b : l} {s t : σ} (h : M.env (a, s) (b, t)) : Micro ⟨s, .ret a, []⟩ ⟨t, .ret b, []⟩
  | irq {s : σ} {p : Prog σ ε l} (i : ι) {hs : List (Prog σ ε Unit)} (hen : M.enabled s) :
      Micro ⟨s, p, hs⟩ ⟨M.enter i s, p, M.handler i :: hs⟩
  | handle {s : σ} {p : Prog σ ε l} {change : σ → σ} {next : σ → Prog σ ε Unit}
      {hs : List (Prog σ ε Unit)} :
      Micro ⟨s, p, .step change next :: hs⟩ ⟨change s, p, next s :: hs⟩
  | return {s : σ} {p : Prog σ ε l} {hs : List (Prog σ ε Unit)} :
      Micro ⟨s, p, .ret () :: hs⟩ ⟨M.leave s, p, hs⟩

/-- The machine runs the program at its label to the end, with no interrupt in between. -/
def Next (c d : l × σ) : Prop := ∃ p, M.body c.1 = some p ∧ p.run c.2 = .ok d

/-- The machine that runs the program it is at, with interrupts, and stops at the label the
program returns. -/
def segment : System σ ε l ι := { M with body := fun _ => none, env := fun _ _ => False }

/-- The panic a configuration stands at, if any. -/
def Config.panicked : Config σ ε l → Option ε
  | ⟨_, _, .panic e :: _⟩ => some e
  | ⟨_, .panic e, []⟩ => some e
  | _ => none

variable {M}

theorem micro_of_run {p : Prog σ ε l} {s t : σ} {b : l} (h : p.run s = .ok (b, t)) :
    Relation.ReflTransGen M.Micro ⟨s, p, []⟩ ⟨t, .ret b, []⟩ := by
  induction p generalizing s with
  | ret a =>
    cases h
    exact .refl
  | panic e => cases h
  | step change next ih => exact .head .main (ih s h)

/-- An interrupt is taken and handled. -/
theorem micro_of_handler {i : ι} {p : Prog σ ε l} {hs : List (Prog σ ε Unit)} {s t : σ}
    (hen : M.enabled s) (hrun : (M.handler i).run (M.enter i s) = .ok ((), t)) :
    Relation.ReflTransGen M.Micro ⟨s, p, hs⟩ ⟨M.leave t, p, hs⟩ := by
  have hhandle : ∀ {h : Prog σ ε Unit} {s : σ}, h.run s = .ok ((), t) →
      Relation.ReflTransGen M.Micro ⟨s, p, h :: hs⟩ ⟨t, p, .ret () :: hs⟩ := by
    intro h s hrun
    induction h generalizing s with
    | ret a =>
      cases hrun
      exact .refl
    | panic e => cases hrun
    | step change next ih => exact .head .handle (ih s hrun)
  exact .head (.irq i hen) ((hhandle hrun).tail .return)

/-- The machine that runs step by step can go without interrupts. -/
theorem micro_of_next {a b : l} {s t : σ} (h : Relation.ReflTransGen M.Next (a, s) (b, t)) :
    Relation.ReflTransGen M.Micro ⟨s, .ret a, []⟩ ⟨t, .ret b, []⟩ := by
  generalize hd : (b, t) = d at h
  induction h generalizing b t with
  | refl =>
    cases hd
    exact .refl
  | tail _ hnext ih =>
    subst hd
    obtain ⟨p, hbody, hrun⟩ := hnext
    exact (ih rfl).trans (.head (.jump hbody) (micro_of_run hrun))

/-- What a single program does the whole machine can do. -/
theorem micro_of_segment {c d : Config σ ε l} (h : Relation.ReflTransGen M.segment.Micro c d) :
    Relation.ReflTransGen M.Micro c d := by
  refine Relation.ReflTransGen.mono (fun _ _ hstep => ?_) _ _ h
  cases hstep with
  | main => exact .main
  | jump hbody => cases hbody
  | env he => exact absurd he id
  | irq i hen => exact .irq i hen
  | handle => exact .handle
  | «return» => exact .return

section Invariant

variable (I : σ → Prop) (R : σ → σ → Prop) (E : ε → Prop) (Pre : l → σ → Prop)

/-- What holds of a configuration: the main program meets its specification, or it does once
the one interrupt being handled is over. Handlers run with interrupts disabled. -/
def Config.Good (M : System σ ε l ι) (c : Config σ ε l) : Prop :=
  (c.irqs = [] ∧ c.main.wp I R E Pre c.state) ∨
    ∃ h, c.irqs = [h] ∧ h.wp (fun s => I s ∧ ¬M.enabled s) Eq E
      (fun _ s => c.main.wp I R E Pre (M.leave s)) c.state

variable {I R E Pre}

theorem Config.Good.inv {c : Config σ ε l} (h : Config.Good I R E Pre M c) : I c.state := by
  rcases h with ⟨-, hwp⟩ | ⟨h, -, hwp⟩
  · exact Prog.wp_inv hwp
  · exact (Prog.wp_inv hwp).1

theorem Config.Good.panicked {c : Config σ ε l} {e : ε} (h : Config.Good I R E Pre M c)
    (hpanic : c.panicked = some e) : E e := by
  obtain ⟨s, main, irqs⟩ := c
  rcases h with ⟨hnil, hwp⟩ | ⟨h, hone, hwp⟩
  · simp only at hnil
    subst hnil
    cases main with
    | panic e' =>
      simp only [Config.panicked, Option.some.injEq] at hpanic
      exact hpanic ▸ hwp.2
    | ret a => cases hpanic
    | step change next => cases hpanic
  · simp only at hone
    subst hone
    cases h with
    | panic e' =>
      simp only [Config.panicked, Option.some.injEq] at hpanic
      exact hpanic ▸ hwp.2
    | ret a => cases hpanic
    | step change next => cases hpanic

/-- **Soundness of `wp` for the machine with interrupts.** Let `R` be a preorder that every
handler stays within, and let the program at every label establish the precondition of the
label it returns. Then every configuration the machine reaches keeps its specification. -/
theorem micro_invariant (hrefl : ∀ s, R s s) (htrans : ∀ {s t u}, R s t → R t u → R s u)
    (hstable : ∀ a s t, Pre a s → I t → R s t → Pre a t)
    (hbody : ∀ a s p, M.body a = some p → I s → Pre a s → p.wp I R E Pre s)
    (henv : ∀ a b s t, I s → Pre a s → M.env (a, s) (b, t) → I t ∧ Pre b t)
    (hirq : ∀ i s, I s → M.enabled s → (M.handler i).wp (fun s => I s ∧ ¬M.enabled s) Eq E
      (fun _ t => I (M.leave t) ∧ R s (M.leave t)) (M.enter i s))
    {c d : Config σ ε l} (hc : Config.Good I R E Pre M c)
    (hcd : Relation.ReflTransGen M.Micro c d) : Config.Good I R E Pre M d := by
  induction hcd with
  | refl => exact hc
  | tail _ hstep ih =>
    cases hstep with
    | main =>
      rcases ih with ⟨-, hwp⟩ | ⟨h, hone, -⟩
      · exact .inl ⟨rfl, hwp.2 _ (hrefl _)⟩
      · cases hone
    | jump hb =>
      rcases ih with ⟨-, hwp⟩ | ⟨h, hone, -⟩
      · exact .inl ⟨rfl, hbody _ _ _ hb hwp.1 hwp.2⟩
      · cases hone
    | env he =>
      rcases ih with ⟨-, hwp⟩ | ⟨h, hone, -⟩
      · exact .inl ⟨rfl, henv _ _ _ _ hwp.1 hwp.2 he⟩
      · cases hone
    | irq i hen =>
      rcases ih with ⟨hnil, hwp⟩ | ⟨h, hone, hwp⟩
      · -- the main program is suspended; what it needs survives the handler
        refine .inr ⟨_, by simp only at hnil ⊢; rw [hnil], ?_⟩
        refine Prog.wp_mono (fun _ t _ ht => ?_) (hirq i _ (Prog.wp_inv hwp) hen)
        exact Prog.wp_interfere htrans ht.1 ht.2 (fun a ha => hstable a _ _ ha ht.1 ht.2) hwp
      · exact absurd hen (Prog.wp_inv hwp).2
    | handle =>
      rcases ih with ⟨hnil, -⟩ | ⟨h, hone, hwp⟩
      · cases hnil
      · simp only [List.cons.injEq] at hone
        obtain ⟨rfl, rfl⟩ := hone
        exact .inr ⟨_, rfl, hwp.2 _ rfl⟩
    | «return» =>
      rcases ih with ⟨hnil, -⟩ | ⟨h, hone, hwp⟩
      · cases hnil
      · simp only [List.cons.injEq] at hone
        obtain ⟨rfl, rfl⟩ := hone
        exact .inl ⟨rfl, hwp.2⟩

/-- What a single program establishes, with interrupts wherever they are enabled. -/
theorem segment_post {Q : l → σ → Prop} (hrefl : ∀ s, R s s)
    (htrans : ∀ {s t u}, R s t → R t u → R s u)
    (hstable : ∀ a s t, Q a s → I t → R s t → Q a t)
    (hirq : ∀ i s, I s → M.enabled s → (M.handler i).wp (fun s => I s ∧ ¬M.enabled s) Eq E
      (fun _ t => I (M.leave t) ∧ R s (M.leave t)) (M.enter i s))
    {s t : σ} {p : Prog σ ε l} {b : l} (hp : p.wp I R E Q s)
    (hrun : Relation.ReflTransGen M.segment.Micro ⟨s, p, []⟩ ⟨t, .ret b, []⟩) : Q b t := by
  have hgood : Config.Good I R E Q M.segment ⟨t, .ret b, []⟩ :=
    micro_invariant (M := M.segment) hrefl htrans hstable (fun _ _ _ h => by cases h)
      (fun _ _ _ _ _ _ h => absurd h id) hirq (.inl ⟨rfl, hp⟩) hrun
  rcases hgood with ⟨-, hwp⟩ | ⟨h, hone, -⟩
  · exact hwp.2
  · cases hone

end Invariant

end System

end OsKernel
