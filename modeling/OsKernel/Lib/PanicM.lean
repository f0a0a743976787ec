import Mathlib.Logic.Function.Basic

/-!
# State transformers that may panic

`PanicM σ ε α` is a computation on a state `σ` that returns an `α` or stops with a panic
`ε`. A computation that panics returns no state: nothing runs after it. The laws below
take a sequence of computations apart, forwards (`bind_of_ok`) when the result of the first
is known and backwards (`bind_eq_ok_iff`) when the result of the whole is.
-/

namespace OsKernel

/-- A computation on the state `σ` that returns an `α` or panics with an `ε`. -/
def PanicM (σ ε α : Type) : Type := σ → Except ε (α × σ)

namespace PanicM

variable {σ ε α β : Type}

instance : Monad (PanicM σ ε) where
  pure a := fun s => .ok (a, s)
  bind x f := fun s =>
    match x s with
    | .ok (a, t) => f a t
    | .error e => .error e

/-- A value computed from the state. -/
def read (f : σ → α) : PanicM σ ε α := fun s => .ok (f s, s)

/-- A change of the state. -/
def update (f : σ → σ) : PanicM σ ε Unit := fun s => .ok ((), f s)

/-- A panic. -/
def fail (e : ε) : PanicM σ ε α := fun _ => .error e

variable {x : PanicM σ ε α} {f : α → PanicM σ ε β} {s t : σ} {a : α} {b : β} {e : ε}

@[simp] theorem pure_apply : (pure a : PanicM σ ε α) s = .ok (a, s) := rfl

@[simp] theorem read_apply (g : σ → α) : (read g : PanicM σ ε α) s = .ok (g s, s) := rfl

@[simp] theorem update_apply (g : σ → σ) : (update g : PanicM σ ε Unit) s = .ok ((), g s) := rfl

@[simp] theorem fail_apply : (fail e : PanicM σ ε α) s = .error e := rfl

@[simp] theorem pure_bind_apply : ((pure a : PanicM σ ε α) >>= f) s = f a s := rfl

@[simp] theorem read_bind_apply (g : σ → α) : ((read g : PanicM σ ε α) >>= f) s = f (g s) s := rfl

@[simp] theorem update_bind_apply (g : σ → σ) (k : Unit → PanicM σ ε β) :
    ((update g : PanicM σ ε Unit) >>= k) s = k () (g s) := rfl

@[simp] theorem fail_bind_apply : ((fail e : PanicM σ ε α) >>= f) s = .error e := rfl

theorem bind_of_ok (h : x s = .ok (a, t)) : (x >>= f) s = f a t := by
  show (match x s with | .ok (a, t) => f a t | .error e => .error e) = _
  rw [h]

theorem bind_of_error (h : x s = .error e) : (x >>= f) s = .error e := by
  show (match x s with | .ok (a, t) => f a t | .error e => .error e) = _
  rw [h]

/-- A sequence returns when both computations do. -/
theorem bind_eq_ok_iff {u : σ} :
    (x >>= f) s = .ok (b, u) ↔ ∃ a t, x s = .ok (a, t) ∧ f a t = .ok (b, u) := by
  cases h : x s with
  | ok r =>
    obtain ⟨a, t⟩ := r
    rw [bind_of_ok h]
    simp [and_assoc]
  | error e => rw [bind_of_error h]; simp

/-- A computation on a part of the state. -/
def zoom {τ : Type} (get : σ → τ) (put : σ → τ → σ) (x : PanicM τ ε α) : PanicM σ ε α := fun s =>
  match x (get s) with
  | .ok (a, t) => .ok (a, put s t)
  | .error e => .error e

/-! ### Total correctness -/

/-- The computation returns from `s`, with a result and a state that satisfy `Q`. -/
def Returns (x : PanicM σ ε α) (s : σ) (Q : α → σ → Prop) : Prop :=
  ∃ a t, x s = .ok (a, t) ∧ Q a t

variable {Q Q' : α → σ → Prop} {P : β → σ → Prop}

theorem returns_of_ok (h : x s = .ok (a, t)) (hQ : Q a t) : x.Returns s Q := ⟨a, t, h, hQ⟩

@[simp] theorem returns_pure : (pure a : PanicM σ ε α).Returns s Q ↔ Q a s := by
  simp [Returns, and_assoc]

@[simp] theorem returns_read_bind (g : σ → α) :
    ((read g : PanicM σ ε α) >>= f).Returns s P ↔ (f (g s)).Returns s P := Iff.rfl

@[simp] theorem returns_update_bind (g : σ → σ) (k : Unit → PanicM σ ε β) :
    ((update g : PanicM σ ε Unit) >>= k).Returns s P ↔ (k ()).Returns (g s) P := Iff.rfl

@[simp] theorem returns_update (g : σ → σ) {Q : Unit → σ → Prop} :
    (update g : PanicM σ ε Unit).Returns s Q ↔ Q () (g s) := by
  constructor
  · rintro ⟨_, _, h, hq⟩
    cases h
    exact hq
  · exact fun h => ⟨_, _, rfl, h⟩

theorem Returns.mono (h : x.Returns s Q) (hQ : ∀ a t, Q a t → Q' a t) : x.Returns s Q' := by
  obtain ⟨a, t, hx, hq⟩ := h
  exact ⟨a, t, hx, hQ a t hq⟩

theorem returns_bind_of_ok (h : x s = .ok (a, t)) :
    (x >>= f).Returns s P ↔ (f a).Returns t P := by
  rw [Returns, Returns, bind_of_ok h]

/-- The rule for a sequence. -/
theorem Returns.bind (hx : x.Returns s Q) (hf : ∀ a t, Q a t → (f a).Returns t P) :
    (x >>= f).Returns s P := by
  obtain ⟨a, t, hx, hq⟩ := hx
  obtain ⟨b, u, hfb, hp⟩ := hf a t hq
  exact ⟨b, u, by rw [bind_of_ok hx, hfb], hp⟩

/-! ### Computations that may panic -/

/-- The computation returns from `s` with a result and a state that satisfy `Q`, or it panics with
a panic that satisfies `E`. -/
def Ends (x : PanicM σ ε α) (s : σ) (E : ε → Prop) (Q : α → σ → Prop) : Prop :=
  match x s with
  | .ok (a, t) => Q a t
  | .error e => E e

variable {E : ε → Prop}

theorem ends_of_ok (h : x s = .ok (a, t)) : x.Ends s E Q ↔ Q a t := by
  rw [Ends, h]

@[simp] theorem ends_pure : (pure a : PanicM σ ε α).Ends s E Q ↔ Q a s := Iff.rfl

@[simp] theorem ends_fail : (fail e : PanicM σ ε α).Ends s E Q ↔ E e := Iff.rfl

@[simp] theorem ends_update_bind (g : σ → σ) (k : Unit → PanicM σ ε β) :
    ((update g : PanicM σ ε Unit) >>= k).Ends s E P ↔ (k ()).Ends (g s) E P := Iff.rfl

theorem Returns.ends (h : x.Returns s Q) : x.Ends s E Q := by
  obtain ⟨a, t, hx, hq⟩ := h
  exact (ends_of_ok hx).mpr hq

/-- A computation with no panic to end with returns. -/
theorem Ends.returns (h : x.Ends s E Q) (hE : ∀ e, ¬E e) : x.Returns s Q := by
  rw [Ends] at h
  cases hx : x s with
  | ok r =>
    rw [hx] at h
    exact ⟨r.1, r.2, hx, h⟩
  | error e =>
    rw [hx] at h
    exact absurd h (hE e)

theorem Ends.mono (h : x.Ends s E Q) (hQ : ∀ a t, Q a t → Q' a t) : x.Ends s E Q' := by
  rw [Ends] at h ⊢
  split <;> simp_all

/-- The rule for a sequence. -/
theorem Ends.bind (hx : x.Ends s E Q) (hf : ∀ a t, Q a t → (f a).Ends t E P) :
    (x >>= f).Ends s E P := by
  rw [Ends] at hx
  cases h : x s with
  | ok r =>
    rw [h] at hx
    rw [Ends, bind_of_ok h]
    exact hf r.1 r.2 hx
  | error e =>
    rw [h] at hx
    rw [Ends, bind_of_error h]
    exact hx

section Zoom

variable {τ : Type} {get : σ → τ} {put : σ → τ → σ} {y : PanicM τ ε α}

theorem zoom_eq_ok_iff :
    zoom get put y s = .ok (a, t) ↔ ∃ u, y (get s) = .ok (a, u) ∧ t = put s u := by
  rw [zoom]
  cases y (get s) with
  | ok r =>
    obtain ⟨b, u⟩ := r
    simp only [Except.ok.injEq, Prod.mk.injEq]
    exact ⟨fun h => ⟨u, ⟨h.1, rfl⟩, h.2.symm⟩, by rintro ⟨_, ⟨rfl, rfl⟩, rfl⟩; exact ⟨rfl, rfl⟩⟩
  | error e => simp

theorem zoom_eq_error_iff : zoom get put y s = .error e ↔ y (get s) = .error e := by
  rw [zoom]
  cases y (get s) <;> simp

theorem returns_zoom :
    (zoom get put y).Returns s Q ↔ y.Returns (get s) fun a u => Q a (put s u) := by
  constructor
  · rintro ⟨a, t, h, hq⟩
    obtain ⟨u, hu, rfl⟩ := zoom_eq_ok_iff.mp h
    exact ⟨a, u, hu, hq⟩
  · rintro ⟨a, u, h, hq⟩
    exact ⟨a, put s u, zoom_eq_ok_iff.mpr ⟨u, h, rfl⟩, hq⟩

end Zoom

end PanicM

end OsKernel
