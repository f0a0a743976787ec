import Mathlib.Data.List.Basic

/-!
# Reading a trace

A trace is a list, latest first, and what it says is a function of it. `LastAt P l mid a rest` finds
the last element of a trace with a property: `mid` came after it and `rest` before it. A function
that only such elements change has on the whole trace the value it had right after the last of them.
-/

namespace OsKernel

variable {α β : Type} {P : α → Prop} {l mid rest : List α} {a : α} {f : List α → β}

/-- The last element of `l` with `P` is `a`. -/
structure LastAt (P : α → Prop) (l mid : List α) (a : α) (rest : List α) : Prop where
  eq : l = mid ++ a :: rest
  here : P a
  after : ∀ x ∈ mid, ¬P x

theorem exists_lastAt (P : α → Prop) (l : List α) :
    (∀ x ∈ l, ¬P x) ∨ ∃ mid a rest, LastAt P l mid a rest := by
  induction l with
  | nil => exact .inl (by simp)
  | cons b l ih =>
    by_cases hb : P b
    · exact .inr ⟨[], b, l, rfl, hb, by simp⟩
    · rcases ih with hnone | ⟨mid, a, rest, h⟩
      · exact .inl (List.forall_mem_cons.mpr ⟨hb, hnone⟩)
      · exact .inr ⟨b :: mid, a, rest, by rw [h.eq, List.cons_append], h.here,
          List.forall_mem_cons.mpr ⟨hb, h.after⟩⟩

/-- What only elements with `P` change is as it was before elements without it. -/
theorem append_eq_of_stable (hf : ∀ b l, ¬P b → f (b :: l) = f l) (hmid : ∀ x ∈ mid, ¬P x) :
    f (mid ++ l) = f l := by
  induction mid with
  | nil => rfl
  | cons b mid ih =>
    rw [List.forall_mem_cons] at hmid
    exact (hf b _ hmid.1).trans (ih hmid.2)

theorem LastAt.eq_of_stable (h : LastAt P l mid a rest) (hf : ∀ b l, ¬P b → f (b :: l) = f l) :
    f l = f (a :: rest) := by
  rw [h.eq]
  exact append_eq_of_stable hf h.after

/-- A value the empty trace does not have was brought about by an element with `P`. -/
theorem exists_lastAt_of_ne (hf : ∀ b l, ¬P b → f (b :: l) = f l) (h : f l ≠ f []) :
    ∃ mid a rest, LastAt P l mid a rest ∧ f l = f (a :: rest) := by
  rcases exists_lastAt P l with hnone | ⟨mid, a, rest, hlast⟩
  · have heq : f (l ++ []) = f [] := append_eq_of_stable hf hnone
    rw [List.append_nil] at heq
    exact absurd heq h
  · exact ⟨mid, a, rest, hlast, hlast.eq_of_stable hf⟩

end OsKernel
