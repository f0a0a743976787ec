import OsKernel.Lib.Interruptible

/-!
# Programs that ignore a part of the state

`p.Blind f`: the program neither reads nor writes what `f` changes. Such a program does the same
after the change as before it, and `f` can be moved past it.
-/

namespace OsKernel

namespace Prog

variable {σ ε α β : Type} {f : σ → σ} {p : Prog σ ε α} {k : α → Prog σ ε β} {s t : σ} {a : α}

/-- No step of the program depends on what `f` changes, nor touches it. -/
def Blind (f : σ → σ) : Prog σ ε α → Prop
  | .ret _ => True
  | .panic _ => True
  | .step change next => ∀ s, change (f s) = f (change s) ∧ next (f s) = next s ∧ (next s).Blind f

theorem blind_pure {a : α} : (pure a : Prog σ ε α).Blind f := trivial

theorem blind_panic {e : ε} : (Prog.panic e : Prog σ ε α).Blind f := trivial

theorem blind_read {g : σ → α} (h : ∀ s, g (f s) = g s) : (read g : Prog σ ε α).Blind f :=
  fun s => ⟨rfl, congrArg Prog.ret (h s), trivial⟩

theorem blind_update {g : σ → σ} (h : ∀ s, g (f s) = f (g s)) :
    (update g : Prog σ ε Unit).Blind f := fun s => ⟨h s, rfl, trivial⟩

theorem blind_ite {c : Prop} {_ : Decidable c} {q : Prog σ ε α} (hp : p.Blind f)
    (hq : q.Blind f) : (if c then p else q).Blind f := by
  by_cases h : c
  · rwa [if_pos h]
  · rwa [if_neg h]

theorem Blind.bind (hp : p.Blind f) (hk : ∀ a, (k a).Blind f) : (p >>= k).Blind f := by
  show (p.bind k).Blind f
  induction p with
  | ret a => exact hk a
  | panic e => exact trivial
  | step change next ih =>
    intro s
    obtain ⟨hchange, hnext, hrest⟩ := hp s
    exact ⟨hchange, congrArg (fun q => Prog.bind q k) hnext, ih s hrest⟩

/-- A blind program does the same after the change. -/
theorem Blind.run (hp : p.Blind f) (h : p.run s = .ok (a, t)) : p.run (f s) = .ok (a, f t) := by
  induction p generalizing s with
  | ret b =>
    cases h
    rfl
  | panic e => cases h
  | step change next ih =>
    obtain ⟨hchange, hnext, hrest⟩ := hp s
    show (next (f s)).run (change (f s)) = _
    rw [hnext, hchange]
    exact ih s hrest h

end Prog

end OsKernel
