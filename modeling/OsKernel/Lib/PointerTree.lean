import Mathlib.Data.List.Infix
import Mathlib.Data.Option.Basic

/-!
# Trees of pointers

A pointer structure gives every node a child, or none, at every index. `follow` is the node at
the end of a path from a root; a path lists its indices with the latest first, so that a path
is a suffix of the paths that continue it. A structure is a tree of depth `n` when no two paths
of at most `n` steps end at one node.

The rules are for a change of a single pointer. In a tree the node that holds it is reached by
one path only, so the change is seen by the paths that continue this one and by no others:
hanging a new node without children below an empty pointer adds one path (`follow_link`), and
a change of a pointer at the lowest level is seen by one path (`follow_write`).
-/

namespace OsKernel

variable {ν ι : Type*}

/-- The node at the end of a path, the latest index first. -/
def follow (child : ν → ι → Option ν) (root : ν) : List ι → Option ν
  | [] => some root
  | i :: p => (follow child root p).bind fun q => child q i

/-- No two paths of at most `n` steps end at one node. -/
def IsTree (child : ν → ι → Option ν) (root : ν) (n : ℕ) : Prop :=
  ∀ ⦃p p' q⦄, p.length ≤ n → p'.length ≤ n →
    follow child root p = some q → follow child root p' = some q → p = p'

/-- The nodes at the end of paths of at most `n` steps. -/
def NodeWithin (child : ν → ι → Option ν) (root : ν) (n : ℕ) (q : ν) : Prop :=
  ∃ p : List ι, p.length ≤ n ∧ follow child root p = some q

section Follow

variable {child child' : ν → ι → Option ν} {root q c : ν} {p x : List ι} {i : ι} {n : ℕ}

@[simp] theorem follow_nil : follow child root [] = some root := rfl

theorem follow_cons (h : follow child root p = some q) :
    follow child root (i :: p) = child q i := by
  rw [follow, h, Option.bind_some]

theorem nodeWithin_root : NodeWithin child root n root := ⟨[], Nat.zero_le _, rfl⟩

/-- A path that leads nowhere has no continuation. -/
theorem follow_eq_none_of_suffix (h : follow child root p = none) (hx : p <:+ x) :
    follow child root x = none := by
  obtain ⟨z, rfl⟩ := hx
  induction z with
  | nil => exact h
  | cons j z ih => rw [List.cons_append, follow, ih, Option.bind_none]

/-- **Frame rule.** A change of the pointer at the end of `i :: p` is not seen by the paths that
do not continue it. -/
theorem follow_congr
    (hagree : ∀ y a j, y.length < n → follow child root y = some a → j :: y ≠ i :: p →
      child' a j = child a j) (hx : x.length ≤ n) (hix : ¬i :: p <:+ x) :
    follow child' root x = follow child root x := by
  induction x with
  | nil => rfl
  | cons j y ih =>
    rw [List.length_cons] at hx
    have hy := ih (by omega) fun h => hix (h.trans (List.suffix_cons j y))
    rw [follow, follow, hy]
    cases hf : follow child root y with
    | none => rfl
    | some a =>
      refine hagree y a j (by omega) hf ?_
      intro heq
      exact hix (heq ▸ List.suffix_rfl)

/-- Pointers that agree at the nodes of a structure give the same structure. -/
theorem follow_of_agree
    (hagree : ∀ a j, NodeWithin child root n a → child' a j = child a j) (hx : x.length ≤ n) :
    follow child' root x = follow child root x := by
  induction x with
  | nil => rfl
  | cons j y ih =>
    rw [List.length_cons] at hx
    rw [follow, follow, ih (by omega)]
    cases hy : follow child root y with
    | none => rfl
    | some a => exact hagree a j ⟨y, by omega, hy⟩

/-- In a tree, pointers that agree but for the one at index `i` of the node at the end of `p`
agree along all paths but `i :: p`. -/
theorem IsTree.agree_of_ne (h : IsTree child root n) (hp : follow child root p = some q)
    (hpn : p.length ≤ n)
    (hagree : ∀ a j, NodeWithin child root n a → (a ≠ q ∨ j ≠ i) → child' a j = child a j) :
    ∀ y a j, y.length < n + 1 → follow child root y = some a → j :: y ≠ i :: p →
      child' a j = child a j := by
  intro y a j hy ha hne
  refine hagree a j ⟨y, by omega, ha⟩ ?_
  by_contra hcon
  push Not at hcon
  obtain ⟨rfl, rfl⟩ := hcon
  exact hne (by rw [h (by omega) hpn ha hp])

/-- **Rule for a new node** below an empty pointer: it adds the path to the new node. -/
theorem follow_link (h : IsTree child root n) (hp : follow child root p = some q)
    (hpn : p.length ≤ n) (hempty : child q i = none)
    (hagree : ∀ a j, NodeWithin child root n a → (a ≠ q ∨ j ≠ i) → child' a j = child a j)
    (hnew : child' q i = some c) (hleaf : ∀ j, child' c j = none) (hx : x.length ≤ n + 1) :
    follow child' root (i :: p) = some c ∧
      (x ≠ i :: p → follow child' root x = follow child root x) := by
  have hframe : ∀ {x : List ι}, x.length ≤ n + 1 → ¬i :: p <:+ x →
      follow child' root x = follow child root x := fun hx hix =>
    follow_congr (h.agree_of_ne hp hpn hagree) hx hix
  have hq : follow child' root p = some q := by
    rw [hframe (by omega) fun hs => absurd hs.length_le (by simp), hp]
  have hc : follow child' root (i :: p) = some c := by rw [follow_cons hq, hnew]
  refine ⟨hc, fun hne => ?_⟩
  by_cases hix : i :: p <:+ x
  · -- the paths that continue the empty pointer lead nowhere, before and after
    have hold : follow child root (i :: p) = none := by rw [follow_cons hp, hempty]
    obtain ⟨z, rfl⟩ := hix
    obtain rfl | ⟨z, j, rfl⟩ := z.eq_nil_or_concat
    · exact absurd rfl hne
    · have hdead : follow child' root (j :: i :: p) = none := by rw [follow_cons hc, hleaf]
      rw [follow_eq_none_of_suffix hold ⟨z ++ [j], by simp⟩,
        follow_eq_none_of_suffix hdead ⟨z, by simp⟩]
  · exact hframe hx hix

/-- A tree stays one when a new node is hung below an empty pointer. -/
theorem IsTree.link (h : IsTree child root n) (hp : follow child root p = some q)
    (hpn : p.length < n) (hempty : child q i = none)
    (hagree : ∀ a j, NodeWithin child root n a → (a ≠ q ∨ j ≠ i) → child' a j = child a j)
    (hnew : child' q i = some c) (hleaf : ∀ j, child' c j = none)
    (hfresh : ¬NodeWithin child root n c) : IsTree child' root n := by
  have hstep : ∀ {x : List ι}, x.length ≤ n →
      x = i :: p ∧ follow child' root x = some c ∨ follow child' root x = follow child root x := by
    intro x hx
    obtain ⟨hc, hother⟩ := follow_link (x := x) h hp (by omega) hempty hagree hnew hleaf (by omega)
    by_cases hxp : x = i :: p
    · exact .inl ⟨hxp, hxp ▸ hc⟩
    · exact .inr (hother hxp)
  intro x y a hx hy hxa hya
  rcases hstep hx with ⟨rfl, hxc⟩ | hx' <;> rcases hstep hy with ⟨rfl, hyc⟩ | hy'
  · rfl
  · rw [hxa, Option.some.injEq] at hxc
    exact absurd ⟨y, hy, by rw [← hy', hya, hxc]⟩ hfresh
  · rw [hya, Option.some.injEq] at hyc
    exact absurd ⟨x, hx, by rw [← hx', hxa, hyc]⟩ hfresh
  · exact h hx hy (hx' ▸ hxa) (hy' ▸ hya)

/-- **Rule for a pointer at the lowest level**: one path sees the change. -/
theorem follow_write (h : IsTree child root n) (hp : follow child root p = some q)
    (hpn : p.length = n)
    (hagree : ∀ a j, NodeWithin child root n a → (a ≠ q ∨ j ≠ i) → child' a j = child a j)
    (hx : x.length ≤ n + 1) (hne : x ≠ i :: p) :
    follow child' root x = follow child root x := by
  refine follow_congr (h.agree_of_ne hp (by omega) hagree) hx fun hix => hne ?_
  exact (hix.eq_of_length_le (by rw [List.length_cons]; omega)).symm

theorem IsTree.congr (h : IsTree child root n)
    (heq : ∀ x : List ι, x.length ≤ n → follow child' root x = follow child root x) :
    IsTree child' root n := fun x y _ hx hy hxa hya =>
  h hx hy (heq x hx ▸ hxa) (heq y hy ▸ hya)

theorem NodeWithin.congr
    (heq : ∀ x : List ι, x.length ≤ n → follow child' root x = follow child root x) :
    NodeWithin child' root n c ↔ NodeWithin child root n c :=
  exists_congr fun x => and_congr_right fun hx => by rw [heq x hx]

end Follow

end OsKernel
