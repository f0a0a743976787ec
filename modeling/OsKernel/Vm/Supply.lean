import OsKernel.Vm.Tables

/-!
# The pages an operation needs

A call of `kalloc` fails if it is told to or if memory is used up. `Supply L s k` says of a state
that the next `k` calls will not. An operation that needs `k` pages takes them (`Took`), or there
was no supply of `k` pages when it began; so whether it succeeds is decided by the state it begins
in. Needs add up along a run.

What a walk needs depends on the tables there are already (`Owners.missing`). A user page table has
the tables over its lowest pages and over the two pages at the top (`Owners.Covers`): to give it
`n` pages from address 0 on takes `userPages n` pages.
-/

namespace OsKernel

variable {L : Layout} {s s' s'' : Vm} {o o' : Owners} {r n k k' : ℕ}

/-! ### Supply -/

/-- The next `k` calls of `kalloc` hand out a page. -/
structure Supply (L : Layout) (s : Vm) (k : ℕ) : Prop where
  told : ∀ j, j < k → s.fails j = false
  room : s.freemem + k * 4096 ≤ L.phystop

theorem Supply.mono (h : Supply L s k) (hle : k' ≤ k) : Supply L s k' where
  told j hj := h.told j (hj.trans_le hle)
  room := (Nat.add_le_add_left (Nat.mul_le_mul_right _ hle) _).trans h.room

/-- `k` calls of `kalloc` have handed out a page each, and none has failed. -/
structure Took (L : Layout) (k : ℕ) (s s' : Vm) : Prop where
  supply : Supply L s k
  freemem : s'.freemem = s.freemem + k * 4096
  fails : s'.fails = fun n => s.fails (n + k)

namespace Took

theorem refl (h : s.freemem ≤ L.phystop) : Took L 0 s s :=
  ⟨⟨fun _ hj => absurd hj (Nat.not_lt_zero _), by omega⟩, by omega, rfl⟩

/-- What is left after `k` pages. -/
theorem supply_iff (h : Took L k s s') : Supply L s' n ↔ Supply L s (k + n) := by
  constructor
  · rintro ⟨htold, hroom⟩
    refine ⟨fun j hj => ?_, by have := h.freemem; omega⟩
    by_cases hjk : j < k
    · exact h.supply.told j hjk
    · have hrest := htold (j - k) (by omega)
      simp only [h.fails] at hrest
      rwa [Nat.sub_add_cancel (by omega)] at hrest
  · rintro ⟨htold, hroom⟩
    refine ⟨fun j hj => ?_, by have := h.freemem; omega⟩
    rw [h.fails]
    exact htold (j + k) (by omega)

theorem trans (h : Took L k s s') (h' : Took L k' s' s'') : Took L (k + k') s s'' where
  supply := h.supply_iff.mp h'.supply
  freemem := by rw [h'.freemem, h.freemem]; omega
  fails := by
    funext n
    rw [h'.fails, h.fails]
    exact congrArg s.fails (by omega)

/-- The bump pointer and the calls to come are all that is looked at. -/
theorem congr (h : Took L k s s') (hmem : s''.freemem = s'.freemem)
    (hfails : s''.fails = s'.fails) : Took L k s s'' :=
  ⟨h.supply, hmem.trans h.freemem, hfails.trans h.fails⟩

end Took

/-! ### Tables -/

/-- The page table at `r` has a table of its own at level `l` for the pages that start with
`idx`. -/
def Owners.HasTable (o : Owners) (r l idx : ℕ) : Prop := ∃ q, o q = some (.table r l idx)

open Classical in
/-- The number of tables that a walk for the page `vpn` has to add. -/
noncomputable def Owners.missing (o : Owners) (r vpn : ℕ) : ℕ :=
  (if o.HasTable r 1 (vpn / 2 ^ 18) then 0 else 1) + if o.HasTable r 0 (vpn / 512) then 0 else 1

theorem Owners.missing_le (o : Owners) (r vpn : ℕ) : o.missing r vpn ≤ 2 := by
  rw [Owners.missing]
  split_ifs <;> omega

/-- A page that is no table takes another role that is none. -/
theorem Owners.hasTable_update {q l idx : ℕ} {x : Option Role}
    (ho : ∀ l idx, o q ≠ some (.table r l idx)) (hx : ∀ l idx, x ≠ some (.table r l idx)) :
    Owners.HasTable (Function.update o q x) r l idx ↔ o.HasTable r l idx := by
  constructor
  · rintro ⟨p, hp⟩
    rcases update_eq_some hp with ⟨-, hnew⟩ | ⟨-, hold⟩
    · exact absurd hnew (hx l idx)
    · exact ⟨p, hold⟩
  · rintro ⟨p, hp⟩
    refine ⟨p, ?_⟩
    rw [Function.update_of_ne, hp]
    rintro rfl
    exact ho l idx hp

open Classical in
/-- What is missing depends on the tables only. -/
theorem Owners.missing_congr {vpn : ℕ}
    (h : ∀ l idx, o'.HasTable r l idx ↔ o.HasTable r l idx) :
    o'.missing r vpn = o.missing r vpn :=
  congrArg₂ (· + ·) (if_congr (h _ _) rfl rfl) (if_congr (h _ _) rfl rfl)

/-- `o'` has the tables of `o` and the two over the page `vpn`. -/
structure Owners.Extends (o : Owners) (r vpn : ℕ) (o' : Owners) : Prop where
  one : ∀ idx, o'.HasTable r 1 idx ↔ o.HasTable r 1 idx ∨ idx = vpn / 2 ^ 18
  zero : ∀ idx, o'.HasTable r 0 idx ↔ o.HasTable r 0 idx ∨ idx = vpn / 512

/-- The page table at `r` has the tables over its first `n` pages and over the pages of the
trapframe and of the trampoline, which share theirs, and no others. -/
structure Owners.Covers (o : Owners) (r n : ℕ) : Prop where
  one : ∀ idx, o.HasTable r 1 idx ↔ idx * 2 ^ 18 < n ∨ idx = 255
  zero : ∀ idx, o.HasTable r 0 idx ↔ idx * 512 < n ∨ idx = 131071

/-- The pages that the first `n` pages of a user page table need, with the tables over them. -/
def userPages (n : ℕ) : ℕ := n + (n + 511) / 512 + (n + 262143) / 262144

theorem userPages_mono {m n : ℕ} (h : m ≤ n) : userPages m ≤ userPages n := by
  simp only [userPages]
  omega

theorem userPages_lt (n : ℕ) : userPages n < userPages (n + 1) := by
  simp only [userPages]
  omega

/-- The next page of the user and the tables it lacks. -/
theorem Owners.Covers.userPages_succ (h : o.Covers r n) (hn : n < 255 * 2 ^ 18) :
    userPages (n + 1) = userPages n + (1 + o.missing r n) := by
  have hone : o.HasTable r 1 (n / 2 ^ 18) ↔ n % 2 ^ 18 ≠ 0 := by
    rw [h.one]
    omega
  have hzero : o.HasTable r 0 (n / 512) ↔ n % 512 ≠ 0 := by
    rw [h.zero]
    omega
  simp only [Owners.missing, hone, hzero, userPages]
  split_ifs <;> omega

/-- The page `n` has been mapped, with the tables over it. -/
theorem Owners.Covers.succ (h : o.Covers r n) (hx : o.Extends r n o') : o'.Covers r (n + 1) where
  one idx := by
    rw [hx.one, h.one]
    omega
  zero idx := by
    rw [hx.zero, h.zero]
    omega

end OsKernel
