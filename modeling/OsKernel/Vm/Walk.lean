import OsKernel.Vm.Supply

/-!
# `kalloc`, `walk` and what they leave alone

`VmInv L s o` is the invariant of `vm.c`: the page tables are in order, and a page has a role
exactly when `kalloc` has handed it out and `kfree` has not been called on it. So no page
with a role was freed, every other page handed out was freed, and it was freed once.

`Frame L T s o s' o'` says what an operation keeps: all roles outside `T`, the contents of the
pages with those roles, and the kernel image. The rules for `kalloc` and `walk` are stated
with it; `Grow` is the frame of an operation that at most adds empty tables.
-/

namespace OsKernel

variable {L : Layout}

/-- **The invariant of the page allocator and the page tables.** -/
structure VmInv (L : Layout) (s : Vm) (o : Owners) : Prop where
  tables : Tables s.mem o
  aligned : 4096 ∣ s.freemem
  heap_le : L.heap ≤ s.freemem
  le_phystop : s.freemem ≤ L.phystop
  owned : ∀ q, (∃ ρ, o q = some ρ) ↔
    4096 ∣ q ∧ L.heap ≤ q ∧ q < s.freemem ∧ q ∉ s.freed
  freed : ∀ q ∈ s.freed, 4096 ∣ q ∧ L.heap ≤ q ∧ q < s.freemem
  nodup : s.freed.Nodup

/-- The reasons a call of `kalloc` up to the state `s'` can have had to fail: it was told to,
or memory is used up. -/
def Starved (L : Layout) (s s' : Vm) : Prop :=
  (∃ n, s.fails n = true) ∨ L.phystop < s'.freemem + 4096

/-- The next `n` calls of `kalloc` succeed. -/
def Roomy (L : Layout) (s : Vm) (n : ℕ) : Prop :=
  (∀ k, s.fails k = false) ∧ s.freemem + n * 4096 ≤ L.phystop

theorem Roomy.supply {s : Vm} {n : ℕ} (h : Roomy L s n) : Supply L s n :=
  ⟨fun j _ => h.1 j, h.2⟩

theorem Roomy.not_starved {s s' : Vm} {n : ℕ} (h : Roomy L s n)
    (hle : s'.freemem + 4096 ≤ s.freemem + n * 4096) : ¬Starved L s s' := by
  rintro (⟨k, hk⟩ | hs)
  · rw [h.1 k] at hk
    cases hk
  · have := h.2
    omega

/-- What an operation on roles in `T` keeps. -/
structure Frame (L : Layout) (T : Role → Prop) (s : Vm) (o : Owners) (s' : Vm) (o' : Owners) :
    Prop where
  role : ∀ q ρ, o q = some ρ → ¬T ρ → o' q = some ρ
  origin : ∀ q ρ, o' q = some ρ → T ρ ∨ o q = some ρ
  page : ∀ q ρ, o q = some ρ → ¬T ρ → Mem.AgreeOn s.mem s'.mem q 4096
  image : ∀ a, a < L.heap → s'.mem a = s.mem a
  mono : s.freemem ≤ s'.freemem
  fails : ∀ n, s'.fails n = true → ∃ k, s.fails k = true

namespace Frame

variable {T T' : Role → Prop} {s s' s'' : Vm} {o o' o'' : Owners} {q r : ℕ} {ρ : Role}

theorem refl (s : Vm) (o : Owners) : Frame L T s o s o where
  role _ _ h _ := h
  origin _ _ h := .inr h
  page _ _ _ _ := Mem.AgreeOn.refl _ _ _
  image _ _ := rfl
  mono := le_rfl
  fails n h := ⟨n, h⟩

theorem trans (h : Frame L T s o s' o') (h' : Frame L T s' o' s'' o'') :
    Frame L T s o s'' o'' where
  role q ρ hq hT := h'.role q ρ (h.role q ρ hq hT) hT
  origin q ρ hq := by
    rcases h'.origin q ρ hq with hT | hq
    · exact .inl hT
    · exact h.origin q ρ hq
  page q ρ hq hT := (h.page q ρ hq hT).trans (h'.page q ρ (h.role q ρ hq hT) hT)
  image a ha := (h'.image a ha).trans (h.image a ha)
  mono := h.mono.trans h'.mono
  fails n hn := by
    obtain ⟨k, hk⟩ := h'.fails n hn
    exact h.fails k hk

theorem widen (h : Frame L T s o s' o') (hT : ∀ ρ, T ρ → T' ρ) : Frame L T' s o s' o' where
  role q ρ hq hn := h.role q ρ hq fun ht => hn (hT ρ ht)
  origin q ρ hq := (h.origin q ρ hq).imp_left (hT ρ)
  page q ρ hq hn := h.page q ρ hq fun ht => hn (hT ρ ht)
  image := h.image
  mono := h.mono
  fails := h.fails

/-- Outside `T` the roles are the same before and after. -/
theorem role_iff (h : Frame L T s o s' o') (hT : ¬T ρ) : o' q = some ρ ↔ o q = some ρ :=
  ⟨fun hq => (h.origin q ρ hq).resolve_left hT, fun hq => h.role q ρ hq hT⟩

theorem starved (h : Frame L T s o s' o') (hs : Starved L s' s'') : Starved L s s'' := by
  rcases hs with ⟨n, hn⟩ | hs
  · exact .inl (h.fails n hn)
  · exact .inr hs

/-- The page table of another root means what it did. -/
theorem entry_eq (h : Frame L T s o s' o') (ht : Tables s.mem o) (ht' : Tables s'.mem o')
    (hr : o r = some (.table r 2 0)) (hT : ∀ l idx, ¬T (.table r l idx)) {vpn : ℕ}
    (hv : vpn < 2 ^ 27) : s'.mem.entry r vpn = s.mem.entry r vpn :=
  ht.entry_congr ht' hr (fun _ l idx => h.role_iff (hT l idx))
    (fun q idx hq => h.page q _ hq (hT 0 idx)) hv

end Frame

/-! ### `kalloc` and `kfree` -/

section Alloc

variable {s : Vm} {o : Owners} {q : ℕ} {ρ : Role}

theorem VmInv.lt_phystop (h : VmInv L s o) (hq : o q = some ρ) : q < L.phystop := by
  have := ((h.owned q).mp ⟨ρ, hq⟩).2.2.1
  have := h.le_phystop
  omega

theorem VmInv.heap_le_page (h : VmInv L s o) (hq : o q = some ρ) : L.heap ≤ q :=
  ((h.owned q).mp ⟨ρ, hq⟩).2.1

theorem VmInv.not_mem_freed (h : VmInv L s o) (hq : o q = some ρ) : q ∉ s.freed :=
  ((h.owned q).mp ⟨ρ, hq⟩).2.2.2

/-- The bump pointer is a page nothing owns. -/
theorem VmInv.freemem_none (h : VmInv L s o) {q : ℕ} (hq : s.freemem ≤ q) : o q = none := by
  cases hρ : o q with
  | none => rfl
  | some ρ =>
    have := ((h.owned q).mp ⟨ρ, hρ⟩).2.2.1
    omega

theorem VmInv.ne_freemem (h : VmInv L s o) (hq : o q = some ρ) : q ≠ s.freemem := by
  rintro rfl
  rw [h.freemem_none le_rfl] at hq
  cases hq

/-- Memory in which a page was cleared. -/
theorem Mem.pte_memset {m : Mem} {p j : ℕ} (hj : j < 512) : (m.memset p 0 4096).pte p j = 0 := by
  refine Mem.load64_eq_zero fun i hi => ?_
  rw [Mem.memset_apply, if_pos (by omega)]

theorem Mem.agreeOn_memset {m : Mem} {p q : ℕ} (hp : 4096 ∣ p) (hq : 4096 ∣ q) (hne : p ≠ q)
    (c : UInt8) : Mem.AgreeOn m (m.memset p c 4096) q 4096 := fun i hi => by
  have := page_disjoint hp hq hne
  rw [Mem.memset_apply, if_neg (by omega)]

/-- The state after a call of `kalloc` that fails. -/
def Vm.deny (s : Vm) : Vm := { s with fails := fun n => s.fails (n + 1) }

/-- The state after a call of `kalloc` that hands out the page at the bump pointer. -/
def Vm.grant (s : Vm) : Vm :=
  { s with
    mem := s.mem.memset s.freemem 0 4096
    freemem := s.freemem + 4096
    fails := fun n => s.fails (n + 1) }

theorem Vm.grant_mem (s : Vm) : s.grant.mem = s.mem.memset s.freemem 0 4096 := rfl

/-- A call of `kalloc` that hands out a page takes one. -/
theorem Took.grant (h : Supply L s 1) : Took L 1 s s.grant :=
  ⟨h, by rw [Nat.one_mul]; rfl, rfl⟩

/-- What `kalloc` does. -/
theorem kalloc_cases (L : Layout) (s : Vm) :
    Vm.kalloc L s = .ok (0, s.deny) ∧
        (s.fails 0 = true ∨ s.freemem = 0 ∨ L.phystop < s.freemem + 4096) ∨
      Vm.kalloc L s = .ok (s.freemem, s.grant) ∧ s.freemem ≠ 0 ∧
        s.freemem + 4096 ≤ L.phystop ∧ s.fails 0 = false := by
  by_cases hc : s.fails 0 = true ∨ s.freemem = 0 ∨ L.phystop < s.freemem + 4096
  · refine .inl ⟨?_, hc⟩
    simp [Vm.kalloc, pgsize, hc, Vm.deny]
  · refine .inr ⟨?_, ?_⟩
    · simp [Vm.kalloc, pgsize, hc, Vm.memset, Vm.grant]
    · simp only [not_or, not_lt, Bool.not_eq_true] at hc
      exact ⟨hc.2.1, hc.2.2, hc.1⟩

theorem VmInv.freemem_pos (h : VmInv L s o) : 0 < s.freemem := by
  have := h.heap_le
  have := L.lt_heap
  omega

/-- A call of `kalloc` under the invariant hands out a page exactly if there is a supply of one. -/
theorem VmInv.kalloc (h : VmInv L s o) :
    Vm.kalloc L s = .ok (0, s.deny) ∧ ¬Supply L s 1 ∨
      Vm.kalloc L s = .ok (s.freemem, s.grant) ∧ s.freemem ≠ 0 ∧ Supply L s 1 := by
  have := h.freemem_pos
  rcases kalloc_cases L s with ⟨hk, hwhy⟩ | ⟨hk, hpos, hroom, htold⟩
  · refine .inl ⟨hk, fun hs => ?_⟩
    have := hs.room
    rw [hs.told 0 Nat.one_pos] at hwhy
    simp only [Bool.false_eq_true, false_or] at hwhy
    omega
  · refine .inr ⟨hk, hpos, fun j hj => ?_, by omega⟩
    rwa [Nat.lt_one_iff.mp hj]

/-- A failed call of `kalloc` was told to fail, or memory is used up. -/
theorem Starved.of_supply (h : ¬Supply L s 1) : Starved L s s.deny := by
  by_contra hno
  rw [Starved, not_or, not_exists] at hno
  refine h ⟨fun j _ => by simpa using hno.1 j, ?_⟩
  have hroom : ¬L.phystop < s.freemem + 4096 := hno.2
  omega

/-- The invariant looks at the owned pages, the bump pointer and the log of freed pages. -/
theorem VmInv.of_tables (h : VmInv L s o) {s' : Vm} {o' : Owners} (ht : Tables s'.mem o')
    (hmem : s'.freemem = s.freemem) (hfreed : s'.freed = s.freed)
    (hdom : ∀ q, (∃ ρ, o' q = some ρ) ↔ ∃ ρ, o q = some ρ) : VmInv L s' o' where
  tables := ht
  aligned := hmem ▸ h.aligned
  heap_le := hmem ▸ h.heap_le
  le_phystop := hmem ▸ h.le_phystop
  owned q := by rw [hdom, hmem, hfreed]; exact h.owned q
  freed := by rw [hmem, hfreed]; exact h.freed
  nodup := hfreed ▸ h.nodup

theorem VmInv.deny (h : VmInv L s o) : VmInv L s.deny o :=
  h.of_tables h.tables rfl rfl fun _ => Iff.rfl

/-- A failed call of `kalloc` only moves on in the failure stream. -/
theorem Frame.deny {T : Role → Prop} (s : Vm) (o : Owners) : Frame L T s o s.deny o where
  role _ _ h _ := h
  origin _ _ h := .inr h
  page _ _ _ _ := Mem.AgreeOn.refl _ _ _
  image _ _ := rfl
  mono := le_rfl
  fails n hn := ⟨n + 1, hn⟩

/-- The page handed out is loose. -/
theorem VmInv.grant (h : VmInv L s o) (hroom : s.freemem + 4096 ≤ L.phystop) :
    VmInv L s.grant (Function.update o s.freemem (some .loose)) := by
  have hnone := h.freemem_none (q := s.freemem) le_rfl
  have hpos := h.freemem_pos
  have hphys := L.phystop_le
  have haligned := h.aligned
  have hheap := h.heap_le
  constructor
  case tables =>
    refine h.tables.congr ?_ ?_ ?_ ?_
    · intro q ρ hq
      rcases update_eq_some hq with ⟨rfl, -⟩ | ⟨-, hq⟩
      · exact ⟨haligned, hpos, by omega⟩
      · exact h.tables.page hq
    · intro q r l idx
      by_cases hq : q = s.freemem
      · simp [hq, hnone]
      · rw [Function.update_of_ne hq]
    · intro q r vpn
      by_cases hq : q = s.freemem
      · simp [hq, hnone]
      · rw [Function.update_of_ne hq]
    · intro q r l idx hq
      refine Mem.agreeOn_memset haligned (h.tables.page hq).1 ?_ 0
      rintro rfl
      simp [hnone] at hq
  case aligned => exact Nat.dvd_add haligned (by decide)
  case heap_le => exact hheap.trans (Nat.le_add_right _ _)
  case le_phystop => exact hroom
  case owned =>
    intro q
    by_cases hq : q = s.freemem
    · subst hq
      have hfresh : s.freemem ∉ s.freed := fun hmem => (h.freed _ hmem).2.2.ne rfl
      simp [Vm.grant, haligned, hheap, hfresh]
    · rw [Function.update_of_ne hq, h.owned q]
      simp only [Vm.grant]
      constructor
      · rintro ⟨hd, hle, hlt, hfr⟩
        exact ⟨hd, hle, by omega, hfr⟩
      · rintro ⟨hd, hle, hlt, hfr⟩
        exact ⟨hd, hle, by omega, hfr⟩
  case freed =>
    intro q hq
    obtain ⟨hd, hle, hlt⟩ := h.freed q hq
    exact ⟨hd, hle, hlt.trans (Nat.lt_add_of_pos_right (by decide))⟩
  case nodup => exact h.nodup

/-- The roles that no page table gives. -/
def Role.Plain : Role → Prop
  | .loose | .trapframe _ | .kstack _ => True
  | .table _ _ _ | .user _ _ => False

/-- Replacing such a role does not concern the page tables. -/
theorem Tables.rerole {m : Mem} (h : Tables m o) (hq : o q = some ρ) (hρ : ρ.Plain)
    {x : Option Role} (hx : ∀ ρ', x = some ρ' → ρ'.Plain) : Tables m (Function.update o q x) := by
  refine h.congr ?_ (fun p r l idx => ?_) (fun p r vpn => ?_) fun _ _ _ _ _ => .refl _ _ _
  · intro p ρ' hp
    rcases update_eq_some hp with ⟨rfl, -⟩ | ⟨-, hp⟩
    · exact h.page hq
    · exact h.page hp
  all_goals
    by_cases hpq : p = q
    · subst hpq
      rw [Function.update_self, hq]
      constructor
      · exact fun hx' => (hx _ hx').elim
      · rintro ⟨⟩
        exact hρ.elim
    · rw [Function.update_of_ne hpq]

theorem VmInv.rerole (h : VmInv L s o) (hq : o q = some ρ) (hρ : ρ.Plain) {τ : Role}
    (hτ : τ.Plain) : VmInv L s (Function.update o q (some τ)) := by
  refine h.of_tables (h.tables.rerole hq hρ fun _ hx => ?_) rfl rfl fun p => ?_
  · rw [Option.some.injEq] at hx
    exact hx ▸ hτ
  · by_cases hpq : p = q
    · subst hpq
      simp [hq]
    · rw [Function.update_of_ne hpq]

/-- `kfree` of an owned page takes its role away; the tables have to do without it. -/
theorem VmInv.kfree (h : VmInv L s o) {s' : Vm} (hq : o q = some ρ)
    (ht : Tables s'.mem (Function.update o q none)) (hmem : s'.freemem = s.freemem)
    (hfreed : s'.freed = q :: s.freed) : VmInv L s' (Function.update o q none) where
  tables := ht
  aligned := hmem ▸ h.aligned
  heap_le := hmem ▸ h.heap_le
  le_phystop := hmem ▸ h.le_phystop
  owned p := by
    rw [hmem, hfreed, List.mem_cons]
    by_cases hp : p = q
    · simp [hp]
    · rw [Function.update_of_ne hp, h.owned p]
      simp only [hp, false_or]
  freed p hp := by
    rw [hfreed, List.mem_cons] at hp
    rw [hmem]
    rcases hp with rfl | hp
    · have := (h.owned p).mp ⟨ρ, hq⟩
      exact ⟨this.1, this.2.1, this.2.2.1⟩
    · exact h.freed p hp
  nodup := by
    rw [hfreed, List.nodup_cons]
    exact ⟨h.not_mem_freed hq, h.nodup⟩

theorem VmInv.kfree_plain (h : VmInv L s o) (hq : o q = some ρ) (hρ : ρ.Plain) :
    VmInv L { s with freed := q :: s.freed } (Function.update o q none) :=
  h.kfree hq (h.tables.rerole hq hρ fun _ hx => by cases hx) rfl rfl

/-- The frame of a change to the role and the contents of one page, and to the contents of
pages with roles in `T`. -/
theorem Frame.update {T : Role → Prop} {s' : Vm} {p : ℕ} {x : Option Role}
    (hp : ∀ ρ, o p = some ρ → T ρ) (hx : ∀ ρ, x = some ρ → T ρ)
    (hmem : ∀ q ρ, o q = some ρ → ¬T ρ → Mem.AgreeOn s.mem s'.mem q 4096)
    (himage : ∀ a, a < L.heap → s'.mem a = s.mem a) (hmono : s.freemem ≤ s'.freemem)
    (hfails : ∀ n, s'.fails n = true → ∃ k, s.fails k = true) :
    Frame L T s o s' (Function.update o p x) where
  role q ρ hq hT := by
    rw [Function.update_of_ne, hq]
    rintro rfl
    exact hT (hp ρ hq)
  origin q ρ hq := by
    rcases update_eq_some hq with ⟨-, rfl⟩ | ⟨-, hq⟩
    · exact .inl (hx ρ rfl)
    · exact .inr hq
  page := hmem
  image := himage
  mono := hmono
  fails := hfails

end Alloc

/-! ### `walk` -/

theorem px_two {va : ℕ} (hva : va < 2 ^ 38) : px 2 va = va / 4096 / 2 ^ 18 := by
  rw [px_eq]
  norm_num
  omega

theorem px_one (va : ℕ) : px 1 va = va / 4096 / 512 % 512 := by
  rw [px_eq]
  norm_num
  omega

theorem px_zero (va : ℕ) : px 0 va = va / 4096 % 512 := px_eq 0 va

/-- The roles of the tables of the page table at `r`. -/
def Role.TableOf (r : ℕ) : Role → Prop
  | .table r' _ _ => r' = r
  | _ => False

theorem Role.TableOf.under {r : ℕ} {ρ : Role} (h : ρ.TableOf r) : ρ.Under r := by
  cases ρ <;> first | exact h | exact h.elim

/-- The roles of the tables a walk for the virtual page `vpn` can add. -/
def Role.Over (r vpn : ℕ) (ρ : Role) : Prop :=
  ρ = .table r 1 (vpn / 2 ^ 18) ∨ ρ = .table r 0 (vpn / 512)

/-- Every page with a role in `o'` has it in `o`, or has a role in `T`. -/
def Owners.Adds (T : Role → Prop) (o o' : Owners) : Prop :=
  ∀ q ρ, o' q = some ρ → o q = some ρ ∨ T ρ

theorem Owners.Adds.trans {T : Role → Prop} {o o' o'' : Owners} (h : o.Adds T o')
    (h' : o'.Adds T o'') : o.Adds T o'' := fun q ρ hq => by
  rcases h' q ρ hq with hq | hT
  · exact h q ρ hq
  · exact .inr hT

theorem Owners.Adds.mono {T T' : Role → Prop} {o o' : Owners} (h : o.Adds T o')
    (hT : ∀ ρ, T ρ → T' ρ) : o.Adds T' o' := fun q ρ hq => (h q ρ hq).imp_right (hT ρ)

/-- No page has some role in `T`. -/
def Owners.Lacks (T : Role → Prop) (o : Owners) : Prop := ∃ ρ, T ρ ∧ ∀ q, o q ≠ some ρ

theorem Owners.Lacks.mono {T T' : Role → Prop} {o : Owners} (h : o.Lacks T)
    (hT : ∀ ρ, T ρ → T' ρ) : o.Lacks T' := h.imp fun ρ hρ => ⟨hT ρ hρ.1, hρ.2⟩

/-- An operation that at most adds empty tables with roles in `T` to the page table at `r`. -/
structure Grow (L : Layout) (r : ℕ) (T : Role → Prop) (s : Vm) (o : Owners) (s' : Vm)
    (o' : Owners) : Prop where
  inv : VmInv L s' o'
  frame : Frame L (Role.TableOf r) s o s' o'
  adds : o.Adds T o'
  keep : ∀ q l idx, o q = some (.table r l idx) → o' q = some (.table r l idx)
  freed : s'.freed = s.freed
  entry : ∀ vpn, vpn < 2 ^ 27 → s'.mem.entry r vpn = s.mem.entry r vpn

section Walk

variable {s s' s'' : Vm} {o o' o'' : Owners} {q r l idx va c level : ℕ} {T T' : Role → Prop}

theorem Grow.refl (h : VmInv L s o) : Grow L r T s o s o :=
  ⟨h, .refl s o, fun _ _ => .inl, fun _ _ _ h => h, rfl, fun _ _ => rfl⟩

theorem Grow.mono (h : Grow L r T s o s' o') (hT : ∀ ρ, T ρ → T' ρ) : Grow L r T' s o s' o' :=
  ⟨h.inv, h.frame, h.adds.mono hT, h.keep, h.freed, h.entry⟩

theorem Grow.trans (h : Grow L r T s o s' o') (h' : Grow L r T s' o' s'' o'') :
    Grow L r T s o s'' o'' where
  inv := h'.inv
  frame := h.frame.trans h'.frame
  adds := h.adds.trans h'.adds
  keep q l idx hq := h'.keep q l idx (h.keep q l idx hq)
  freed := h'.freed.trans h.freed
  entry vpn hv := (h'.entry vpn hv).trans (h.entry vpn hv)

/-- Adding an empty table does not change what a page table means. -/
theorem Tables.entry_eq_of_empty {m m' : Mem} (h : Tables m o) (h' : Tables m' o')
    (hr : o r = some (.table r 2 0)) (hr' : o' r = some (.table r 2 0))
    (hold : ∀ t idx, o t = some (.table r 0 idx) →
      o' t = some (.table r 0 idx) ∧ Mem.AgreeOn m m' t 4096)
    (hnew : ∀ t idx, o' t = some (.table r 0 idx) →
      o t = some (.table r 0 idx) ∨ ∀ j, j < 512 → m'.pte t j = 0)
    {vpn : ℕ} (hv : vpn < 2 ^ 27) : m'.entry r vpn = m.entry r vpn := by
  by_cases hex : ∃ t, o t = some (.table r 0 (vpn / 512))
  · obtain ⟨t, ht⟩ := hex
    obtain ⟨ht', hagree⟩ := hold t _ ht
    rw [h.entry_of_table ht, h'.entry_of_table ht', hagree.pte_eq (by omega)]
  · rw [h.entry_of_no_table hr hv fun t ht => hex ⟨t, ht⟩]
    by_cases hex' : ∃ t, o' t = some (.table r 0 (vpn / 512))
    · obtain ⟨t, ht'⟩ := hex'
      rw [h'.entry_of_table ht']
      rcases hnew t _ ht' with ht | hzero
      · exact absurd ⟨t, ht⟩ hex
      · exact hzero _ (by omega)
    · exact h'.entry_of_no_table hr' hv fun t ht => hex' ⟨t, ht⟩

/-- One level of a walk that does not allocate. -/
theorem walkLevel_false (level va : ℕ) (h : Tables s.mem o)
    (hq : o q = some (.table r (l + 1) idx)) :
    Vm.walkLevel L false q level va s = .ok (none, s) ∧ s.mem.pte q (px level va) = 0 ∨
      ∃ c, o c = some (.table r l (512 * idx + px level va)) ∧
        Vm.walkLevel L false q level va s = .ok (some c, s) := by
  rcases h.down hq (px_lt level va) with he | ⟨c, hc, he⟩
  · refine .inl ⟨?_, he⟩
    rw [Mem.pte] at he
    simp [Vm.walkLevel, Vm.load, he]
  · refine .inr ⟨c, hc, ?_⟩
    obtain ⟨hd, -, hlt⟩ := h.page hc
    rw [Mem.pte] at he
    simp [Vm.walkLevel, Vm.load, he, tableEntry_valid, pte2pa_tableEntry hd hlt]

/-- The state in which a new table hangs from an empty entry of the table in page `q`. -/
theorem Grow.link (h : VmInv L s o) (hq : o q = some (.table r (l + 1) idx)) {i : ℕ}
    (hi : i < 512) (hempty : s.mem.pte q i = 0) (hroom : s.freemem + 4096 ≤ L.phystop)
    (hmem : s'.mem =
      (s.grant.mem.memset s.freemem 0 4096).store64 (q + 8 * i) (tableEntry s.freemem))
    (hfreemem : s'.freemem = s.grant.freemem) (hfreed : s'.freed = s.freed)
    (hfails : s'.fails = s.grant.fails) :
    Grow L r (· = .table r l (512 * idx + i)) s o s'
      (Function.update o s.freemem (some (.table r l (512 * idx + i)))) := by
  have hnone := h.freemem_none (q := s.freemem) le_rfl
  have hne : ∀ {p ρ}, o p = some ρ → p ≠ s.freemem := h.ne_freemem
  have hagree : ∀ {p ρ}, o p = some ρ →
      Mem.AgreeOn s.mem (s.grant.mem.memset s.freemem 0 4096) p 4096 := fun hp =>
    (Mem.agreeOn_memset h.aligned (h.tables.page hp).1 (hne hp).symm 0).trans
      (Mem.agreeOn_memset h.aligned (h.tables.page hp).1 (hne hp).symm 0)
  have hgrant := h.grant hroom
  have hq' : Function.update o s.freemem (some .loose) q = some (.table r (l + 1) idx) := by
    rw [Function.update_of_ne (hne hq), hq]
  -- the new page is cleared while it is loose, and linked then
  have htables : Tables s'.mem (Function.update o s.freemem
      (some (.table r l (512 * idx + i)))) := by
    have hclear : Tables (s.grant.mem.memset s.freemem 0 4096)
        (Function.update o s.freemem (some .loose)) := by
      refine hgrant.tables.congr hgrant.tables.page (fun _ _ _ _ => Iff.rfl)
        (fun _ _ _ => Iff.rfl) fun p r' l' idx' hp => ?_
      refine Mem.agreeOn_memset h.aligned (hgrant.tables.page hp).1 ?_ 0
      rintro rfl
      simp at hp
    have hlink := hclear.link hq' hi ?_ (Function.update_self ..) fun j hj => Mem.pte_memset hj
    · rw [Function.update_idem] at hlink
      rw [hmem]
      exact hlink
    · rw [(hagree hq).pte_eq hi, hempty]
  have hpages : ∀ p ρ, o p = some ρ → p ≠ q → Mem.AgreeOn s.mem s'.mem p 4096 := by
    intro p ρ hp hpq
    rw [hmem]
    exact (hagree hp).trans
      (Mem.agreeOn_store64_page (h.tables.page hq).1 (h.tables.page hp).1 hi hpq)
  have hroot := h.tables.rootTable hq
  constructor
  case inv =>
    refine hgrant.of_tables htables hfreemem hfreed fun p => ?_
    by_cases hp : p = s.freemem
    · simp [hp]
    · rw [Function.update_of_ne hp, Function.update_of_ne hp]
  case frame =>
    refine Frame.update (by simp [hnone]) ?_ ?_ ?_ (hfreemem ▸ Nat.le_add_right _ _) ?_
    · rintro ρ ⟨⟩
      rfl
    · intro p ρ hp hT
      refine hpages p ρ hp ?_
      rintro rfl
      rw [hq] at hp
      cases hp
      exact hT rfl
    · intro a ha
      have := h.heap_le
      have := h.heap_le_page hq
      rw [hmem, Mem.store64, Mem.writeBytes_of_lt (by omega), Mem.memset_apply,
        if_neg (by omega), Vm.grant_mem, Mem.memset_apply, if_neg (by omega)]
    · intro n hn
      rw [hfails] at hn
      exact ⟨n + 1, hn⟩
  case adds =>
    intro p ρ hp
    rcases update_eq_some hp with ⟨-, hρ⟩ | ⟨-, hp⟩
    · exact .inr (Option.some.inj hρ).symm
    · exact .inl hp
  case keep =>
    intro p l' idx' hp
    rw [Function.update_of_ne (hne hp), hp]
  case freed => exact hfreed
  case entry =>
    -- the new table is empty, so there is nothing in it that was not there before
    intro vpn hv
    refine h.tables.entry_eq_of_empty htables hroot
      (by rw [Function.update_of_ne (hne hroot), hroot]) ?_ ?_ hv
    · intro t idx' ht
      refine ⟨by rw [Function.update_of_ne (hne ht), ht], hpages t _ ht ?_⟩
      rintro rfl
      rw [hq] at ht
      cases ht
    · intro t idx' ht
      rcases update_eq_some ht with ⟨rfl, -⟩ | ⟨-, ht⟩
      · refine .inr fun j hj => ?_
        rw [hmem, Mem.pte_store64 (h.tables.page hq).1 h.aligned hi hj
          (tableEntry_lt (by have := L.phystop_le; omega)), if_neg fun hpj => hne hq hpj.1.symm,
          Mem.pte_memset hj]
      · exact .inl ht

open Classical in
/-- One level of a walk that allocates. -/
theorem walkLevel_true (h : VmInv L s o) (hq : o q = some (.table r (l + 1) idx)) :
    (Vm.walkLevel L true q level va).Returns s fun c s' =>
      ∃ o', Grow L r (· = .table r l (512 * idx + px level va)) s o s' o' ∧
        (c = none ∧ Starved L s s' ∧ o'.Lacks (· = .table r l (512 * idx + px level va)) ∧
            ¬o.HasTable r l (512 * idx + px level va) ∧ ¬Supply L s 1 ∨
          ∃ t, c = some t ∧ o' t = some (.table r l (512 * idx + px level va)) ∧
            Took L (if o.HasTable r l (512 * idx + px level va) then 0 else 1) s s') := by
  rcases h.tables.down hq (px_lt level va) with he | ⟨c, hc, he⟩
  · have hload : s.mem.load64 (q + 8 * px level va) = 0 := he
    have hno : ∀ c, o c ≠ some (.table r l (512 * idx + px level va)) := fun c =>
      h.tables.no_table_of_empty hq (px_lt level va) he
    have hlacks : ¬o.HasTable r l (512 * idx + px level va) := not_exists.mpr hno
    rcases h.kalloc with ⟨hk, hs⟩ | ⟨hk, hpos, hs⟩
    · refine PanicM.returns_of_ok (a := none) (t := s.deny) ?_
        ⟨o, ⟨h.deny, .deny s o, fun _ _ => .inl, fun _ _ _ h => h, rfl, fun _ _ => rfl⟩,
          .inl ⟨rfl, .of_supply hs, ⟨_, rfl, hno⟩, hlacks, hs⟩⟩
      simp [Vm.walkLevel, Vm.load, hload, PanicM.bind_of_ok hk]
    · have hroom := hs.room
      refine PanicM.returns_of_ok (a := some s.freemem)
        (t := { s.grant with
          mem := (s.grant.mem.memset s.freemem 0 4096).store64 (q + 8 * px level va)
            (tableEntry s.freemem) }) ?_
        ⟨_, Grow.link h hq (px_lt level va) he (by omega) rfl rfl rfl rfl,
          .inr ⟨_, rfl, Function.update_self .., ?_⟩⟩
      · simp [Vm.walkLevel, Vm.load, hload, PanicM.bind_of_ok hk, hpos, Vm.memset, Vm.store,
          tableEntry, pgsize]
      · rw [if_neg hlacks]
        exact (Took.grant hs).congr rfl rfl
  · obtain ⟨hd, -, hlt⟩ := h.tables.page hc
    have hload : s.mem.load64 (q + 8 * px level va) = tableEntry c := he
    refine PanicM.returns_of_ok (a := some c) (t := s) ?_ ⟨o, .refl h, .inr ⟨c, rfl, hc, ?_⟩⟩
    · simp [Vm.walkLevel, Vm.load, hload, tableEntry_valid, pte2pa_tableEntry hd hlt]
    · rw [if_pos ⟨c, hc⟩]
      exact .refl h.le_phystop

/-- **A walk that does not allocate** finds the address of the entry, if there is a table for
it, and changes nothing. -/
theorem walk_false (h : Tables s.mem o) (hr : o r = some (.table r 2 0)) (hva : va < 2 ^ 38) :
    Vm.walk L r va false s = .ok (0, s) ∧ s.mem.entry r (va / 4096) = 0 ∨
      ∃ t, o t = some (.table r 0 (va / 4096 / 512)) ∧ t ≠ 0 ∧
        Vm.walk L r va false s = .ok (t + 8 * (va / 4096 % 512), s) ∧
        s.mem.load64 (t + 8 * (va / 4096 % 512)) = s.mem.entry r (va / 4096) := by
  have hlt : ¬maxva ≤ va := by
    simp only [maxva]
    omega
  rcases walkLevel_false (L := L) 2 va h hr with ⟨hw, he⟩ | ⟨c, hc, hw⟩
  · refine .inl ⟨by simp [Vm.walk, hlt, PanicM.bind_of_ok hw], ?_⟩
    rw [px_two hva] at he
    rw [Mem.entry, he, if_pos (Nat.zero_and _)]
  · rcases walkLevel_false (L := L) 1 va h hc with ⟨hw₁, he⟩ | ⟨t, ht, hw₁⟩
    · refine .inl ⟨by simp [Vm.walk, hlt, PanicM.bind_of_ok hw, PanicM.bind_of_ok hw₁], ?_⟩
      refine h.entry_of_no_table hr (by omega) fun t ht => ?_
      refine h.no_table_of_empty hc (px_lt 1 va) he (c := t) ?_
      rw [ht, px_two hva, px_one, show 512 * (512 * 0 + va / 4096 / 2 ^ 18) +
        va / 4096 / 512 % 512 = va / 4096 / 512 by omega]
    · have ht0 := (h.page ht).2.1.ne'
      rw [px_two hva, px_one, show 512 * (512 * 0 + va / 4096 / 2 ^ 18) + va / 4096 / 512 % 512 =
        va / 4096 / 512 by omega] at ht
      refine .inr ⟨t, ht, ht0, ?_, (h.entry_of_table ht).symm⟩
      simp [Vm.walk, hlt, PanicM.bind_of_ok hw, PanicM.bind_of_ok hw₁, px_zero]

/-- The tables after an operation that has added those with roles in `T`. -/
theorem Grow.hasTable (h : Grow L r T s o s' o') (hT : T (.table r l idx) → o'.HasTable r l idx) :
    o'.HasTable r l idx ↔ o.HasTable r l idx ∨ T (.table r l idx) := by
  constructor
  · rintro ⟨q, hq⟩
    exact (h.adds q _ hq).imp_left fun hold => ⟨q, hold⟩
  · rintro (⟨q, hq⟩ | hnew)
    · exact ⟨q, h.keep q _ _ hq⟩
    · exact hT hnew

/-- The tables after a walk that has found the table for `vpn`. -/
theorem Grow.extends {t vpn : ℕ} (h : Grow L r (Role.Over r vpn) s o s' o')
    (ht : o' t = some (.table r 0 (vpn / 512))) : o.Extends r vpn o' := by
  obtain ⟨q, hq, -⟩ := h.inv.tables.up ht (by omega)
  rw [Nat.div_div_eq_div_mul] at hq
  constructor
  · intro idx
    rw [h.hasTable]
    · simp [Role.Over]
    · rintro (hx | hx)
      · cases hx
        exact ⟨q, hq⟩
      · cases hx
  · intro idx
    rw [h.hasTable]
    · simp [Role.Over]
    · rintro (hx | hx)
      · cases hx
      · cases hx
        exact ⟨t, ht⟩

open Classical in
/-- **A walk that allocates** finds the address of the entry after adding the tables it
needs, or runs out of pages. -/
theorem walk_true (h : VmInv L s o) (hr : o r = some (.table r 2 0)) (hva : va < 2 ^ 38) :
    (Vm.walk L r va true).Returns s fun p s' =>
      ∃ o', Grow L r (Role.Over r (va / 4096)) s o s' o' ∧
        (p = 0 ∧ Starved L s s' ∧ o'.Lacks (Role.Over r (va / 4096)) ∧
            ¬Supply L s (o.missing r (va / 4096)) ∨
          ∃ t, o' t = some (.table r 0 (va / 4096 / 512)) ∧ t ≠ 0 ∧
            p = t + 8 * (va / 4096 % 512) ∧ Took L (o.missing r (va / 4096)) s s') := by
  have hlt : ¬maxva ≤ va := by
    simp only [maxva]
    omega
  have h₁ : 512 * 0 + px 2 va = va / 4096 / 2 ^ 18 := by rw [px_two hva]; omega
  have h₀ : 512 * (512 * 0 + px 2 va) + px 1 va = va / 4096 / 512 := by
    rw [px_two hva, px_one]
    omega
  have hover₁ : ∀ ρ, ρ = Role.table r 1 (512 * 0 + px 2 va) → ρ.Over r (va / 4096) :=
    fun ρ hρ => .inl (h₁ ▸ hρ)
  have hover₀ : ∀ ρ, ρ = Role.table r 0 (512 * (512 * 0 + px 2 va) + px 1 va) →
      ρ.Over r (va / 4096) := fun ρ hρ => .inr (h₀ ▸ hρ)
  rw [Vm.walk, if_neg hlt]
  -- level 2, which may need the first table
  refine (walkLevel_true h hr).bind fun c s₁ hc => ?_
  obtain ⟨o₁, hgrow, ⟨rfl, hs, hlack, hno, hpoor⟩ | ⟨c, rfl, hc, htook⟩⟩ := hc
  · rw [PanicM.returns_pure]
    refine ⟨o₁, hgrow.mono hover₁, .inl ⟨rfl, hs, hlack.mono hover₁, fun hsupply => ?_⟩⟩
    rw [h₁] at hno
    refine hpoor (hsupply.mono ?_)
    rw [Owners.missing, if_neg hno]
    exact Nat.le_add_right _ _
  · have hbelow : o₁.HasTable r 0 (va / 4096 / 512) ↔ o.HasTable r 0 (va / 4096 / 512) := by
      rw [hgrow.hasTable (by simp)]
      simp
    -- level 1, which may need the second one
    refine (walkLevel_true hgrow.inv hc).bind fun t s₂ ht => ?_
    rw [h₁] at htook
    obtain ⟨o₂, hgrow', ⟨rfl, hs, hlack, hno, hpoor⟩ | ⟨t, rfl, ht, htook'⟩⟩ := ht
    · rw [PanicM.returns_pure]
      refine ⟨o₂, (hgrow.mono hover₁).trans (hgrow'.mono hover₀),
        .inl ⟨rfl, hgrow.frame.starved hs, hlack.mono hover₀, fun hsupply => ?_⟩⟩
      rw [h₀, hbelow] at hno
      rw [Owners.missing, if_neg hno] at hsupply
      exact hpoor (htook.supply_iff.mpr hsupply)
    · have ht0 := (hgrow'.inv.tables.page ht).2.1.ne'
      rw [h₀] at ht htook'
      rw [PanicM.returns_pure]
      refine ⟨o₂, (hgrow.mono hover₁).trans (hgrow'.mono hover₀),
        .inr ⟨t, ht, ht0, by rw [px_zero], ?_⟩⟩
      rw [if_congr hbelow rfl rfl] at htook'
      exact htook.trans htook'

end Walk

end OsKernel
