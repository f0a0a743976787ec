import Mathlib.Data.Finset.Card
import OsKernel.Vm.Walk

/-!
# Mapping and unmapping pages

The rules for the functions that write leaves: `mappages` and `uvmunmap`. Each says how the
meaning of the page table changes, and that the invariant and everything outside the page
table are kept, on success and on every failure of an allocation.

A leaf is written in one of three ways, and each is a rule of its own: a page without `PTE_U`
is mapped or unmapped (`VmInv.writeLeaf`), a loose page becomes a user page
(`VmInv.mapUser`), a user page is unmapped and freed (`VmInv.freeUser`).
-/

namespace OsKernel

variable {L : Layout} {s s' : Vm} {o o' : Owners} {r t vpn v pa perm va : ℕ}

/-! ### Writing one leaf -/

/-- The state after a store to the leaf of `vpn` in its table `t`. -/
def Vm.setLeaf (s : Vm) (t vpn v : ℕ) : Vm :=
  { s with mem := s.mem.store64 (t + 8 * (vpn % 512)) v }

theorem Vm.setLeaf_mem (s : Vm) (t vpn v : ℕ) :
    (s.setLeaf t vpn v).mem = s.mem.store64 (t + 8 * (vpn % 512)) v := rfl

/-- A store to a leaf changes the meaning of the table at that page and nowhere else. -/
theorem Tables.entry_setLeaf (h : Tables s.mem o) (h' : Tables (s.setLeaf t vpn v).mem o')
    (ht : o t = some (.table r 0 (vpn / 512)))
    (htable : ∀ q r l idx, o' q = some (.table r l idx) ↔ o q = some (.table r l idx))
    (hv : v < 2 ^ 64) {w : ℕ} (hw : w < 2 ^ 27) :
    (s.setLeaf t vpn v).mem.entry r w = if w = vpn then v else s.mem.entry r w := by
  by_cases hex : ∃ p, o p = some (.table r 0 (w / 512))
  · obtain ⟨p, hp⟩ := hex
    rw [h'.entry_of_table ((htable _ _ _ _).mpr hp), h.entry_of_table hp, Vm.setLeaf_mem,
      Mem.pte_store64 (h.page ht).1 (h.page hp).1 (by omega) (by omega) hv]
    by_cases hwv : w = vpn
    · subst hwv
      rw [if_pos ⟨h.unique hp ht, rfl⟩, if_pos rfl]
    · rw [if_neg hwv, if_neg]
      rintro ⟨rfl, hmod⟩
      simp only [ht, Option.some.injEq, Role.table.injEq] at hp
      omega
  · rw [h'.entry_of_no_table ((htable _ _ _ _).mpr (h.rootTable ht)) hw
        fun p hp => hex ⟨p, (htable _ _ _ _).mp hp⟩,
      h.entry_of_no_table (h.rootTable ht) hw fun p hp => hex ⟨p, hp⟩, if_neg]
    rintro rfl
    exact hex ⟨t, ht⟩

/-- The frame of a store to a leaf with a change to one role. -/
theorem Frame.setLeaf {T : Role → Prop} {x : Option Role} {fr : List ℕ} (h : VmInv L s o)
    (ht : o t = some (.table r 0 (vpn / 512))) (hT : ∀ l idx, T (.table r l idx))
    (hp : ∀ ρ, o pa = some ρ → T ρ) (hx : ∀ ρ, x = some ρ → T ρ) :
    Frame L T s o { s.setLeaf t vpn v with freed := fr } (Function.update o pa x) := by
  refine Frame.update hp hx ?_ ?_ le_rfl fun n hn => ⟨n, hn⟩
  · intro q ρ hq hTq
    refine Mem.agreeOn_store64_page (h.tables.page ht).1 (h.tables.page hq).1 (by omega) ?_
    rintro rfl
    rw [ht] at hq
    cases hq
    exact hTq (hT 0 _)
  · intro a ha
    have := h.heap_le_page ht
    exact Mem.writeBytes_of_lt (by omega)

/-- **Rule for a leaf without `PTE_U`**, mapped or unmapped. -/
theorem VmInv.writeLeaf (h : VmInv L s o) (ht : o t = some (.table r 0 (vpn / 512)))
    (hv : v < 2 ^ 64) (hleaf : v = 0 ∨ IsLeaf v) (hu : v &&& pteU = 0)
    (hold : s.mem.entry r vpn &&& pteU = 0) :
    VmInv L (s.setLeaf t vpn v) o ∧ Frame L (Role.TableOf r) s o (s.setLeaf t vpn v) o ∧
      ∀ w, w < 2 ^ 27 →
        (s.setLeaf t vpn v).mem.entry r w = if w = vpn then v else s.mem.entry r w := by
  have hnone : ∀ q, o q ≠ some (.user r vpn) := by
    intro q hq
    have hvpn := h.tables.vpn_lt hq
    exact ((h.tables.user_iff (h.tables.rootTable ht) hvpn).mp hq).1 hold
  have htables : Tables (s.setLeaf t vpn v).mem o := by
    refine h.tables.setLeaf ht (Nat.mod_lt _ (by decide)) hv hleaf h.tables.page
      (fun _ _ _ _ => Iff.rfl) (fun _ _ _ _ => Iff.rfl) fun q => ?_
    rw [Nat.div_add_mod]
    exact ⟨fun hq => absurd hq (hnone q), fun hq => absurd hu hq.1⟩
  refine ⟨h.of_tables htables rfl rfl fun _ => Iff.rfl, ?_, fun w hw =>
    h.tables.entry_setLeaf htables ht (fun _ _ _ _ => Iff.rfl) hv hw⟩
  have hrole : ∀ ρ, o t = some ρ → ρ.TableOf r := by
    intro ρ hρ
    rw [ht] at hρ
    cases hρ
    rfl
  have hframe : Frame L (Role.TableOf r) s o { s.setLeaf t vpn v with freed := s.freed }
      (Function.update o t (o t)) := Frame.setLeaf h ht (fun _ _ => rfl) hrole hrole
  rwa [Function.update_eq_self] at hframe

/-- **Rule for a loose page that becomes a user page.** -/
theorem VmInv.mapUser (h : VmInv L s o) (ht : o t = some (.table r 0 (vpn / 512)))
    (hpa : o pa = some .loose) (hv : v < 2 ^ 64) (hleaf : IsLeaf v) (hu : v &&& pteU ≠ 0)
    (hvpa : pte2pa v = pa) (hold : s.mem.entry r vpn &&& pteU = 0) :
    VmInv L (s.setLeaf t vpn v) (Function.update o pa (some (.user r vpn))) ∧
      ∀ w, w < 2 ^ 27 →
        (s.setLeaf t vpn v).mem.entry r w = if w = vpn then v else s.mem.entry r w := by
  -- no user page is mapped at `vpn` yet
  have hnone : ∀ q, o q ≠ some (.user r vpn) := by
    intro q hq
    have hvpn := h.tables.vpn_lt hq
    exact ((h.tables.user_iff (h.tables.rootTable ht) hvpn).mp hq).1 hold
  have htable : ∀ q r' l idx, Function.update o pa (some (.user r vpn)) q =
      some (.table r' l idx) ↔ o q = some (.table r' l idx) := by
    intro q r' l idx
    by_cases hq : q = pa
    · simp [hq, hpa]
    · rw [Function.update_of_ne hq]
  have htables : Tables (s.setLeaf t vpn v).mem (Function.update o pa (some (.user r vpn))) := by
    refine h.tables.setLeaf ht (Nat.mod_lt _ (by decide)) hv (.inr hleaf) ?_ htable ?_ ?_
    · intro q ρ hq
      rcases update_eq_some hq with ⟨rfl, -⟩ | ⟨-, hq⟩
      · exact h.tables.page hpa
      · exact h.tables.page hq
    · rw [Nat.div_add_mod]
      intro q r' w hne
      by_cases hq : q = pa
      · subst hq
        simp only [Function.update_self, hpa, Option.some.injEq, Role.user.injEq, reduceCtorEq,
          iff_false]
        rintro ⟨rfl, rfl⟩
        exact hne ⟨rfl, rfl⟩
      · rw [Function.update_of_ne hq]
    · rw [Nat.div_add_mod, hvpa]
      intro q
      by_cases hq : q = pa
      · simp [hq, hu]
      · rw [Function.update_of_ne hq]
        exact ⟨fun hq' => absurd hq' (hnone q), fun hq' => absurd hq'.2.symm hq⟩
  refine ⟨h.of_tables htables rfl rfl fun q => ?_, fun w hw =>
    h.tables.entry_setLeaf htables ht htable hv hw⟩
  by_cases hq : q = pa
  · simp [hq, hpa]
  · rw [Function.update_of_ne hq]

/-- **Rule for a user page that is unmapped and freed.** -/
theorem VmInv.freeUser (h : VmInv L s o) (ht : o t = some (.table r 0 (vpn / 512)))
    (hu : s.mem.entry r vpn &&& pteU ≠ 0) (hvpn : vpn < 2 ^ 27) :
    VmInv L { s.setLeaf t vpn 0 with freed := pte2pa (s.mem.entry r vpn) :: s.freed }
        (Function.update o (pte2pa (s.mem.entry r vpn)) none) ∧
      Frame L (Role.Under r) s o
        { s.setLeaf t vpn 0 with freed := pte2pa (s.mem.entry r vpn) :: s.freed }
        (Function.update o (pte2pa (s.mem.entry r vpn)) none) ∧
      ∀ w, w < 2 ^ 27 →
        (s.setLeaf t vpn 0).mem.entry r w = if w = vpn then 0 else s.mem.entry r w := by
  set p := pte2pa (s.mem.entry r vpn) with hp
  have howner : o p = some (.user r vpn) :=
    (h.tables.user_iff (h.tables.rootTable ht) hvpn).mpr ⟨hu, hp.symm⟩
  have hunique : ∀ {q}, o q = some (.user r vpn) → q = p := fun hq =>
    ((h.tables.user_iff (h.tables.rootTable ht) hvpn).mp hq).2.symm
  have htable : ∀ q r' l idx, Function.update o p none q =
      some (.table r' l idx) ↔ o q = some (.table r' l idx) := by
    intro q r' l idx
    by_cases hq : q = p
    · simp [hq, howner]
    · rw [Function.update_of_ne hq]
  have htables : Tables (s.setLeaf t vpn 0).mem (Function.update o p none) := by
    refine h.tables.setLeaf ht (Nat.mod_lt _ (by decide)) (by decide) (.inl rfl) ?_ htable ?_ ?_
    · intro q ρ hq
      rcases update_eq_some hq with ⟨-, heq⟩ | ⟨-, hq⟩
      · cases heq
      · exact h.tables.page hq
    · rw [Nat.div_add_mod]
      intro q r' w hne
      by_cases hq : q = p
      · subst hq
        simp only [Function.update_self, howner, reduceCtorEq, Option.some.injEq,
          Role.user.injEq, false_iff]
        rintro ⟨rfl, rfl⟩
        exact hne ⟨rfl, rfl⟩
      · rw [Function.update_of_ne hq]
    · rw [Nat.div_add_mod]
      intro q
      by_cases hq : q = p
      · simp [hq]
      · rw [Function.update_of_ne hq]
        simp only [Nat.zero_and, ne_eq, not_true_eq_false, false_and, iff_false]
        exact fun hq' => hq (hunique hq')
  refine ⟨h.kfree howner htables rfl rfl, Frame.setLeaf h ht (fun _ _ => rfl) ?_ ?_, fun w hw =>
    h.tables.entry_setLeaf htables ht htable (by decide) hw⟩
  · intro ρ hρ
    rw [howner] at hρ
    cases hρ
    rfl
  · rintro ρ ⟨⟩

/-! ### `mappages` -/

theorem pteFlags_leafEntry (hperm : perm < 1024) :
    pteFlags (pa2pte pa ||| perm ||| pteV) = perm ||| pteV := by
  rw [Nat.or_assoc, pteFlags_pa2pte_or (or_pteV_lt hperm)]

theorem pte2pa_leafEntry (hpa : 4096 ∣ pa) (hlt : pa < 2 ^ 64) (hperm : perm < 1024) :
    pte2pa (pa2pte pa ||| perm ||| pteV) = pa := by
  rw [Nat.or_assoc, pte2pa_pa2pte_or hpa hlt (or_pteV_lt hperm)]

theorem leafEntry_lt (hlt : pa < 2 ^ 64) (hperm : perm < 1024) :
    pa2pte pa ||| perm ||| pteV < 2 ^ 64 := by
  have := or_pteV_lt hperm
  rw [Nat.or_assoc, pa2pte_or this]
  omega

/-- The flags of a leaf decide whether it is one. -/
theorem isLeaf_leafEntry (hperm : perm < 1024)
    (hrwx : (perm ||| pteV) &&& (pteR ||| pteW ||| pteX) ≠ 0) :
    IsLeaf (pa2pte pa ||| perm ||| pteV) := by
  constructor
  · rw [and_eq_pteFlags_and (by decide), pteFlags_leafEntry hperm, Nat.and_or_distrib_right]
    exact fun h => absurd (Nat.or_eq_zero_iff.mp h).2 (by decide)
  · rwa [and_eq_pteFlags_and (by decide), pteFlags_leafEntry hperm]

theorem leafEntry_user (hperm : perm < 1024) :
    (pa2pte pa ||| perm ||| pteV) &&& pteU = perm &&& pteU := by
  rw [and_eq_pteFlags_and (by decide), pteFlags_leafEntry hperm, Nat.and_or_distrib_right,
    show pteV &&& pteU = 0 from rfl, Nat.or_zero]

/-- One round of `mappages` on a page that is not mapped: the walk adds the tables it needs,
and the leaf is written. -/
theorem mappagesLoop_step {fuel last : ℕ} (h : VmInv L s o) (hr : o r = some (.table r 2 0))
    (hva : va < 2 ^ 38) (hfree : s.mem.entry r (va / 4096) = 0) {Q : Bool → Vm → Prop}
    (hfail : ∀ s₁ o₁, Grow L r (Role.Over r (va / 4096)) s o s₁ o₁ → Starved L s s₁ →
      o₁.Lacks (Role.Over r (va / 4096)) → ¬Supply L s (o.missing r (va / 4096)) → Q false s₁)
    (hok : ∀ s₁ o₁ t, Grow L r (Role.Over r (va / 4096)) s o s₁ o₁ →
      o₁ t = some (.table r 0 (va / 4096 / 512)) → Took L (o.missing r (va / 4096)) s s₁ →
      (if va = last then (pure true : VmM Bool)
        else Vm.mappagesLoop L r last perm fuel ((va + pgsize) % wordSize)
          ((pa + pgsize) % wordSize)).Returns
        (s₁.setLeaf t (va / 4096) (pa2pte pa ||| perm ||| pteV)) Q) :
    (Vm.mappagesLoop L r last perm (fuel + 1) va pa).Returns s Q := by
  rw [Vm.mappagesLoop]
  refine (walk_true h hr hva).bind fun p s₁ hp => ?_
  obtain ⟨o₁, hgrow, ⟨rfl, hs, hlack, hpoor⟩ | ⟨t, ht, ht0, rfl, htook⟩⟩ := hp
  · simpa using hfail s₁ o₁ hgrow hs hlack hpoor
  · have hload : s₁.mem.load64 (t + 8 * (va / 4096 % 512)) = 0 := by
      have := hgrow.inv.tables.entry_of_table ht
      rw [hgrow.entry _ (by omega), hfree] at this
      exact this.symm
    rw [if_neg (by omega)]
    simpa [Vm.load, hload, Vm.store, Vm.setLeaf] using hok s₁ o₁ t hgrow ht htook

/-- The meaning of a table after `n` pages from `vpn` on are mapped to the pages from `pa` on. -/
def mapRange (f : ℕ → ℕ) (vpn n pa perm : ℕ) : ℕ → ℕ := fun w =>
  if vpn ≤ w ∧ w < vpn + n then pa2pte (pa + (w - vpn) * 4096) ||| perm ||| pteV else f w

/-- The roles of the tables that mapping `n` pages from `vpn` on can add. -/
def Role.OverRange (r vpn n : ℕ) (ρ : Role) : Prop := ∃ w, vpn ≤ w ∧ w < vpn + n ∧ ρ.Over r w

theorem Role.OverRange.mono {r vpn n vpn' n' : ℕ} {ρ : Role} (h : ρ.OverRange r vpn n)
    (hlo : vpn' ≤ vpn) (hhi : vpn + n ≤ vpn' + n') : ρ.OverRange r vpn' n' := by
  obtain ⟨w, hw, hw', hρ⟩ := h
  exact ⟨w, by omega, by omega, hρ⟩

/-- What an operation on the page table at `r` keeps, for operations that leave its user pages
as they are and add tables with roles in `T`. -/
structure Remap (L : Layout) (r : ℕ) (T : Role → Prop) (s : Vm) (o : Owners) (s' : Vm)
    (o' : Owners) : Prop where
  inv : VmInv L s' o'
  frame : Frame L (Role.TableOf r) s o s' o'
  adds : o.Adds T o'
  root : o' r = some (.table r 2 0)
  freed : s'.freed = s.freed

theorem Remap.mono {T T' : Role → Prop} (h : Remap L r T s o s' o') (hT : ∀ ρ, T ρ → T' ρ) :
    Remap L r T' s o s' o' := ⟨h.inv, h.frame, h.adds.mono hT, h.root, h.freed⟩

theorem Remap.trans {T : Role → Prop} {s'' : Vm} {o'' : Owners} (h : Remap L r T s o s' o')
    (h' : Remap L r T s' o' s'' o'') : Remap L r T s o s'' o'' :=
  ⟨h'.inv, h.frame.trans h'.frame, h.adds.trans h'.adds, h'.root, h'.freed.trans h.freed⟩

/-- **Pages are counted by their roles.** If the pages handed out from `lo` on are in use and have
different roles in `F`, there are at most as many as `F` has roles. -/
theorem VmInv.pages_le {lo : ℕ} {F : Finset Role} (h : VmInv L s o) (hd : 4096 ∣ lo)
    (hheap : L.heap ≤ lo) (hfreed : ∀ q ∈ s.freed, q < lo)
    (hF : ∀ q ρ, lo ≤ q → o q = some ρ → ρ ∈ F)
    (hinj : ∀ q q' ρ, lo ≤ q → lo ≤ q' → o q = some ρ → o q' = some ρ → q = q') :
    (s.freemem - lo) / 4096 ≤ F.card := by
  have halign := h.aligned
  -- each page from `lo` on has a role, and no two of them have the same
  have howned : ∀ k, k < (s.freemem - lo) / 4096 → ∃ ρ, o (lo + 4096 * k) = some ρ := by
    intro k hk
    refine (h.owned _).mpr ⟨by omega, by omega, by omega, fun hmem => ?_⟩
    have := hfreed _ hmem
    omega
  have hmaps : ∀ k ∈ Finset.range ((s.freemem - lo) / 4096),
      (o (lo + 4096 * k)).getD .loose ∈ F := by
    intro k hk
    obtain ⟨ρ, hρ⟩ := howned k (Finset.mem_range.mp hk)
    rw [hρ, Option.getD_some]
    exact hF _ ρ (by omega) hρ
  have hinjOn : Set.InjOn (fun k => (o (lo + 4096 * k)).getD .loose)
      (Finset.range ((s.freemem - lo) / 4096)) := by
    intro k hk k' hk' heq
    obtain ⟨ρ, hρ⟩ := howned k (Finset.mem_range.mp hk)
    obtain ⟨ρ', hρ'⟩ := howned k' (Finset.mem_range.mp hk')
    simp only [hρ, hρ', Option.getD_some] at heq
    have := hinj _ _ ρ (by omega) (by omega) hρ (heq ▸ hρ')
    omega
  calc (s.freemem - lo) / 4096
      = (Finset.range ((s.freemem - lo) / 4096)).card := (Finset.card_range _).symm
    _ ≤ F.card := Finset.card_le_card_of_injOn _ hmaps hinjOn

theorem mapRange_zero (f : ℕ → ℕ) (vpn pa perm : ℕ) : mapRange f vpn 0 pa perm = f := by
  funext w
  rw [mapRange, if_neg (by omega)]

theorem mapRange_succ (f : ℕ → ℕ) (vpn n pa perm : ℕ) :
    mapRange (mapRange f vpn 1 pa perm) (vpn + 1) n (pa + 4096) perm =
      mapRange f vpn (n + 1) pa perm := by
  funext w
  simp only [mapRange]
  split_ifs with h₁ h₂ h₃ h₄ h₅
  · congr 3
    omega
  · omega
  · rfl
  · omega
  · omega
  · rfl

/-- One round of `mappages` without `PTE_U`. -/
theorem mappagesLoop_plain {fuel last : ℕ} (h : VmInv L s o) (hr : o r = some (.table r 2 0))
    (hperm : perm < 1024) (hu : perm &&& pteU = 0)
    (hrwx : (perm ||| pteV) &&& (pteR ||| pteW ||| pteX) ≠ 0) (hva : va < 2 ^ 38)
    (hpa : pa < 2 ^ 64) (hfree : s.mem.entry r (va / 4096) = 0) {Q : Bool → Vm → Prop}
    (hfail : ∀ s₁ o₁, Remap L r (Role.OverRange r (va / 4096) 1) s o s₁ o₁ →
      (∀ w, w < 2 ^ 27 → s₁.mem.entry r w = s.mem.entry r w) → Starved L s s₁ →
      o₁.Lacks (Role.OverRange r (va / 4096) 1) → ¬Supply L s (o.missing r (va / 4096)) →
      Q false s₁)
    (hok : ∀ s₁ o₁, Remap L r (Role.OverRange r (va / 4096) 1) s o s₁ o₁ →
      (∀ w, w < 2 ^ 27 →
        s₁.mem.entry r w = mapRange (s.mem.entry r) (va / 4096) 1 pa perm w) →
      Took L (o.missing r (va / 4096)) s s₁ → o.Extends r (va / 4096) o₁ →
      (if va = last then (pure true : VmM Bool)
        else Vm.mappagesLoop L r last perm fuel ((va + pgsize) % wordSize)
          ((pa + pgsize) % wordSize)).Returns s₁ Q) :
    (Vm.mappagesLoop L r last perm (fuel + 1) va pa).Returns s Q := by
  have hover : ∀ ρ : Role, ρ.Over r (va / 4096) → ρ.OverRange r (va / 4096) 1 :=
    fun ρ hρ => ⟨_, le_rfl, by omega, hρ⟩
  refine mappagesLoop_step h hr hva hfree ?_ ?_
  · intro s₁ o₁ hgrow hs hlack hpoor
    exact hfail s₁ o₁ ⟨hgrow.inv, hgrow.frame, hgrow.adds.mono hover, hgrow.keep _ _ _ hr,
      hgrow.freed⟩ hgrow.entry hs (hlack.mono hover) hpoor
  · intro s₁ o₁ t hgrow ht htook
    have hlt : pa2pte pa ||| perm ||| pteV < 2 ^ 64 := leafEntry_lt hpa hperm
    obtain ⟨hinv, hframe, hentry⟩ := hgrow.inv.writeLeaf ht hlt
      (.inr (isLeaf_leafEntry hperm hrwx)) ((leafEntry_user hperm).trans hu)
      (by rw [hgrow.entry _ (by omega), hfree, Nat.zero_and])
    refine hok _ o₁ ⟨hinv, hgrow.frame.trans hframe, hgrow.adds.mono hover,
      hgrow.keep _ _ _ hr, hgrow.freed⟩ (fun w hw => ?_) (htook.congr rfl rfl) (hgrow.extends ht)
    rw [hentry w hw, mapRange, hgrow.entry w hw]
    by_cases hwv : w = va / 4096
    · rw [if_pos hwv, if_pos (by omega), hwv, Nat.sub_self, Nat.zero_mul, Nat.add_zero]
    · rw [if_neg hwv, if_neg (by omega)]

theorem mappagesLoop_spec (hperm : perm < 1024) (hu : perm &&& pteU = 0)
    (hrwx : (perm ||| pteV) &&& (pteR ||| pteW ||| pteX) ≠ 0) : ∀ n fuel s o va pa, n < fuel →
    VmInv L s o → o r = some (.table r 2 0) → 4096 ∣ va → va + (n + 1) * 4096 ≤ 2 ^ 38 →
    pa + n * 4096 < 2 ^ 64 →
    (∀ w, va / 4096 ≤ w → w ≤ va / 4096 + n → s.mem.entry r w = 0) →
    (Vm.mappagesLoop L r (va + n * 4096) perm fuel va pa).Returns s fun ok s' =>
      ∃ o' k, Remap L r (Role.OverRange r (va / 4096) (n + 1)) s o s' o' ∧
        (ok = true ∧ k = n + 1 ∨ ok = false ∧ k ≤ n ∧ Starved L s s' ∧
          o'.Lacks (Role.OverRange r (va / 4096) (n + 1))) ∧
        ∀ w, w < 2 ^ 27 → s'.mem.entry r w = mapRange (s.mem.entry r) (va / 4096) k pa perm w := by
  intro n
  induction n with
  | zero =>
    intro fuel s o va pa hfuel h hr hd hva hpa hfree
    obtain ⟨fuel, rfl⟩ : ∃ k, fuel = k + 1 := ⟨fuel - 1, by omega⟩
    refine mappagesLoop_plain h hr hperm hu hrwx (by omega) (by omega)
      (hfree _ le_rfl (by omega)) ?_ ?_
    · intro s₁ o₁ hremap hentry hs hlack _
      exact ⟨o₁, 0, hremap, .inr ⟨rfl, le_rfl, hs, hlack⟩,
        by simpa only [mapRange_zero] using hentry⟩
    · intro s₁ o₁ hremap hentry _ _
      rw [if_pos (by omega), PanicM.returns_pure]
      exact ⟨o₁, 1, hremap, .inl ⟨rfl, rfl⟩, hentry⟩
  | succ n ih =>
    intro fuel s o va pa hfuel h hr hd hva hpa hfree
    obtain ⟨fuel, rfl⟩ : ∃ k, fuel = k + 1 := ⟨fuel - 1, by omega⟩
    have hfirst : ∀ ρ : Role, ρ.OverRange r (va / 4096) 1 →
        ρ.OverRange r (va / 4096) (n + 1 + 1) := fun ρ hρ => hρ.mono le_rfl (by omega)
    have hrest : ∀ ρ : Role, ρ.OverRange r ((va + 4096) / 4096) (n + 1) →
        ρ.OverRange r (va / 4096) (n + 1 + 1) := fun ρ hρ => hρ.mono (by omega) (by omega)
    -- the page at `va`, and then the `n + 1` pages after it
    refine mappagesLoop_plain h hr hperm hu hrwx (by omega) (by omega)
      (hfree _ le_rfl (by omega)) ?_ ?_
    · intro s₁ o₁ hremap hentry hs hlack _
      exact ⟨o₁, 0, hremap.mono hfirst, .inr ⟨rfl, Nat.zero_le _, hs, hlack.mono hfirst⟩,
        by simpa only [mapRange_zero] using hentry⟩
    · intro s₁ o₁ hremap hentry _ _
      rw [if_neg (by omega), show (va + pgsize) % wordSize = va + 4096 by
          simp only [pgsize, wordSize]; omega,
        show (pa + pgsize) % wordSize = pa + 4096 by simp only [pgsize, wordSize]; omega,
        show va + (n + 1) * 4096 = va + 4096 + n * 4096 by omega]
      refine (ih fuel s₁ o₁ (va + 4096) (pa + 4096) (by omega) hremap.inv hremap.root
        (by omega) (by omega) (by omega) ?_).mono ?_
      · intro w hlo hhi
        rw [hentry w (by omega), mapRange, if_neg (by omega)]
        exact hfree w (by omega) (by omega)
      · rintro ok s₂ ⟨o₂, k, hremap', hok, hentry'⟩
        refine ⟨o₂, k + 1, (hremap.mono hfirst).trans (hremap'.mono hrest), ?_, fun w hw => ?_⟩
        · rcases hok with ⟨rfl, rfl⟩ | ⟨rfl, hk, hs, hlack⟩
          · exact .inl ⟨rfl, rfl⟩
          · exact .inr ⟨rfl, by omega, hremap.frame.starved hs, hlack.mono hrest⟩
        · rw [hentry' w hw, ← mapRange_succ, show (va + 4096) / 4096 = va / 4096 + 1 by omega]
          simp only [mapRange, hentry w hw]

/-- **`mappages` without `PTE_U`** on a range that is not mapped: it maps the range, or a proper
part of it from the start when it runs out of pages. -/
theorem mappages_spec {n : ℕ} (h : VmInv L s o) (hr : o r = some (.table r 2 0))
    (hperm : perm < 1024) (hu : perm &&& pteU = 0)
    (hrwx : (perm ||| pteV) &&& (pteR ||| pteW ||| pteX) ≠ 0) (hd : 4096 ∣ va) (hn : 0 < n)
    (hva : va + n * 4096 ≤ 2 ^ 38) (hpa : pa + n * 4096 ≤ 2 ^ 64)
    (hfree : ∀ w, va / 4096 ≤ w → w < va / 4096 + n → s.mem.entry r w = 0) :
    (Vm.mappages L r va (n * 4096) pa perm).Returns s fun ok s' =>
      ∃ o' k, Remap L r (Role.OverRange r (va / 4096) n) s o s' o' ∧
        (ok = true ∧ k = n ∨ ok = false ∧ k < n ∧ Starved L s s' ∧
          o'.Lacks (Role.OverRange r (va / 4096) n)) ∧
        ∀ w, w < 2 ^ 27 →
          s'.mem.entry r w = mapRange (s.mem.entry r) (va / 4096) k pa perm w := by
  obtain ⟨n, rfl⟩ : ∃ k, n = k + 1 := ⟨n - 1, by omega⟩
  have hlast : (va + (n + 1) * 4096 - pgsize) % wordSize = va + n * 4096 := by
    simp only [pgsize, wordSize]
    omega
  have hrounds : (n + 1) * 4096 / pgsize = n + 1 := by
    simp only [pgsize]
    omega
  rw [Vm.mappages, if_neg (by simp only [pgsize]; omega), if_neg (by simp only [pgsize]; omega),
    if_neg (by omega), hlast, hrounds]
  refine (mappagesLoop_spec hperm hu hrwx n (n + 1) s o va pa (by omega) h hr hd hva (by omega)
    fun w hlo hhi => hfree w hlo (by omega)).mono ?_
  rintro ok s' ⟨o', k, hremap, hok, hentry⟩
  refine ⟨o', k, hremap, ?_, hentry⟩
  rcases hok with ⟨rfl, rfl⟩ | ⟨rfl, hk, hs⟩
  · exact .inl ⟨rfl, rfl⟩
  · exact .inr ⟨rfl, Nat.lt_succ_of_le hk, hs⟩

/-- **`mappages` of a loose page with `PTE_U`.** -/
theorem mappages_user (h : VmInv L s o) (hr : o r = some (.table r 2 0)) (hperm : perm < 1024)
    (hu : perm &&& pteU ≠ 0) (hrwx : (perm ||| pteV) &&& (pteR ||| pteW ||| pteX) ≠ 0)
    (hd : 4096 ∣ va) (hva : va < 2 ^ 38) (hpa : o pa = some .loose)
    (hfree : s.mem.entry r (va / 4096) = 0) :
    (Vm.mappages L r va 4096 pa perm).Returns s fun ok s' =>
      ∃ s₁ o₁, Grow L r (Role.Over r (va / 4096)) s o s₁ o₁ ∧
      (ok = false ∧ ¬Supply L s (o.missing r (va / 4096)) ∧ s' = s₁ ∨
        ok = true ∧ Took L (o.missing r (va / 4096)) s s₁ ∧
          ∃ t, o₁ t = some (.table r 0 (va / 4096 / 512)) ∧
          s' = s₁.setLeaf t (va / 4096) (pa2pte pa ||| perm ||| pteV) ∧
          VmInv L s' (Function.update o₁ pa (some (.user r (va / 4096)))) ∧
          ∀ w, w < 2 ^ 27 → s'.mem.entry r w =
            if w = va / 4096 then pa2pte pa ||| perm ||| pteV else s.mem.entry r w) := by
  obtain ⟨hpad, -, hpalt⟩ := h.tables.page hpa
  have hlast : (va + 4096 - pgsize) % wordSize = va := by
    simp only [pgsize, wordSize]
    omega
  rw [Vm.mappages, if_neg (by simp only [pgsize]; omega), if_neg (by simp only [pgsize]; omega),
    if_neg (by omega), hlast, show 4096 / pgsize = 0 + 1 from rfl]
  refine mappagesLoop_step h hr hva hfree ?_ ?_
  · intro s₁ o₁ hgrow _ _ hpoor
    exact ⟨s₁, o₁, hgrow, .inl ⟨rfl, hpoor, rfl⟩⟩
  · intro s₁ o₁ t hgrow ht htook
    rw [if_pos rfl, PanicM.returns_pure]
    have hloose := hgrow.frame.role pa _ hpa (fun h => h)
    obtain ⟨hinv, hentry⟩ := hgrow.inv.mapUser ht hloose (leafEntry_lt hpalt hperm)
      (isLeaf_leafEntry hperm hrwx) (by rwa [leafEntry_user hperm])
      (pte2pa_leafEntry hpad hpalt hperm) (by rw [hgrow.entry _ (by omega), hfree, Nat.zero_and])
    refine ⟨s₁, o₁, hgrow, .inr ⟨rfl, htook, t, ht, rfl, hinv, fun w hw => ?_⟩⟩
    rw [hentry w hw, hgrow.entry w hw]

/-! ### `uvmunmap` -/

/-- What an operation on the page table at `r` keeps. -/
structure Edit (L : Layout) (r : ℕ) (s : Vm) (o : Owners) (s' : Vm) (o' : Owners) : Prop where
  inv : VmInv L s' o'
  frame : Frame L (Role.Under r) s o s' o'
  root : o' r = some (.table r 2 0)

theorem Edit.refl (h : VmInv L s o) (hr : o r = some (.table r 2 0)) : Edit L r s o s o :=
  ⟨h, .refl s o, hr⟩

theorem Edit.trans {s'' : Vm} {o'' : Owners} (h : Edit L r s o s' o')
    (h' : Edit L r s' o' s'' o'') : Edit L r s o s'' o'' :=
  ⟨h'.inv, h.frame.trans h'.frame, h'.root⟩

theorem Remap.edit {T : Role → Prop} (h : Remap L r T s o s' o') : Edit L r s o s' o' :=
  ⟨h.inv, h.frame.widen fun _ => Role.TableOf.under, h.root⟩

/-- The meaning of a table after `n` pages from `vpn` on are unmapped. -/
def clearRange (f : ℕ → ℕ) (vpn n : ℕ) : ℕ → ℕ := fun w =>
  if vpn ≤ w ∧ w < vpn + n then 0 else f w

theorem clearRange_zero (f : ℕ → ℕ) (vpn : ℕ) : clearRange f vpn 0 = f := by
  funext w
  rw [clearRange, if_neg (by omega)]

theorem clearRange_succ (f : ℕ → ℕ) (vpn n : ℕ) :
    clearRange (clearRange f vpn 1) (vpn + 1) n = clearRange f vpn (n + 1) := by
  funext w
  simp only [clearRange]
  split_ifs <;> first | rfl | omega

/-- One round of `uvmunmap`. It frees a page exactly when the page is a user page. -/
theorem uvmunmapPage_spec {a : ℕ} {d : Bool} (h : VmInv L s o)
    (hr : o r = some (.table r 2 0)) (ha : a < 2 ^ 38)
    (hfree : s.mem.entry r (a / 4096) ≠ 0 →
      (s.mem.entry r (a / 4096) &&& pteU ≠ 0 ↔ d = true)) :
    (Vm.uvmunmapPage L r a d).Returns s fun _ s' => ∃ o', Edit L r s o s' o' ∧
      ∀ w, w < 2 ^ 27 → s'.mem.entry r w = clearRange (s.mem.entry r) (a / 4096) 1 w := by
  have hsame : s.mem.entry r (a / 4096) = 0 →
      ∀ w, w < 2 ^ 27 → s.mem.entry r w = clearRange (s.mem.entry r) (a / 4096) 1 w := by
    intro h0 w _
    rw [clearRange]
    split_ifs with hw
    · rw [show w = a / 4096 by omega, h0]
    · rfl
  rcases walk_false (L := L) h.tables hr ha with ⟨hw, h0⟩ | ⟨t, ht, ht0, hw, hload⟩
  · refine PanicM.returns_of_ok (a := ()) (t := s) ?_ ⟨o, .refl h hr, hsame h0⟩
    rw [Vm.uvmunmapPage, PanicM.bind_of_ok hw]
    rfl
  · rw [Vm.uvmunmapPage]
    rcases h.tables.entry_leaf hr (show a / 4096 < 2 ^ 27 by omega) with h0 | hleaf
    · refine PanicM.returns_of_ok (a := ()) (t := s) ?_ ⟨o, .refl h hr, hsame h0⟩
      rw [PanicM.bind_of_ok hw, if_neg (by omega)]
      simp [Vm.load, hload, h0]
    · have hne : s.mem.entry r (a / 4096) ≠ 0 := fun h0 => hleaf.1 (by rw [h0, Nat.zero_and])
      have hclear : ∀ f : ℕ → ℕ, ∀ w, (if w = a / 4096 then 0 else f w) =
          clearRange f (a / 4096) 1 w := by
        intro f w
        rw [clearRange]
        split_ifs <;> first | rfl | omega
      have hv := hleaf.1
      by_cases hu : s.mem.entry r (a / 4096) &&& pteU ≠ 0
      · -- a user page is freed
        obtain ⟨hinv, hframe, hentry⟩ := h.freeUser ht hu (by omega)
        have hroot : o r ≠ some (.user r (a / 4096)) := by rw [hr]; simp
        refine PanicM.returns_of_ok (a := ()) ?_ ⟨_, ⟨hinv, hframe, ?_⟩, fun w hw => ?_⟩
        · rw [PanicM.bind_of_ok hw, if_neg (by omega)]
          simp [Vm.load, hload, hv, (hfree hne).mp hu, Vm.kfree, Vm.store, Vm.setLeaf]
        · rw [Function.update_of_ne, hr]
          rintro heq
          exact hroot ((h.tables.user_iff hr (by omega)).mpr ⟨hu, heq.symm⟩)
        · rw [hentry w hw, hclear]
      · -- the trampoline and the trapframe are not
        rw [not_not] at hu
        have hnofree : d = false := by
          by_contra hd
          exact (hfree hne).mpr (by simpa using hd) hu
        obtain ⟨hinv, hframe, hentry⟩ := h.writeLeaf ht (by decide) (.inl rfl) (Nat.zero_and _) hu
        refine PanicM.returns_of_ok (a := ()) (t := s.setLeaf t (a / 4096) 0) ?_
          ⟨o, ⟨hinv, hframe.widen fun _ => Role.TableOf.under, hr⟩, fun w hw => ?_⟩
        · rw [PanicM.bind_of_ok hw, if_neg (by omega)]
          simp [Vm.load, hload, hv, hnofree, Vm.store, Vm.setLeaf]
        · rw [hentry w hw, hclear]

theorem uvmunmapLoop_spec {doFree : Bool} : ∀ n fuel s o a, n ≤ fuel → VmInv L s o →
    o r = some (.table r 2 0) → 4096 ∣ a → a + n * 4096 ≤ 2 ^ 38 →
    (∀ w, a / 4096 ≤ w → w < a / 4096 + n → s.mem.entry r w ≠ 0 →
      (s.mem.entry r w &&& pteU ≠ 0 ↔ doFree = true)) →
    (Vm.uvmunmapLoop L r (a + n * 4096) doFree fuel a).Returns s fun _ s' => ∃ o',
      Edit L r s o s' o' ∧
      ∀ w, w < 2 ^ 27 → s'.mem.entry r w = clearRange (s.mem.entry r) (a / 4096) n w := by
  intro n
  induction n with
  | zero =>
    intro fuel s o a _ h hr _ _ _
    have hstop : Vm.uvmunmapLoop L r (a + 0 * 4096) doFree fuel a s = .ok ((), s) := by
      cases fuel <;> simp [Vm.uvmunmapLoop]
    exact PanicM.returns_of_ok hstop
      ⟨o, .refl h hr, fun w _ => by rw [clearRange_zero]⟩
  | succ n ih =>
    intro fuel s o a hfuel h hr hd ha hfree
    obtain ⟨fuel, rfl⟩ : ∃ k, fuel = k + 1 := ⟨fuel - 1, by omega⟩
    rw [Vm.uvmunmapLoop, if_pos (by omega)]
    refine (uvmunmapPage_spec h hr (by omega) (hfree _ le_rfl (by omega))).bind fun _ s₁ h₁ => ?_
    obtain ⟨o₁, hedit, hentry⟩ := h₁
    rw [show (a + pgsize) % wordSize = a + 4096 by simp only [pgsize, wordSize]; omega,
      show a + (n + 1) * 4096 = a + 4096 + n * 4096 by omega]
    refine (ih fuel s₁ o₁ (a + 4096) (by omega) hedit.inv hedit.root (by omega) (by omega)
      ?_).mono ?_
    · intro w hlo hhi
      rw [hentry w (by omega), clearRange, if_neg (by omega)]
      exact hfree w (by omega) (by omega)
    · rintro _ s₂ ⟨o₂, hedit', hentry'⟩
      refine ⟨o₂, hedit.trans hedit', fun w hw => ?_⟩
      rw [hentry' w hw, ← clearRange_succ, show (a + 4096) / 4096 = a / 4096 + 1 by omega]
      simp only [clearRange, hentry w hw]

/-- **`uvmunmap`** on pages that are user pages exactly when `do_free` is set. -/
theorem uvmunmap_spec {n : ℕ} {d : Bool} (h : VmInv L s o) (hr : o r = some (.table r 2 0))
    (hd : 4096 ∣ va) (hva : va + n * 4096 ≤ 2 ^ 38)
    (hfree : ∀ w, va / 4096 ≤ w → w < va / 4096 + n → s.mem.entry r w ≠ 0 →
      (s.mem.entry r w &&& pteU ≠ 0 ↔ d = true)) :
    (Vm.uvmunmap L r va n d).Returns s fun _ s' => ∃ o', Edit L r s o s' o' ∧
      ∀ w, w < 2 ^ 27 → s'.mem.entry r w = clearRange (s.mem.entry r) (va / 4096) n w := by
  rw [Vm.uvmunmap, if_neg (by simp only [pgsize]; omega),
    show (va + n * pgsize) % wordSize = va + n * 4096 by simp only [pgsize, wordSize]; omega]
  exact uvmunmapLoop_spec n n s o va le_rfl h hr hd hva hfree

end OsKernel
