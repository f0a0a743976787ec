import OsKernel.Vm.Free

/-!
# Growing and copying user memory

`uvmcreate`, `uvmalloc` and `uvmcopy`. The last two repeat one step: take a page from
`kalloc`, fill it, and map it with `PTE_U`; `mapFresh_spec` is the rule for it. When an
allocation fails in the middle, both unmap and free what they had mapped, and the page table
means what it did before.
-/

namespace OsKernel

variable {L : Layout} {s s' s₁ : Vm} {o o' : Owners} {r vpn va perm : ℕ}

/-! ### A fresh user page -/

/-- `kalloc` handed out the page at the bump pointer and the caller has filled it. -/
structure Filled (s s₁ : Vm) : Prop where
  mem : ∀ a, a / 4096 * 4096 ≠ s.freemem → s₁.mem a = s.mem a
  freemem : s₁.freemem = s.freemem + 4096
  freed : s₁.freed = s.freed
  fails : s₁.fails = fun n => s.fails (n + 1)

theorem Filled.agreeOn (h : Filled s s₁) {q : ℕ} (hq : 4096 ∣ q) (hne : q ≠ s.freemem) :
    Mem.AgreeOn s.mem s₁.mem q 4096 := fun i hi => by
  refine h.mem _ ?_
  rwa [show (q + i) / 4096 * 4096 = q by omega]

/-- The page handed out is loose, whatever it was filled with. -/
theorem VmInv.filled (h : VmInv L s o) (hroom : s.freemem + 4096 ≤ L.phystop)
    (hf : Filled s s₁) : VmInv L s₁ (Function.update o s.freemem (some .loose)) := by
  have hgrant := h.grant hroom
  refine hgrant.of_tables ?_ hf.freemem hf.freed fun _ => Iff.rfl
  refine hgrant.tables.congr hgrant.tables.page (fun _ _ _ _ => Iff.rfl) (fun _ _ _ => Iff.rfl)
    fun q r l idx hq i hi => ?_
  have hne : q ≠ s.freemem := by
    rintro rfl
    simp at hq
  have hd := (hgrant.tables.page hq).1
  rw [hf.agreeOn hd hne i hi, Vm.grant_mem]
  exact (Mem.agreeOn_memset h.aligned hd hne.symm 0 i hi).symm

theorem Filled.took (hf : Filled s s₁) (hs : Supply L s 1) : Took L 1 s s₁ :=
  ⟨hs, by rw [hf.freemem, Nat.one_mul], hf.fails⟩

/-- The frame of an operation that goes on with the page handed out and leaves it in the
role `x`. -/
theorem Filled.frame_trans (hf : Filled s s₁) (h : VmInv L s o) {T : Role → Prop} {x : Option Role}
    (hx : ∀ ρ, x = some ρ → T ρ)
    (hframe : Frame L T s₁ (Function.update o s.freemem (some .loose)) s' o') :
    Frame L T s o s' (Function.update o' s.freemem x) := by
  have hstay : ∀ {q ρ}, o q = some ρ → Function.update o s.freemem (some .loose) q = some ρ := by
    intro q ρ hq
    rw [Function.update_of_ne (h.ne_freemem hq), hq]
  constructor
  case role =>
    intro q ρ hq hT
    rw [Function.update_of_ne (h.ne_freemem hq)]
    exact hframe.role q ρ (hstay hq) hT
  case origin =>
    intro q ρ hq
    rcases update_eq_some hq with ⟨-, rfl⟩ | ⟨hne, hq⟩
    · exact .inl (hx ρ rfl)
    · refine (hframe.origin q ρ hq).imp_right fun hq => ?_
      rwa [Function.update_of_ne hne] at hq
  case page =>
    intro q ρ hq hT
    exact (hf.agreeOn (h.tables.page hq).1 (h.ne_freemem hq)).trans (hframe.page q ρ (hstay hq) hT)
  case image =>
    intro a ha
    have := h.heap_le
    exact (hframe.image a ha).trans (hf.mem a (by omega))
  case mono =>
    have := hframe.mono
    rw [hf.freemem] at this
    omega
  case fails =>
    intro n hn
    obtain ⟨k, hk⟩ := hframe.fails n hn
    rw [hf.fails] at hk
    exact ⟨k + 1, hk⟩

theorem Filled.frame (hf : Filled s s₁) (h : VmInv L s o) {T : Role → Prop} {x : Option Role}
    (hx : ∀ ρ, x = some ρ → T ρ) : Frame L T s o s₁ (Function.update o s.freemem x) := by
  have hframe := hf.frame_trans h hx (.refl s₁ (Function.update o s.freemem (some .loose)))
  rwa [Function.update_idem] at hframe

/-- Filling a page changes no page table. -/
theorem Filled.entry (hf : Filled s s₁) (h : VmInv L s o) (hroom : s.freemem + 4096 ≤ L.phystop)
    (hr : o r = some (.table r 2 0)) {w : ℕ} (hw : w < 2 ^ 27) :
    s₁.mem.entry r w = s.mem.entry r w := by
  have hframe : Frame L (· = .loose) s o s₁ (Function.update o s.freemem (some .loose)) :=
    hf.frame h fun ρ hρ => (Option.some.inj hρ).symm
  exact hframe.entry_eq h.tables (h.filled hroom hf).tables hr (fun l idx hρ => by cases hρ) hw

/-- The roles that mapping a page at `vpn` adds. -/
def Role.NewAt (r vpn : ℕ) (ρ : Role) : Prop := ρ.TableOf r ∨ ρ = .user r vpn

theorem Role.NewAt.under {ρ : Role} (h : ρ.NewAt r vpn) : ρ.Under r := by
  rcases h with h | rfl
  · exact h.under
  · rfl

/-- The page handed out in `s` and filled in `s₁` is now the page `vpn` of the table at `r`. -/
structure MapsFresh (L : Layout) (r vpn perm : ℕ) (s s₁ : Vm) (o : Owners) (s' : Vm)
    (o' : Owners) : Prop where
  inv : VmInv L s' o'
  frame : Frame L (Role.NewAt r vpn) s o s' o'
  root : o' r = some (.table r 2 0)
  owner : o' s.freemem = some (.user r vpn)
  tables : o.Extends r vpn o'
  entry : ∀ w, w < 2 ^ 27 → s'.mem.entry r w =
    if w = vpn then pa2pte s.freemem ||| perm ||| pteV else s.mem.entry r w
  contents : Mem.AgreeOn s₁.mem s'.mem s.freemem 4096
  took : Took L (1 + o.missing r vpn) s s'

theorem MapsFresh.edit (h : MapsFresh L r vpn perm s s₁ o s' o') : Edit L r s o s' o' :=
  ⟨h.inv, h.frame.widen fun _ => Role.NewAt.under, h.root⟩

/-- The other pages of the table stay. -/
theorem MapsFresh.keeps (h : MapsFresh L r vpn perm s s₁ o s' o') {w p : ℕ} (hw : w ≠ vpn)
    (hp : o p = some (.user r w)) :
    o' p = some (.user r w) ∧ Mem.AgreeOn s.mem s'.mem p 4096 := by
  have hnew : ¬(Role.user r w).NewAt r vpn := by
    rintro (htable | huser)
    · exact htable
    · cases huser
      exact hw rfl
  exact ⟨h.frame.role p _ hp hnew, h.frame.page p _ hp hnew⟩

/-- What belongs to another page table stays. -/
theorem Role.NewAt.not_under {r' : ℕ} {ρ : Role} (hne : r' ≠ r) (hρ : ρ.Under r') :
    ¬ρ.NewAt r vpn := by
  intro hnew
  have hρ' := hnew.under
  cases ρ with
  | table => exact hne (hρ.symm.trans hρ')
  | user => exact hne (hρ.symm.trans hρ')
  | loose => exact hρ
  | trapframe => exact hρ
  | kstack => exact hρ

theorem MapsFresh.entry_of_ne {r' w : ℕ} (h : MapsFresh L r vpn perm s s₁ o s' o')
    (hinv : VmInv L s o) (hne : r' ≠ r) (hr' : o r' = some (.table r' 2 0)) (hw : w < 2 ^ 27) :
    s'.mem.entry r' w = s.mem.entry r' w :=
  h.frame.entry_eq hinv.tables h.inv.tables hr' (fun _ _ => Role.NewAt.not_under hne rfl) hw

/-- There was no table for the page handed out in `s`, and it was freed. -/
structure LosesFresh (L : Layout) (r vpn : ℕ) (s : Vm) (o : Owners) (s' : Vm) (o' : Owners) :
    Prop where
  poor : ¬Supply L s (1 + o.missing r vpn)
  edit : Edit L r s o s' o'
  entry : ∀ w, w < 2 ^ 27 → s'.mem.entry r w = s.mem.entry r w

section Fresh

variable {s₂ : Vm} {o₂ : Owners} {T : Role → Prop}

/-- Before a page is mapped it is loose, so the tables are those there were. -/
theorem Filled.hasTable_iff (h : VmInv L s o) (l idx : ℕ) :
    Owners.HasTable (Function.update o s.freemem (some .loose)) r l idx ↔ o.HasTable r l idx :=
  Owners.hasTable_update (by simp [h.freemem_none (q := s.freemem) le_rfl]) (by simp)

theorem Filled.loses (hf : Filled s s₁) (h : VmInv L s o) (hr : o r = some (.table r 2 0))
    (hs : Supply L s 1)
    (hgrow : Grow L r T s₁ (Function.update o s.freemem (some .loose)) s₂ o₂)
    (hpoor : ¬Supply L s₁ (o.missing r vpn)) :
    LosesFresh L r vpn s o { s₂ with freed := s.freemem :: s₂.freed }
      (Function.update o₂ s.freemem none) := by
  have hroom : s.freemem + 4096 ≤ L.phystop := by
    have := hs.room
    omega
  have hloose := hgrow.frame.role s.freemem .loose (Function.update_self ..) fun h => h
  have hframe : Frame L (Role.Under r) s o s₂ (Function.update o₂ s.freemem none) :=
    hf.frame_trans h (fun ρ hρ => by cases hρ) (hgrow.frame.widen fun _ => Role.TableOf.under)
  refine ⟨?_, ⟨hgrow.inv.kfree_plain hloose trivial, ⟨hframe.role, hframe.origin, hframe.page,
    hframe.image, hframe.mono, hframe.fails⟩, ?_⟩, fun w hw => ?_⟩
  · rwa [← (hf.took hs).supply_iff]
  · rw [Function.update_of_ne (h.ne_freemem hr)]
    exact hgrow.keep r 2 0 (by rw [Function.update_of_ne (h.ne_freemem hr), hr])
  · exact (hgrow.entry w hw).trans (hf.entry h hroom hr hw)

theorem Filled.maps {t : ℕ} (hf : Filled s s₁) (h : VmInv L s o)
    (hr : o r = some (.table r 2 0)) (hs : Supply L s 1)
    (hgrow : Grow L r (Role.Over r vpn) s₁ (Function.update o s.freemem (some .loose)) s₂ o₂)
    (htook : Took L (o.missing r vpn) s₁ s₂) (ht : o₂ t = some (.table r 0 (vpn / 512)))
    (hinv : VmInv L (s₂.setLeaf t vpn (pa2pte s.freemem ||| perm ||| pteV))
      (Function.update o₂ s.freemem (some (.user r vpn))))
    (hentry : ∀ w, w < 2 ^ 27 →
      (s₂.setLeaf t vpn (pa2pte s.freemem ||| perm ||| pteV)).mem.entry r w =
        if w = vpn then pa2pte s.freemem ||| perm ||| pteV else s₁.mem.entry r w) :
    MapsFresh L r vpn perm s s₁ o (s₂.setLeaf t vpn (pa2pte s.freemem ||| perm ||| pteV))
      (Function.update o₂ s.freemem (some (.user r vpn))) := by
  have hroom : s.freemem + 4096 ≤ L.phystop := by
    have := hs.room
    omega
  have hloose := hgrow.frame.role s.freemem .loose (Function.update_self ..) fun h => h
  constructor
  case inv => exact hinv
  case frame =>
    -- the store to the leaf concerns a table of `r` only
    have hleaf : Frame L (Role.NewAt r vpn) s₂ o₂
        { s₂.setLeaf t vpn (pa2pte s.freemem ||| perm ||| pteV) with freed := s₂.freed }
        (Function.update o₂ t (o₂ t)) := by
      have htable : ∀ ρ, o₂ t = some ρ → ρ.NewAt r vpn := by
        intro ρ hρ
        rw [ht] at hρ
        cases hρ
        exact .inl rfl
      exact Frame.setLeaf hgrow.inv ht (fun _ _ => .inl rfl) htable htable
    rw [Function.update_eq_self] at hleaf
    exact hf.frame_trans h (fun ρ hρ => .inr (Option.some.inj hρ).symm)
      ((hgrow.frame.widen fun _ => .inl).trans hleaf)
  case root =>
    rw [Function.update_of_ne (h.ne_freemem hr)]
    exact hgrow.keep r 2 0 (by rw [Function.update_of_ne (h.ne_freemem hr), hr])
  case owner => exact Function.update_self ..
  case tables =>
    have hx := hgrow.extends ht
    have htables : ∀ l idx, Owners.HasTable
        (Function.update o₂ s.freemem (some (.user r vpn))) r l idx ↔ o₂.HasTable r l idx :=
      fun l idx => Owners.hasTable_update (by simp [hloose]) (by simp)
    exact ⟨fun idx => by rw [htables, hx.one, Filled.hasTable_iff h],
      fun idx => by rw [htables, hx.zero, Filled.hasTable_iff h]⟩
  case entry =>
    intro w hw
    rw [hentry w hw, hf.entry h hroom hr hw]
  case contents =>
    have hne : s.freemem ≠ t := by
      rintro rfl
      rw [hloose] at ht
      cases ht
    exact (hgrow.frame.page _ _ (Function.update_self ..) fun h => h).trans
      (Mem.agreeOn_store64_page (hgrow.inv.tables.page ht).1 h.aligned (by omega) hne)
  case took => exact ((hf.took hs).trans htook).congr rfl rfl

end Fresh

/-- **Rule for mapping a fresh page with `PTE_U`**: it becomes a user page with the contents
it was filled with, or `mappages` fails and the page, once freed, leaves no trace. -/
theorem mapFresh_spec (h : VmInv L s o) (hr : o r = some (.table r 2 0))
    (hs : Supply L s 1) (hf : Filled s s₁) (hperm : perm < 1024)
    (hu : perm &&& pteU ≠ 0) (hrwx : (perm ||| pteV) &&& (pteR ||| pteW ||| pteX) ≠ 0)
    (hd : 4096 ∣ va) (hva : va < 2 ^ 38) (hfree : s.mem.entry r (va / 4096) = 0) :
    (Vm.mappages L r va 4096 s.freemem perm).Returns s₁ fun ok s' =>
      ok = false ∧ (∃ o', LosesFresh L r (va / 4096) s o
          { s' with freed := s.freemem :: s'.freed } o') ∨
        ok = true ∧ ∃ o', MapsFresh L r (va / 4096) perm s s₁ o s' o' := by
  have hroom : s.freemem + 4096 ≤ L.phystop := by
    have := hs.room
    omega
  have hroot : Function.update o s.freemem (some .loose) r = some (.table r 2 0) := by
    rw [Function.update_of_ne (h.ne_freemem hr), hr]
  refine (mappages_user (h.filled hroom hf) hroot hperm hu hrwx hd hva (Function.update_self ..)
    (by rw [hf.entry h hroom hr (by omega), hfree])).mono ?_
  rw [Owners.missing_congr (Filled.hasTable_iff h)]
  rintro ok s' ⟨s₂, o₂, hgrow, ⟨rfl, hpoor, rfl⟩ | ⟨rfl, htook, t, ht, rfl, hinv, hentry⟩⟩
  · exact .inl ⟨rfl, _, hf.loses h hr hs hgrow hpoor⟩
  · exact .inr ⟨rfl, _, hf.maps h hr hs hgrow htook ht hinv hentry⟩

theorem filled_grant (h : VmInv L s o) : Filled s s.grant where
  mem a ha := by
    have := h.aligned
    rw [Vm.grant_mem, Mem.memset_apply, if_neg (by omega)]
  freemem := rfl
  freed := rfl
  fails := rfl

theorem Filled.memset (hf : Filled s s₁) (h : VmInv L s o) (c : UInt8) :
    Filled s { s₁ with mem := s₁.mem.memset s.freemem c 4096 } where
  mem a ha := by
    have := h.aligned
    rw [← hf.mem a ha]
    simp only
    rw [Mem.memset_apply, if_neg (by omega)]
  freemem := hf.freemem
  freed := hf.freed
  fails := hf.fails

/-! ### `uvmcreate` -/

/-- A page without a role is not the root of anything. -/
theorem VmInv.not_under (h : VmInv L s o) (hr : o r = none) {q : ℕ} {ρ : Role}
    (hq : o q = some ρ) : ¬ρ.Under r := by
  intro hρ
  cases ρ with
  | table r' l idx =>
    obtain rfl : r' = r := hρ
    simp [h.tables.rootTable hq] at hr
  | user r' w =>
    obtain rfl : r' = r := hρ
    simp [h.tables.rootUser hq] at hr
  | loose => exact hρ
  | trapframe i => exact hρ
  | kstack i => exact hρ

/-- **Rule for a new root**: the page `kalloc` hands out, cleared, is an empty page table. -/
theorem VmInv.newRoot (h : VmInv L s o) (hroom : s.freemem + 4096 ≤ L.phystop) :
    VmInv L { s.grant with mem := s.grant.mem.memset s.freemem 0 4096 }
        (Function.update o s.freemem (some (.table s.freemem 2 0))) ∧
      Frame L (· = .table s.freemem 2 0) s o
        { s.grant with mem := s.grant.mem.memset s.freemem 0 4096 }
        (Function.update o s.freemem (some (.table s.freemem 2 0))) ∧
      ∀ w, w < 2 ^ 27 →
        Mem.entry (s.grant.mem.memset s.freemem 0 4096) s.freemem w = 0 := by
  have hf := (filled_grant h).memset h 0
  have hinv := h.filled hroom hf
  have hzero : ∀ j, j < 512 →
      Mem.pte (s.grant.mem.memset s.freemem 0 4096) s.freemem j = 0 := fun j hj =>
    Mem.pte_memset hj
  have htables := hinv.tables.newRoot (Function.update_self ..) hzero
  rw [Function.update_idem] at htables
  refine ⟨hinv.of_tables htables rfl rfl fun q => ?_, hf.frame h ?_, fun w hw => ?_⟩
  · by_cases hq : q = s.freemem
    · simp [hq]
    · rw [Function.update_of_ne hq, Function.update_of_ne hq]
  · rintro ρ ⟨⟩
    rfl
  · refine htables.entry_of_no_table (Function.update_self ..) hw fun t ht => ?_
    rcases update_eq_some ht with ⟨-, heq⟩ | ⟨-, ht⟩
    · cases heq
    · exact h.not_under (h.freemem_none le_rfl) ht rfl

/-- **`uvmcreate`** makes an empty page table. -/
theorem uvmcreate_spec (h : VmInv L s o) : (Vm.uvmcreate L).Returns s fun r s' =>
    r = 0 ∧ ¬Supply L s 1 ∧ s' = s.deny ∨
      r ≠ 0 ∧ o r = none ∧ Took L 1 s s' ∧ ∃ o', Edit L r s o s' o' ∧
        (∀ l idx, l < 2 → ¬o'.HasTable r l idx) ∧ ∀ w, w < 2 ^ 27 → s'.mem.entry r w = 0 := by
  rcases h.kalloc with ⟨hk, hs⟩ | ⟨hk, hpos, hs⟩
  · refine PanicM.returns_of_ok (a := 0) (t := s.deny) ?_ (.inl ⟨rfl, hs, rfl⟩)
    rw [Vm.uvmcreate, PanicM.bind_of_ok hk]
    rfl
  · obtain ⟨hinv, hframe, hentry⟩ := h.newRoot (by have := hs.room; omega)
    have htook : Took L 1 s { s.grant with mem := s.grant.mem.memset s.freemem 0 4096 } :=
      (Took.grant hs).congr rfl rfl
    have hunder : ∀ ρ : Role, ρ = .table s.freemem 2 0 → ρ.Under s.freemem := by
      rintro ρ rfl
      rfl
    refine PanicM.returns_of_ok (a := s.freemem)
      (t := { s.grant with mem := s.grant.mem.memset s.freemem 0 4096 }) ?_
      (.inr ⟨hpos, h.freemem_none le_rfl, htook,
        Function.update o s.freemem (some (.table s.freemem 2 0)),
        ⟨hinv, hframe.widen hunder, Function.update_self ..⟩, ?_, ?_⟩)
    · rw [Vm.uvmcreate, PanicM.bind_of_ok hk, if_neg hpos]
      rfl
    · rintro l idx hl ⟨q, hq⟩
      rcases update_eq_some hq with ⟨-, hroot⟩ | ⟨-, hold⟩
      · cases hroot
        omega
      · exact h.not_under (h.freemem_none le_rfl) hold rfl
    · exact hentry

/-! ### `uvmalloc` -/

/-- The page `w` is mapped with the permissions `perm` to a page of zeros. -/
def ZeroPage (m : Mem) (r perm w : ℕ) : Prop :=
  ∃ p, m.entry r w = pa2pte p ||| perm ||| pteV ∧ 4096 ∣ p ∧ p < 2 ^ 64 ∧
    ∀ i, i < 4096 → m (p + i) = 0

/-- What `uvmalloc` has done from address `a` on: the pages below `newsz` are mapped to zeros, or
those it had mapped from `oldsz` on are unmapped again. -/
def AllocatedFrom (L : Layout) (r oldsz newsz perm a : ℕ) (s : Vm) (o : Owners) (v : ℕ)
    (s' : Vm) : Prop :=
  v = newsz ∧ newsz ≤ oldsz + (L.phystop - L.heap) ∧
      (oldsz = 0 → o.Covers r (a / 4096) →
        Took L (userPages ((newsz + 4095) / 4096) - userPages (a / 4096)) s s') ∧
      (∃ o', Edit L r s o s' o' ∧ ∀ w p, w < a / 4096 → o p = some (.user r w) →
        o' p = some (.user r w) ∧ Mem.AgreeOn s.mem s'.mem p 4096) ∧
      (∀ w, w < 2 ^ 27 → (a ≤ w * 4096 → w * 4096 < newsz → ZeroPage s'.mem r perm w) ∧
        (¬(a ≤ w * 4096 ∧ w * 4096 < newsz) → s'.mem.entry r w = s.mem.entry r w)) ∨
    v = 0 ∧ (oldsz = 0 → o.Covers r (a / 4096) →
        ¬Supply L s (userPages ((newsz + 4095) / 4096) - userPages (a / 4096))) ∧
      (∃ o', Edit L r s o s' o') ∧
      ∀ w, w < 2 ^ 27 → s'.mem.entry r w =
        clearRange (s.mem.entry r) (oldsz / 4096) (a / 4096 - oldsz / 4096) w

/-- The loop of `uvmalloc` at address `a`: the pages from `oldsz` to `a` are mapped, and as many
pages have been handed out. So memory runs out before the loop reaches the pages at the top of the
address space, whatever `newsz` is. -/
structure Allocating (L : Layout) (r oldsz newsz a : ℕ) (s : Vm) (o : Owners) : Prop where
  inv : VmInv L s o
  root : o r = some (.table r 2 0)
  start : 4096 ∣ oldsz
  aligned : 4096 ∣ a
  le : oldsz ≤ a
  bound : a ≤ 2 ^ 38
  handed : L.heap + (a - oldsz) ≤ s.freemem
  free : ∀ w, a ≤ w * 4096 → w * 4096 < newsz → w * 4096 < oldsz + (L.phystop - L.heap) →
    w * 4096 < 2 ^ 38 ∧ s.mem.entry r w = 0
  mapped : ∀ w, oldsz / 4096 ≤ w → w < a / 4096 → s.mem.entry r w &&& pteU ≠ 0

namespace Allocating

variable {oldsz newsz a : ℕ}

/-- While there is a page left the next one is free, and the loop is below the last gigabyte. -/
theorem next_free (h : Allocating L r oldsz newsz a s o) (ha : a < newsz)
    (hroom : s.freemem + 4096 ≤ L.phystop) : a < 2 ^ 38 ∧ s.mem.entry r (a / 4096) = 0 := by
  have := h.aligned
  have := h.handed
  have := h.le
  obtain ⟨hlt, hfree⟩ := h.free (a / 4096) (by omega) (by omega) (by omega)
  exact ⟨by omega, hfree⟩

theorem userPages_succ (h : Allocating L r oldsz newsz a s o)
    (hroom : s.freemem + 4096 ≤ L.phystop) (hold : oldsz = 0) (hcov : o.Covers r (a / 4096)) :
    userPages (a / 4096 + 1) = userPages (a / 4096) + (1 + o.missing r (a / 4096)) := by
  have := L.phystop_le
  have := L.lt_heap
  have := h.handed
  exact hcov.userPages_succ (by omega)

/-- A round of the loop. -/
theorem next (h : Allocating L r oldsz newsz a s o) (hlt : a < 2 ^ 38) (hperm : perm < 1024)
    (hu : perm &&& pteU ≠ 0) (hm : MapsFresh L r (a / 4096) perm s s₁ o s' o') :
    Allocating L r oldsz newsz (a + 4096) s' o' := by
  have haligned := h.aligned
  have hle := h.le
  constructor
  case inv => exact hm.inv
  case root => exact hm.root
  case start => exact h.start
  case aligned => omega
  case le => omega
  case bound => omega
  case handed =>
    have := hm.took.freemem
    have := h.handed
    omega
  case free =>
    intro w hlo hhi hmax
    obtain ⟨hw, hfree⟩ := h.free w (by omega) hhi hmax
    refine ⟨hw, ?_⟩
    rw [hm.entry w (by omega), if_neg (by omega), hfree]
  case mapped =>
    intro w hlo hhi
    rw [hm.entry w (by omega)]
    split_ifs with hwa
    · rwa [leafEntry_user hperm]
    · exact h.mapped w hlo (by omega)

end Allocating

section UvmallocLoop

variable {oldsz newsz a v : ℕ} {s₂ : Vm} {o₂ : Owners}

theorem AllocatedFrom.done (h : Allocating L r oldsz newsz a s o) (ha : newsz ≤ a) :
    AllocatedFrom L r oldsz newsz perm a s o newsz s := by
  have hmax := h.inv.le_phystop
  have hhanded := h.handed
  have hle := h.le
  have haligned := h.aligned
  refine .inl ⟨rfl, by omega, fun _ _ => ?_,
    ⟨o, .refl h.inv h.root, fun w p _ hp => ⟨hp, .refl _ _ _⟩⟩, fun w _ => ⟨?_, fun _ => rfl⟩⟩
  · rw [Nat.sub_eq_zero_of_le (userPages_mono (by omega))]
    exact .refl hmax
  · omega

/-- What is done from `a` on is a page at `a` and what is done from there. -/
theorem AllocatedFrom.of_next (h : Allocating L r oldsz newsz a s o) (ha : a < newsz)
    (hroom : s.freemem + 4096 ≤ L.phystop) (hm : MapsFresh L r (a / 4096) perm s s₁ o s₂ o₂)
    (hzero : ∀ i, i < 4096 → s₁.mem (s.freemem + i) = 0)
    (hrest : AllocatedFrom L r oldsz newsz perm (a + 4096) s₂ o₂ v s') :
    AllocatedFrom L r oldsz newsz perm a s o v s' := by
  have haligned := h.aligned
  have hcost := h.userPages_succ hroom
  have hpages : userPages (a / 4096 + 1) ≤ userPages ((newsz + 4095) / 4096) :=
    userPages_mono (by omega)
  rw [AllocatedFrom, show (a + 4096) / 4096 = a / 4096 + 1 by omega] at hrest
  rcases hrest with ⟨rfl, hmax, htook, ⟨o₃, hedit, hkeep⟩, hentry⟩ |
    ⟨rfl, hpoor, ⟨o₃, hedit⟩, hentry⟩
  · refine .inl ⟨rfl, hmax, fun hold hcov => ?_, ⟨o₃, hm.edit.trans hedit, fun w p hw hp => ?_⟩,
      fun w hw => ⟨fun hlo hhi => ?_, fun hout => ?_⟩⟩
    · have htake := hm.took.trans (htook hold (hcov.succ hm.tables))
      have := hcost hold hcov
      rwa [show 1 + o.missing r (a / 4096) + (userPages ((v + 4095) / 4096) -
        userPages (a / 4096 + 1)) = userPages ((v + 4095) / 4096) - userPages (a / 4096) by
          omega] at htake
    · obtain ⟨hp₂, hagree₂⟩ := hm.keeps (by omega) hp
      obtain ⟨hp₃, hagree₃⟩ := hkeep w p (by omega) hp₂
      exact ⟨hp₃, hagree₂.trans hagree₃⟩
    · rcases Nat.lt_or_ge (w * 4096) (a + 4096) with hwa | hwa
      · -- the page mapped in this round
        obtain rfl : w = a / 4096 := by omega
        obtain ⟨-, hagree⟩ := hkeep _ _ (by omega) hm.owner
        refine ⟨s.freemem, ?_, h.inv.aligned, ?_, fun i hi => ?_⟩
        · rw [(hentry _ hw).2 (by omega), hm.entry _ hw, if_pos rfl]
        · have := L.phystop_le
          omega
        · rw [hagree i hi, hm.contents i hi, hzero i hi]
      · exact (hentry w hw).1 hwa hhi
    · rw [(hentry w hw).2 (by omega), hm.entry w hw, if_neg (by omega)]
  · refine .inr ⟨rfl, fun hold hcov hsupply => ?_, ⟨o₃, hm.edit.trans hedit⟩, fun w hw => ?_⟩
    · have := hcost hold hcov
      refine hpoor hold (hcov.succ hm.tables) (hm.took.supply_iff.mpr (hsupply.mono ?_))
      omega
    · have hfree := (h.next_free ha hroom).2
      have hle := h.le
      have hstart := h.start
      rw [hentry w hw]
      simp only [clearRange, hm.entry w hw]
      by_cases hwa : w = a / 4096
      · rw [if_pos (by omega), if_neg (by omega), hwa, hfree]
      · split_ifs <;> first | rfl | omega

/-- The cleanup of `uvmalloc`: after a failed allocation the pages mapped so far are unmapped. -/
theorem uvmalloc_undo (h : Allocating L r oldsz newsz a s o) (hedit : Edit L r s o s₂ o₂)
    (hsame : ∀ w, w < 2 ^ 27 → s₂.mem.entry r w = s.mem.entry r w)
    (hpoor : oldsz = 0 → o.Covers r (a / 4096) →
      ¬Supply L s (userPages ((newsz + 4095) / 4096) - userPages (a / 4096))) :
    (do let _ ← Vm.uvmdealloc L r a oldsz; return 0 : VmM ℕ).Returns s₂
      (AllocatedFrom L r oldsz newsz perm a s o) := by
  have haligned := h.aligned
  have hstart := h.start
  have hbound := h.bound
  refine (uvmdealloc_spec hedit.inv hedit.root h.bound h.le fun w hlo hhi _ => ?_).bind ?_
  · rw [hsame w (by omega)]
    exact h.mapped w (by omega) (by omega)
  · rintro v s₃ ⟨-, o₃, hedit₃, hentry⟩
    rw [PanicM.returns_pure]
    refine .inr ⟨rfl, hpoor, ⟨o₃, hedit.trans hedit₃⟩, fun w hw => ?_⟩
    rw [hentry w hw, show (oldsz + 4095) / 4096 = oldsz / 4096 by omega,
      show (a + 4095) / 4096 = a / 4096 by omega]
    simp only [clearRange, hsame w hw]

end UvmallocLoop

/-- The loop of `uvmalloc` at address `a`. -/
theorem uvmallocLoop_spec {oldsz newsz xperm : ℕ} (hperm : pteR ||| pteU ||| xperm < 1024)
    (hu : (pteR ||| pteU ||| xperm) &&& pteU ≠ 0)
    (hrwx : (pteR ||| pteU ||| xperm ||| pteV) &&& (pteR ||| pteW ||| pteX) ≠ 0) :
    ∀ fuel s o a, newsz ≤ a + fuel * 4096 → Allocating L r oldsz newsz a s o →
    (Vm.uvmallocLoop L r oldsz newsz xperm fuel a).Returns s
      (AllocatedFrom L r oldsz newsz (pteR ||| pteU ||| xperm) a s o) := by
  intro fuel
  induction fuel with
  | zero =>
    intro s o a hfuel h
    rw [Vm.uvmallocLoop, if_neg (by omega), PanicM.returns_pure]
    exact .done h (by omega)
  | succ fuel ih =>
    intro s o a hfuel h
    rw [Vm.uvmallocLoop]
    by_cases ha : a < newsz
    swap
    · rw [if_neg ha, PanicM.returns_pure]
      exact .done h (by omega)
    rw [if_pos ha]
    have haligned := h.aligned
    have hpages : userPages (a / 4096 + 1) ≤ userPages ((newsz + 4095) / 4096) :=
      userPages_mono (by omega)
    rcases h.inv.kalloc with ⟨hk, hs⟩ | ⟨hk, hpos, hs⟩
    · -- no page: what was mapped so far is unmapped again
      rw [PanicM.returns_bind_of_ok hk, if_pos rfl]
      refine uvmalloc_undo h ⟨h.inv.deny, .deny s o, h.root⟩ (fun _ _ => rfl)
        fun _ _ hsupply => hs (hsupply.mono ?_)
      have := userPages_lt (a / 4096)
      omega
    · have hroom : s.freemem + 4096 ≤ L.phystop := by
        have := hs.room
        omega
      obtain ⟨hlt, hfree⟩ := h.next_free ha hroom
      have hf := (filled_grant h.inv).memset h.inv 0
      rw [PanicM.returns_bind_of_ok hk, if_neg hpos]
      simp only [Vm.memset, PanicM.returns_update_bind]
      refine (mapFresh_spec h.inv h.root hs hf hperm hu hrwx haligned hlt hfree).bind ?_
      rintro ok s₂ (⟨rfl, o₂, hlost⟩ | ⟨rfl, o₂, hm⟩)
      · -- no table for the page: it is freed, and the pages before it are unmapped
        simp only [Bool.false_eq_true, if_false, Vm.kfree, PanicM.returns_update_bind]
        refine uvmalloc_undo h hlost.edit hlost.entry fun hold hcov hsupply =>
          hlost.poor (hsupply.mono ?_)
        have := h.userPages_succ hroom hold hcov
        omega
      · rw [if_pos rfl, show (a + pgsize) % wordSize = a + 4096 by
          simp only [pgsize, wordSize]; omega]
        refine (ih s₂ o₂ (a + 4096) (by omega) (h.next hlt hperm hu hm)).mono fun v s₃ hrest => ?_
        refine .of_next h ha hroom hm (fun i hi => ?_) hrest
        simp only
        rw [Mem.memset_apply, if_pos (by omega)]

/-- **`uvmalloc`** grows user memory by zeroed pages, or runs out of pages and changes nothing.
Beyond the pages there are it need not be known what is mapped. -/
theorem uvmalloc_spec {oldsz newsz xperm : ℕ} (hperm : pteR ||| pteU ||| xperm < 1024)
    (hu : (pteR ||| pteU ||| xperm) &&& pteU ≠ 0)
    (hrwx : (pteR ||| pteU ||| xperm ||| pteV) &&& (pteR ||| pteW ||| pteX) ≠ 0)
    (h : VmInv L s o) (hr : o r = some (.table r 2 0)) (hle : oldsz ≤ newsz)
    (holdsz : oldsz ≤ 2 ^ 38)
    (hfree : ∀ w, (oldsz + 4095) / 4096 ≤ w → w * 4096 < newsz →
      w < (oldsz + 4095) / 4096 + (L.phystop - L.heap) / 4096 →
      w * 4096 < 2 ^ 38 ∧ s.mem.entry r w = 0) :
    (Vm.uvmalloc L r oldsz newsz xperm).Returns s fun v s' =>
      v = newsz ∧ newsz ≤ (oldsz + 4095) / 4096 * 4096 + (L.phystop - L.heap) ∧
          (oldsz = 0 → o.Covers r 0 → Took L (userPages ((newsz + 4095) / 4096)) s s') ∧
          (∃ o', Edit L r s o s' o') ∧
          (∀ w, w < 2 ^ 27 → ((oldsz + 4095) / 4096 ≤ w → w * 4096 < newsz →
              ZeroPage s'.mem r (pteR ||| pteU ||| xperm) w) ∧
            (¬((oldsz + 4095) / 4096 ≤ w ∧ w * 4096 < newsz) →
              s'.mem.entry r w = s.mem.entry r w)) ∨
        v = 0 ∧
          (oldsz = 0 → o.Covers r 0 → ¬Supply L s (userPages ((newsz + 4095) / 4096))) ∧
          (∃ o', Edit L r s o s' o') ∧ ∀ w, w < 2 ^ 27 → s'.mem.entry r w = s.mem.entry r w := by
  have hpages := L.phystop_aligned
  have hheap := L.heap_aligned
  rw [Vm.uvmalloc, if_neg (by omega), pgRoundUp_eq (by omega)]
  have hstart : Allocating L r ((oldsz + 4095) / 4096 * 4096) newsz ((oldsz + 4095) / 4096 * 4096)
      s o := by
    have := h.heap_le
    refine ⟨h, hr, Nat.dvd_mul_left _ _, Nat.dvd_mul_left _ _, le_rfl, by omega, by omega, ?_, ?_⟩
    · exact fun w hlo hhi hmax => hfree w (by omega) hhi (by omega)
    · omega
  refine (uvmallocLoop_spec hperm hu hrwx _ s o _ ?_ hstart).mono ?_
  · simp only [pgsize]
    omega
  · rintro v s' (⟨rfl, hmax, htook, ⟨o', hedit, -⟩, hpages⟩ | ⟨rfl, hpoor, hedit, hentry⟩)
    · refine .inl ⟨rfl, hmax, ?_, ⟨o', hedit⟩, fun w hw => ⟨fun hlo hhi => ?_, fun hout => ?_⟩⟩
      · rintro rfl hcov
        exact htook rfl hcov
      · exact (hpages w hw).1 (by omega) hhi
      · exact (hpages w hw).2 (by omega)
    · refine .inr ⟨rfl, ?_, hedit, fun w hw => ?_⟩
      · rintro rfl hcov
        exact hpoor rfl hcov
      · rw [hentry w hw, Nat.sub_self, clearRange_zero]

/-! ### `uvmcopy` -/

theorem Filled.memmove (hf : Filled s s₁) (h : VmInv L s o) (src : ℕ) :
    Filled s { s₁ with mem := s₁.mem.memmove s.freemem src 4096 } where
  mem a ha := by
    have := h.aligned
    rw [← hf.mem a ha]
    simp only
    rw [Mem.memmove_apply, if_neg (by omega)]
  freemem := hf.freemem
  freed := hf.freed
  fails := hf.fails

/-- The page table at `new` maps the page `w` in `m'` with the flags and to a copy of the
contents that the page table at `old` had in `m`. -/
def CopiedPage (m m' : Mem) (old new w : ℕ) : Prop :=
  ∃ p, m'.entry new w = pa2pte p ||| pteFlags (m.entry old w) ||| pteV ∧ 4096 ∣ p ∧ p < 2 ^ 64 ∧
    ∀ j, j < 4096 → m' (p + j) = m (pte2pa (m.entry old w) + j)

/-- The loop of `uvmcopy` at address `i`: the child has user pages below `i`, and none from there
to `sz`. -/
structure Copying (L : Layout) (old new sz i : ℕ) (s : Vm) (o : Owners) : Prop where
  inv : VmInv L s o
  parent : o old = some (.table old 2 0)
  child : o new = some (.table new 2 0)
  aligned : 4096 ∣ i
  user : ∀ w, w * 4096 < sz → s.mem.entry old w ≠ 0 → s.mem.entry old w &&& pteU ≠ 0
  empty : ∀ w, i ≤ w * 4096 → w * 4096 < sz → s.mem.entry new w = 0
  mapped : ∀ w, w < i / 4096 → s.mem.entry new w ≠ 0 → s.mem.entry new w &&& pteU ≠ 0

section UvmcopyLoop

variable {old new sz i : ℕ} {s₂ : Vm} {o₂ : Owners}

/-- A round in which the parent has no page. -/
theorem Copying.skip (h : Copying L old new sz i s o) (hi : i < sz) :
    Copying L old new sz (i + 4096) s o := by
  have haligned := h.aligned
  refine ⟨h.inv, h.parent, h.child, by omega, h.user, fun w hlo hhi => ?_, fun w hw hne0 => ?_⟩
  · exact h.empty w (by omega) hhi
  · refine h.mapped w ?_ hne0
    by_contra hwi
    exact hne0 (h.empty w (by omega) (by omega))

/-- A round in which a page of the parent is copied. -/
theorem Copying.next (h : Copying L old new sz i s o) (hne : old ≠ new) (hsz : sz ≤ 2 ^ 38)
    (hi : i < sz) (hperm : perm < 1024) (hu : perm &&& pteU ≠ 0)
    (hm : MapsFresh L new (i / 4096) perm s s₁ o s₂ o₂) :
    Copying L old new sz (i + 4096) s₂ o₂ := by
  have haligned := h.aligned
  constructor
  case inv => exact hm.inv
  case parent => exact hm.frame.role old _ h.parent (Role.NewAt.not_under hne rfl)
  case child => exact hm.root
  case aligned => omega
  case user =>
    intro w hw
    rw [hm.entry_of_ne h.inv hne h.parent (by omega)]
    exact h.user w hw
  case empty =>
    intro w hlo hhi
    rw [hm.entry w (by omega), if_neg (by omega)]
    exact h.empty w (by omega) hhi
  case mapped =>
    intro w hw
    rw [hm.entry w (by omega)]
    split_ifs with hwi
    · intro _
      rwa [leafEntry_user hperm]
    · exact h.mapped w (by omega)

/-- What `uvmcopy` has done from address `i` on: the pages of the parent are copied, or the
child has no page below `sz` left. A page of the child needs at most two tables. -/
def CopiedFrom (L : Layout) (old new sz i : ℕ) (s : Vm) (o : Owners) (ok : Bool) (s' : Vm) : Prop :=
  ok = true ∧ (∃ o', Edit L new s o s' o' ∧
      ∀ w p, w < i / 4096 → o p = some (.user new w) →
        o' p = some (.user new w) ∧ Mem.AgreeOn s.mem s'.mem p 4096) ∧
      (∀ w, w < 2 ^ 27 → (i ≤ w * 4096 → w * 4096 < sz → s.mem.entry old w ≠ 0 →
          CopiedPage s.mem s'.mem old new w) ∧
        (¬(i ≤ w * 4096 ∧ w * 4096 < sz ∧ s.mem.entry old w ≠ 0) →
          s'.mem.entry new w = s.mem.entry new w)) ∨
    ok = false ∧ ¬Supply L s (3 * ((sz + 4095) / 4096 - i / 4096)) ∧
      (∃ o', Edit L new s o s' o') ∧
      ∀ w, w < 2 ^ 27 → s'.mem.entry new w = if w * 4096 < sz then 0 else s.mem.entry new w

theorem CopiedFrom.done (h : Copying L old new sz i s o) (hi : sz ≤ i) :
    CopiedFrom L old new sz i s o true s := by
  refine .inl ⟨rfl, ⟨o, .refl h.inv h.child, fun w p _ hp => ⟨hp, .refl _ _ _⟩⟩,
    fun w _ => ⟨?_, fun _ => rfl⟩⟩
  omega

theorem CopiedFrom.of_skip {ok : Bool} (hd : 4096 ∣ i) (h0 : s.mem.entry old (i / 4096) = 0)
    (hrest : CopiedFrom L old new sz (i + 4096) s o ok s') :
    CopiedFrom L old new sz i s o ok s' := by
  rcases hrest with ⟨rfl, ⟨o', hedit, hkeep⟩, hpages⟩ | ⟨rfl, hpoor, hedit⟩
  · refine .inl ⟨rfl, ⟨o', hedit, fun w p hw hp => hkeep w p (by omega) hp⟩,
      fun w hw => ⟨fun hlo hhi hne0 => ?_, fun hout => ?_⟩⟩
    · refine (hpages w hw).1 ?_ hhi hne0
      by_contra hwi
      exact hne0 ((show w = i / 4096 by omega) ▸ h0)
    · exact (hpages w hw).2 fun hin => hout ⟨by omega, hin.2⟩
  · exact .inr ⟨rfl, fun hsupply => hpoor (hsupply.mono (by omega)), hedit⟩

/-- What is done from `i` on is the copy of a page at `i` and what is done from there. -/
theorem CopiedFrom.of_next {ok : Bool} (h : Copying L old new sz i s o) (hne : old ≠ new)
    (hi : i < sz) (hroom : s.freemem + 4096 ≤ L.phystop)
    (hm : MapsFresh L new (i / 4096) (pteFlags (s.mem.entry old (i / 4096))) s s₁ o s₂ o₂)
    (hcopy : ∀ j, j < 4096 →
      s₁.mem (s.freemem + j) = s.mem (pte2pa (s.mem.entry old (i / 4096)) + j))
    (hne0 : s.mem.entry old (i / 4096) ≠ 0)
    (hrest : CopiedFrom L old new sz (i + 4096) s₂ o₂ ok s') :
    CopiedFrom L old new sz i s o ok s' := by
  have haligned := h.aligned
  have hparent : ∀ {w}, w < 2 ^ 27 → s₂.mem.entry old w = s.mem.entry old w := fun hw =>
    hm.entry_of_ne h.inv hne h.parent hw
  rcases hrest with ⟨rfl, ⟨o₃, hedit, hkeep⟩, hpages⟩ | ⟨rfl, hpoor, ⟨o₃, hedit⟩, hentry⟩
  · refine .inl ⟨rfl, ⟨o₃, hm.edit.trans hedit, fun w p hw hp => ?_⟩,
      fun w hw => ⟨fun hlo hhi hw0 => ?_, fun hout => ?_⟩⟩
    · obtain ⟨hp₂, hagree₂⟩ := hm.keeps (by omega) hp
      obtain ⟨hp₃, hagree₃⟩ := hkeep w p (by omega) hp₂
      exact ⟨hp₃, hagree₂.trans hagree₃⟩
    · rcases Nat.lt_or_ge (w * 4096) (i + 4096) with hwi | hwi
      · -- the page copied in this round
        obtain rfl : w = i / 4096 := by omega
        obtain ⟨-, hagree⟩ := hkeep _ _ (by omega) hm.owner
        refine ⟨s.freemem, ?_, h.inv.aligned, ?_, fun j hj => ?_⟩
        · rw [(hpages _ hw).2 (by omega), hm.entry _ hw, if_pos rfl]
        · have := L.phystop_le
          omega
        · rw [hagree j hj, hm.contents j hj, hcopy j hj]
      · -- a page copied later, which the parent still had then
        obtain ⟨p, hpe, hpd, hplt, hpc⟩ := (hpages w hw).1 hwi hhi (by rwa [hparent hw])
        rw [hparent hw] at hpe hpc
        have hsrc : o (pte2pa (s.mem.entry old w)) = some (.user old w) :=
          (h.inv.tables.user_iff h.parent hw).mpr ⟨h.user w (by omega) hw0, rfl⟩
        refine ⟨p, hpe, hpd, hplt, fun j hj => ?_⟩
        rw [hpc j hj, hm.frame.page _ _ hsrc (Role.NewAt.not_under hne rfl) j hj]
    · rw [(hpages w hw).2 ?_, hm.entry w hw, if_neg ?_]
      · rintro rfl
        exact hout ⟨by omega, by omega, hne0⟩
      · rintro ⟨hlo, hhi, hw0⟩
        rw [hparent hw] at hw0
        exact hout ⟨by omega, hhi, hw0⟩
  · have hcost := o.missing_le new (i / 4096)
    refine .inr ⟨rfl, fun hsupply => hpoor (hm.took.supply_iff.mpr (hsupply.mono (by omega))),
      ⟨o₃, hm.edit.trans hedit⟩, fun w hw => ?_⟩
    rw [hentry w hw, hm.entry w hw]
    split_ifs <;> first | rfl | omega

/-- The cleanup of `uvmcopy`: after a failed allocation the pages copied so far are unmapped. -/
theorem uvmcopy_undo (h : Copying L old new sz i s o) (hsz : sz ≤ 2 ^ 38) (hi : i < sz)
    (hedit : Edit L new s o s₂ o₂)
    (hsame : ∀ w, w < 2 ^ 27 → s₂.mem.entry new w = s.mem.entry new w)
    (hpoor : ¬Supply L s (3 * ((sz + 4095) / 4096 - i / 4096))) :
    (do Vm.uvmunmap L new 0 (i / pgsize) true; return false : VmM Bool).Returns s₂
      (CopiedFrom L old new sz i s o) := by
  have haligned := h.aligned
  refine (uvmunmap_spec (n := i / 4096) hedit.inv hedit.root (dvd_zero _) (by omega)
    fun w _ hw hne => ⟨fun _ => rfl, fun _ => ?_⟩).bind ?_
  · rw [hsame w (by omega)] at hne ⊢
    exact h.mapped w (by omega) hne
  · rintro _ s₃ ⟨o₃, hedit₃, hentry⟩
    rw [PanicM.returns_pure]
    refine .inr ⟨rfl, hpoor, ⟨o₃, hedit.trans hedit₃⟩, fun w hw => ?_⟩
    rw [hentry w hw, clearRange, hsame w hw]
    split_ifs with hcleared hbelow
    · rfl
    · omega
    · exact h.empty w (by omega) (by assumption)
    · rfl

end UvmcopyLoop

/-- The loop of `uvmcopy` at address `i`. -/
theorem uvmcopyLoop_spec {old new sz : ℕ} (hne : old ≠ new) (hsz : sz ≤ 2 ^ 38) :
    ∀ fuel s o i, sz ≤ i + fuel * 4096 → Copying L old new sz i s o →
    (Vm.uvmcopyLoop L old new sz fuel i).Returns s (CopiedFrom L old new sz i s o) := by
  intro fuel
  induction fuel with
  | zero =>
    intro s o i hfuel h
    rw [Vm.uvmcopyLoop, if_neg (by omega), PanicM.returns_pure]
    exact .done h (by omega)
  | succ fuel ih =>
    intro s o i hfuel h
    rw [Vm.uvmcopyLoop]
    by_cases hi : i < sz
    swap
    · rw [if_neg hi, PanicM.returns_pure]
      exact .done h (by omega)
    have haligned := h.aligned
    have hnext : (i + pgsize) % wordSize = i + 4096 := by
      simp only [pgsize, wordSize]
      omega
    -- a page the parent does not map is skipped
    have hskip : s.mem.entry old (i / 4096) = 0 →
        (Vm.uvmcopyLoop L old new sz fuel (i + 4096)).Returns s
          (CopiedFrom L old new sz i s o) := fun h0 =>
      (ih s o (i + 4096) (by omega) (h.skip hi)).mono fun _ _ => .of_skip haligned h0
    rw [if_pos hi, hnext]
    rcases walk_false (L := L) h.inv.tables h.parent (show i < 2 ^ 38 by omega) with
      ⟨hw, h0⟩ | ⟨t, ht, ht0, hw, hload⟩
    · rw [PanicM.returns_bind_of_ok hw, if_pos rfl]
      exact hskip h0
    rw [PanicM.returns_bind_of_ok hw, if_neg (by omega)]
    simp only [Vm.load, PanicM.returns_read_bind, hload]
    rcases h.inv.tables.entry_leaf h.parent (show i / 4096 < 2 ^ 27 by omega) with h0 | hleaf
    · rw [h0, if_pos (Nat.zero_and _)]
      exact hskip h0
    rw [if_neg hleaf.1]
    set e := s.mem.entry old (i / 4096) with he
    have hne0 : e ≠ 0 := fun h0 => hleaf.1 (by rw [h0, Nat.zero_and])
    have heu := h.user (i / 4096) (by omega) hne0
    have hsrc : o (pte2pa e) = some (.user old (i / 4096)) :=
      (h.inv.tables.user_iff h.parent (by omega)).mpr ⟨heu, rfl⟩
    rcases h.inv.kalloc with ⟨hk, hs⟩ | ⟨hk, hpos, hs⟩
    · rw [PanicM.returns_bind_of_ok hk, if_pos rfl]
      exact uvmcopy_undo h hsz hi ⟨h.inv.deny, .deny s o, h.child⟩ (fun _ _ => rfl)
        fun hsupply => hs (hsupply.mono (by omega))
    rw [PanicM.returns_bind_of_ok hk, if_neg hpos]
    have hf := (filled_grant h.inv).memmove h.inv (pte2pa e)
    have hflags : pteFlags e < 1024 := by
      rw [pteFlags_eq]
      omega
    have hfu : pteFlags e &&& pteU ≠ 0 := by
      rwa [← and_eq_pteFlags_and (by decide)]
    simp only [Vm.memmove, PanicM.returns_update_bind]
    refine (mapFresh_spec h.inv h.child hs hf hflags hfu ?_ haligned (by omega)
      (h.empty _ (by omega) (by omega))).bind ?_
    · rw [Nat.and_or_distrib_right, show pteV &&& (pteR ||| pteW ||| pteX) = 0 from rfl,
        Nat.or_zero, ← and_eq_pteFlags_and (by decide)]
      exact hleaf.2
    rintro ok s₂ (⟨rfl, o₂, hlost⟩ | ⟨rfl, o₂, hm⟩)
    · simp only [Bool.false_eq_true, if_false, Vm.kfree, PanicM.returns_update_bind]
      have := o.missing_le new (i / 4096)
      exact uvmcopy_undo h hsz hi hlost.edit hlost.entry fun hsupply =>
        hlost.poor (hsupply.mono (by omega))
    · rw [if_pos rfl]
      have hroom : s.freemem + 4096 ≤ L.phystop := by
        have := hs.room
        omega
      refine (ih s₂ o₂ (i + 4096) (by omega) (h.next hne hsz hi hflags hfu hm)).mono
        fun _ _ => .of_next h hne hi hroom hm (fun j hj => ?_) hne0
      simp only
      rw [Mem.memmove_apply, if_pos (by omega), Nat.add_sub_cancel_left,
        (filled_grant h.inv).agreeOn (h.inv.tables.page hsrc).1 (h.inv.ne_freemem hsrc) j hj]

/-- **`uvmcopy`** copies the parent's user pages below `sz`, or runs out of pages and leaves
none of them in the child. -/
theorem uvmcopy_spec {old new sz : ℕ} (hne : old ≠ new) (hsz : sz ≤ 2 ^ 38) (h : VmInv L s o)
    (hold : o old = some (.table old 2 0)) (hnew : o new = some (.table new 2 0))
    (huser : ∀ w, w * 4096 < sz → s.mem.entry old w ≠ 0 → s.mem.entry old w &&& pteU ≠ 0)
    (hempty : ∀ w, w * 4096 < sz → s.mem.entry new w = 0) :
    (Vm.uvmcopy L old new sz).Returns s (CopiedFrom L old new sz 0 s o) := by
  rw [Vm.uvmcopy]
  have hstart : Copying L old new sz 0 s o :=
    ⟨h, hold, hnew, dvd_zero _, huser, fun w _ hw => hempty w hw, fun w hw => by omega⟩
  refine uvmcopyLoop_spec hne hsz _ s o 0 ?_ hstart
  simp only [pgsize]
  omega

end OsKernel
