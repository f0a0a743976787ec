import OsKernel.Vm.Copy

/-!
# The page table of a process

`proc_pagetable` and `proc_freepagetable` of `proc.c`, and the shape every user page table has:
user pages from address 0 up to the size of the process, the trapframe and the trampoline at
the top, and nothing else.
-/

namespace OsKernel

namespace Vm

variable (L : Layout)

/-- `proc_pagetable(p)` for a process with its trapframe in page `tf`. -/
def procPagetable (tf : ℕ) : VmM ℕ := do
  let pagetable ← uvmcreate L
  if pagetable = 0 then
    return 0
  else
    let ok ← mappages L pagetable trampolineVa pgsize L.trampoline (pteR ||| pteX)
    if ok then
      let ok ← mappages L pagetable trapframeVa pgsize tf (pteR ||| pteW)
      if ok then
        return pagetable
      else
        uvmunmap L pagetable trampolineVa 1 false
        uvmfree L pagetable 0
        return 0
    else
      uvmfree L pagetable 0
      return 0

/-- `proc_freepagetable`. -/
def procFreepagetable (pagetable sz : ℕ) : VmM Unit := do
  uvmunmap L pagetable trampolineVa 1 false
  uvmunmap L pagetable trapframeVa 1 false
  uvmfree L pagetable sz

end Vm

variable {L : Layout} {s s' : Vm} {o o' : Owners} {r sz tf : ℕ}

/-- The virtual page of the trapframe. -/
def trapframeVpn : ℕ := 2 ^ 26 - 2

/-- The virtual page of the trampoline. -/
def trampolineVpn : ℕ := 2 ^ 26 - 1

/-- The flags of a user page: `V`, `R`, `W`, `X` and `U`. -/
def userFlags : ℕ := pteV ||| pteR ||| pteW ||| pteX ||| pteU

/-- **The shape of a user page table**: the pages below `sz` for the user, the trapframe and
the trampoline not for the user, nothing else. -/
structure UserShape (L : Layout) (m : Mem) (r sz tf : ℕ) : Prop where
  size : sz ≤ trapframeVa
  user : ∀ w, w * 4096 < sz → pteFlags (m.entry r w) = userFlags
  trapframe : m.entry r trapframeVpn = pa2pte tf ||| (pteR ||| pteW) ||| pteV
  trampoline : m.entry r trampolineVpn = pa2pte L.trampoline ||| (pteR ||| pteX) ||| pteV
  empty : ∀ w, w < 2 ^ 27 → sz ≤ w * 4096 → w ≠ trapframeVpn → w ≠ trampolineVpn →
    m.entry r w = 0

theorem UserShape.user_ne_zero (h : UserShape L s.mem r sz tf) {w f : ℕ} (hw : w * 4096 < sz)
    (hf : f < 1024) (hfu : userFlags &&& f ≠ 0) : s.mem.entry r w &&& f ≠ 0 := by
  rwa [and_eq_pteFlags_and hf, h.user w hw]

/-- The shape depends on the meaning of the page table only. -/
theorem UserShape.congr {m m' : Mem} (h : UserShape L m r sz tf)
    (hentry : ∀ w, w < 2 ^ 27 → m'.entry r w = m.entry r w) : UserShape L m' r sz tf where
  size := h.size
  user w hw := by
    have := h.size
    simp only [trapframeVa, trampolineVa, maxva, pgsize] at this
    rw [hentry w (by omega), h.user w hw]
  trapframe := by rw [hentry _ (by decide), h.trapframe]
  trampoline := by rw [hentry _ (by decide), h.trampoline]
  empty w hw hlo hne hne' := by rw [hentry w hw, h.empty w hw hlo hne hne']

/-- The frame of building a page table and taking it down again. -/
theorem Gone.frame_nothing (h : VmInv L s o) (hr : o r = none) (hg : Gone L r s o s' o')
    (T : Role → Prop) : Frame L T s o s' o' where
  role q ρ hq _ := hg.frame.role q ρ hq (h.not_under hr hq)
  origin q ρ hq := .inr ((hg.frame.origin q ρ hq).resolve_left (hg.gone q ρ hq))
  page q ρ hq _ := hg.frame.page q ρ hq (h.not_under hr hq)
  image := hg.frame.image
  mono := hg.frame.mono
  fails := hg.frame.fails

/-- `mappages` of a single page. -/
theorem mappages_one {va pa perm : ℕ} (h : VmInv L s o) (hr : o r = some (.table r 2 0))
    (hperm : perm < 1024) (hu : perm &&& pteU = 0)
    (hrwx : (perm ||| pteV) &&& (pteR ||| pteW ||| pteX) ≠ 0) (hd : 4096 ∣ va)
    (hva : va + 4096 ≤ 2 ^ 38) (hpa : pa + 4096 ≤ 2 ^ 64)
    (hfree : s.mem.entry r (va / 4096) = 0) :
    (Vm.mappages L r va 4096 pa perm).Returns s fun ok s' => ∃ o',
      Remap L r (Role.OverRange r (va / 4096) 1) s o s' o' ∧
      (ok = true ∧ (∀ w, w < 2 ^ 27 → s'.mem.entry r w =
          if w = va / 4096 then pa2pte pa ||| perm ||| pteV else s.mem.entry r w) ∧
          Took L (o.missing r (va / 4096)) s s' ∧ o.Extends r (va / 4096) o' ∨
        ok = false ∧ ¬Supply L s (o.missing r (va / 4096)) ∧
          ∀ w, w < 2 ^ 27 → s'.mem.entry r w = s.mem.entry r w) := by
  have hlast : (va + 4096 - pgsize) % wordSize = va := by
    simp only [pgsize, wordSize]
    omega
  rw [Vm.mappages, if_neg (by simp only [pgsize]; omega), if_neg (by simp only [pgsize]; omega),
    if_neg (by omega), hlast, show 4096 / pgsize = 0 + 1 from rfl]
  refine mappagesLoop_plain h hr hperm hu hrwx (by omega) (by omega) hfree ?_ ?_
  · intro s₁ o₁ hremap hentry _ _ hpoor
    exact ⟨o₁, hremap, .inr ⟨rfl, hpoor, hentry⟩⟩
  · intro s₁ o₁ hremap hentry htook hext
    rw [if_pos rfl, PanicM.returns_pure]
    refine ⟨o₁, hremap, .inl ⟨rfl, fun w hw => ?_, htook, hext⟩⟩
    rw [hentry w hw, mapRange]
    by_cases hwv : w = va / 4096
    · rw [if_pos (by omega), if_pos hwv, hwv, Nat.sub_self, Nat.zero_mul, Nat.add_zero]
    · rw [if_neg (by omega), if_neg hwv]

theorem trampolineVa_div : trampolineVa / 4096 = trampolineVpn := rfl

theorem trapframeVa_div : trapframeVa / 4096 = trapframeVpn := rfl

theorem phystop_bound (L : Layout) : L.trampoline + 4096 ≤ 2 ^ 64 ∧ L.phystop ≤ 2 ^ 38 := by
  have := L.trampoline_lt_etext
  have := L.etext_le_kend
  have := L.kend_lt_phystop
  have := L.phystop_le
  omega

/-- **`proc_pagetable`** builds an empty user page table, for which it needs a root and two
tables, or leaves everything as it was. The trapframe lies next to the trampoline, so that it
needs no table of its own. -/
theorem procPagetable_spec (h : VmInv L s o) (htf : tf + 4096 ≤ 2 ^ 64) :
    (Vm.procPagetable L tf).Returns s fun r s' =>
      r = 0 ∧ ¬Supply L s 3 ∧ (∃ o', VmInv L s' o' ∧ Frame L (fun _ => False) s o s' o') ∨
        r ≠ 0 ∧ o r = none ∧ Took L 3 s s' ∧ (∃ o', Edit L r s o s' o' ∧ o'.Covers r 0) ∧
          UserShape L s'.mem r 0 tf := by
  rw [Vm.procPagetable]
  refine (uvmcreate_spec h).bind ?_
  rintro r s₁ (⟨rfl, hpoor, rfl⟩ | ⟨hr0, hnone, htook₁, o₁, hedit₁, hbare, hempty⟩)
  · rw [if_pos rfl, PanicM.returns_pure]
    exact .inl ⟨rfl, fun hs => hpoor (hs.mono (by omega)), o, h.deny, .deny s o⟩
  rw [if_neg hr0]
  have hbound := phystop_bound L
  have hmissing₁ : o₁.missing r (trampolineVa / 4096) = 2 := by
    rw [Owners.missing, if_neg (hbare _ _ (by omega)), if_neg (hbare _ _ (by omega))]
  refine (mappages_one hedit₁.inv hedit₁.root
    (by decide) (by decide) (by decide) (by decide) (by decide) (by omega)
    (hempty _ (by decide))).bind ?_
  rw [hmissing₁]
  rintro ok s₂ ⟨o₂, hremap₂, ⟨rfl, hentry₂, htook₂, hext₂⟩ | ⟨rfl, hpoor, hentry₂⟩⟩
  swap
  · -- no table for the trampoline
    simp only [Bool.false_eq_true, if_false]
    refine (uvmfree_spec hremap₂.inv hremap₂.root (by omega) (by omega)
      fun w _ hw => by rw [hentry₂ w hw, hempty w hw]).bind ?_
    rintro _ s₃ ⟨o₃, hgone⟩
    rw [PanicM.returns_pure]
    have hg := (hedit₁.trans hremap₂.edit).gone hgone
    exact .inl ⟨rfl, fun hs => hpoor (htook₁.supply_iff.mpr hs), o₃, hg.inv,
      hg.frame_nothing h hnone _⟩
  rw [if_pos rfl]
  have hone : ∀ idx, o₂.HasTable r 1 idx ↔ idx = 255 := by
    intro idx
    rw [hext₂.one, or_iff_right (hbare 1 idx (by omega))]
    rfl
  have hzero : ∀ idx, o₂.HasTable r 0 idx ↔ idx = 131071 := by
    intro idx
    rw [hext₂.zero, or_iff_right (hbare 0 idx (by omega))]
    rfl
  -- the trapframe is next to the trampoline, in the same table, so its page needs no other
  have hmissing₂ : o₂.missing r (trapframeVa / 4096) = 0 := by
    rw [Owners.missing, if_pos ((hone (trapframeVa / 4096 / 2 ^ 18)).mpr (by decide)),
      if_pos ((hzero (trapframeVa / 4096 / 512)).mpr (by decide))]
  refine (mappages_one hremap₂.inv hremap₂.root
    (by decide) (by decide) (by decide) (by decide) (by decide) htf
    (by rw [hentry₂ _ (by decide), if_neg (by decide), hempty _ (by decide)])).bind ?_
  rw [hmissing₂]
  rintro ok s₃ ⟨o₃, hremap₃, ⟨rfl, hentry₃, htook₃, hext₃⟩ | ⟨-, hpoor, -⟩⟩
  swap
  · exact absurd (Took.refl hremap₂.inv.le_phystop).supply hpoor
  rw [if_pos rfl, PanicM.returns_pure]
  refine .inr ⟨hr0, hnone, (htook₁.trans htook₂).trans htook₃,
    ⟨o₃, (hedit₁.trans hremap₂.edit).trans hremap₃.edit, ?_, ?_⟩, ?_⟩
  · intro idx
    rw [hext₃.one, hone, trapframeVa_div, trapframeVpn]
    omega
  · intro idx
    rw [hext₃.zero, hzero, trapframeVa_div, trapframeVpn]
    omega
  · constructor
    case size => exact Nat.zero_le _
    case user => omega
    case trapframe => rw [hentry₃ _ (by decide), trapframeVa_div, if_pos rfl]
    case trampoline =>
      rw [hentry₃ _ (by decide), if_neg (by decide), hentry₂ _ (by decide), trampolineVa_div,
        if_pos rfl]
    case empty =>
      intro w hw _ hne hne'
      rw [hentry₃ w hw, trapframeVa_div, if_neg hne, hentry₂ w hw, trampolineVa_div,
        if_neg hne', hempty w hw]

/-- `proc_freepagetable` first unmaps the pages at the top. -/
theorem unmapTop_spec (h : VmInv L s o) (hr : o r = some (.table r 2 0))
    (htop : ∀ w, w = trapframeVpn ∨ w = trampolineVpn → s.mem.entry r w &&& pteU = 0) :
    ∃ s₁ s₂ o₂, Vm.uvmunmap L r trampolineVa 1 false s = .ok ((), s₁) ∧
      Vm.uvmunmap L r trapframeVa 1 false s₁ = .ok ((), s₂) ∧ Edit L r s o s₂ o₂ ∧
      ∀ w, w < 2 ^ 27 → s₂.mem.entry r w =
        if w = trapframeVpn ∨ w = trampolineVpn then 0 else s.mem.entry r w := by
  obtain ⟨_, s₁, hx₁, o₁, hedit₁, hentry₁⟩ := uvmunmap_spec (n := 1) (d := false) h hr
    (by decide : 4096 ∣ trampolineVa) (by decide) fun w hlo hhi _ => by
      rw [htop w (.inr (by rw [trampolineVa_div] at hlo hhi; omega))]
      exact ⟨fun hne => absurd rfl hne, fun h => by cases h⟩
  have hclear₁ : ∀ w, w < 2 ^ 27 → s₁.mem.entry r w =
      if w = trampolineVpn then 0 else s.mem.entry r w := by
    intro w hw
    rw [hentry₁ w hw, clearRange, trampolineVa_div]
    split_ifs <;> first | rfl | omega
  obtain ⟨_, s₂, hx₂, o₂, hedit₂, hentry₂⟩ := uvmunmap_spec (n := 1) (d := false)
    hedit₁.inv hedit₁.root (by decide : 4096 ∣ trapframeVa) (by decide) fun w hlo hhi _ => by
      rw [trapframeVa_div] at hlo hhi
      obtain rfl : w = trapframeVpn := by omega
      rw [hclear₁ _ (by decide), if_neg (by decide), htop _ (.inl rfl)]
      exact ⟨fun hne => absurd rfl hne, fun h => by cases h⟩
  refine ⟨s₁, s₂, o₂, hx₁, hx₂, hedit₁.trans hedit₂, fun w hw => ?_⟩
  rw [hentry₂ w hw, clearRange, trapframeVa_div, hclear₁ w hw]
  split_ifs <;> first | rfl | omega

/-- **`proc_freepagetable`** takes down a page table whose user pages lie below `sz`. -/
theorem procFreepagetable_spec (h : VmInv L s o) (hr : o r = some (.table r 2 0))
    (hsz : sz ≤ 2 ^ 38)
    (htop : ∀ w, w = trapframeVpn ∨ w = trampolineVpn → s.mem.entry r w &&& pteU = 0)
    (huser : ∀ w, w < (sz + 4095) / 4096 → w ≠ trapframeVpn → w ≠ trampolineVpn →
      s.mem.entry r w ≠ 0 → s.mem.entry r w &&& pteU ≠ 0)
    (hempty : ∀ w, (sz + 4095) / 4096 ≤ w → w < 2 ^ 27 → w ≠ trapframeVpn → w ≠ trampolineVpn →
      s.mem.entry r w = 0) :
    (Vm.procFreepagetable L r sz).Returns s fun _ s' => ∃ o', Gone L r s o s' o' := by
  obtain ⟨s₁, s₂, o₂, hx₁, hx₂, hedit, hclear⟩ := unmapTop_spec h hr htop
  rw [Vm.procFreepagetable, PanicM.returns_bind_of_ok hx₁, PanicM.returns_bind_of_ok hx₂]
  refine (uvmfree_spec hedit.inv hedit.root hsz (fun w hw hne => ?_) fun w hlo hw => ?_).mono ?_
  · rw [hclear w (by omega)] at hne ⊢
    split_ifs at hne ⊢ with htopw
    · exact absurd rfl hne
    · rw [not_or] at htopw
      exact huser w hw htopw.1 htopw.2 hne
  · rw [hclear w hw]
    split_ifs with htopw
    · rfl
    · rw [not_or] at htopw
      exact hempty w hlo hw htopw.1 htopw.2
  · rintro _ s₃ ⟨o₃, hgone⟩
    exact ⟨o₃, hedit.gone hgone⟩

theorem UserShape.top_not_user (h : UserShape L s.mem r sz tf) {w : ℕ}
    (hw : w = trapframeVpn ∨ w = trampolineVpn) : s.mem.entry r w &&& pteU = 0 := by
  rcases hw with rfl | rfl
  · rw [h.trapframe, leafEntry_user (by decide)]
    decide
  · rw [h.trampoline, leafEntry_user (by decide)]
    decide

theorem frugal_procFreepagetable (r sz : ℕ) : Frugal (Vm.procFreepagetable L r sz) :=
  .bind (frugal_uvmunmap _ _ _ _) fun _ => .bind (frugal_uvmunmap _ _ _ _) fun _ =>
    frugal_uvmfree _ _

/-- `proc_freepagetable` of a page table in shape, for its size or a larger one. -/
theorem UserShape.free {n : ℕ} (hshape : UserShape L s.mem r sz tf) (hle : sz ≤ n)
    (hn : n ≤ 2 ^ 38) (h : VmInv L s o) (hr : o r = some (.table r 2 0)) :
    (Vm.procFreepagetable L r n).Returns s fun _ s' => ∃ o', Gone L r s o s' o' := by
  refine procFreepagetable_spec h hr hn (fun w => hshape.top_not_user) ?_ ?_
  · intro w hw hne hne' h0
    refine hshape.user_ne_zero ?_ (by decide) (by decide)
    by_contra hlo
    exact h0 (hshape.empty w (by omega) (by omega) hne hne')
  · exact fun w hlo hw => hshape.empty w hw (by omega)

theorem UserShape.size_le (h : UserShape L s.mem r sz tf) : sz ≤ 2 ^ 38 :=
  h.size.trans (by decide)

/-! ### Sizes beyond the address space -/

/-- `uvmunmap` of a range that reaches beyond `MAXVA` stops in `walk`. -/
theorem uvmunmapLoop_walk {stop : ℕ} {doFree : Bool} (hstop : 2 ^ 38 < stop) : ∀ n fuel s o a,
    n < fuel → VmInv L s o → o r = some (.table r 2 0) → a + n * 4096 = 2 ^ 38 →
    (∀ w, w < 2 ^ 27 → s.mem.entry r w = 0) →
    Vm.uvmunmapLoop L r stop doFree fuel a s = .error .walk := by
  intro n
  induction n with
  | zero =>
    intro fuel s o a hfuel _ _ ha _
    obtain ⟨fuel, rfl⟩ : ∃ k, fuel = k + 1 := ⟨fuel - 1, by omega⟩
    rw [Vm.uvmunmapLoop, if_pos (by omega)]
    refine PanicM.bind_of_error (PanicM.bind_of_error ?_)
    rw [Vm.walk, if_pos (by simp only [maxva]; omega), PanicM.fail_apply]
  | succ n ih =>
    intro fuel s o a hfuel h hr ha hempty
    obtain ⟨fuel, rfl⟩ : ∃ k, fuel = k + 1 := ⟨fuel - 1, by omega⟩
    obtain ⟨_, s', hx, o', hedit, hentry⟩ := uvmunmapPage_spec (d := doFree) h hr
      (by omega : a < 2 ^ 38) fun hne => absurd (hempty _ (by omega)) hne
    rw [Vm.uvmunmapLoop, if_pos (by omega), PanicM.bind_of_ok hx,
      show (a + pgsize) % wordSize = a + 4096 by simp only [pgsize, wordSize]; omega]
    refine ih fuel s' o' (a + 4096) (by omega) hedit.inv hedit.root (by omega) fun w hw => ?_
    rw [hentry w hw, clearRange, hempty w hw, ite_self]

/-- `proc_freepagetable` of a page table without user pages for a size beyond `MAXVA`. -/
theorem UserShape.free_walk (hshape : UserShape L s.mem r 0 tf) (h : VmInv L s o)
    (hr : o r = some (.table r 2 0)) (hsz : 2 ^ 38 < sz) (hd : 4096 ∣ sz) (hlt : sz < 2 ^ 64) :
    Vm.procFreepagetable L r sz s = .error .walk := by
  obtain ⟨s₁, s₂, o₂, hx₁, hx₂, hedit, hclear⟩ := unmapTop_spec h hr fun w => hshape.top_not_user
  have hround : pgRoundUp sz / pgsize = sz / 4096 := by
    rw [pgRoundUp_eq (by omega), pgsize]
    omega
  rw [Vm.procFreepagetable, PanicM.bind_of_ok hx₁, PanicM.bind_of_ok hx₂, Vm.uvmfree,
    if_pos (by omega), hround]
  refine PanicM.bind_of_error ?_
  rw [Vm.uvmunmap, if_neg (by simp)]
  refine uvmunmapLoop_walk ?_ (2 ^ 26) _ _ _ 0 (by omega) hedit.inv hedit.root (by omega) ?_
  · simp only [pgsize, wordSize]
    omega
  · intro w hw
    rw [hclear w hw]
    split_ifs with htop
    · rfl
    · rw [not_or] at htop
      exact hshape.empty w hw (Nat.zero_le _) htop.1 htop.2

end OsKernel
