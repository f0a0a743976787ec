import OsKernel.Vm.Map

/-!
# Taking page tables down

`freewalk` walks a page table whose leaves are all empty and passes every table of it to
`kfree` once. The proof follows the recursion: `Subtree o r l idx` is the set of pages of the
subtree at one position, and the rule for a level frees exactly that set, provided its pages
still hold what they held at the start. `uvmfree` unmaps the user pages first.

After either, no page has a role under the root, and nothing else has changed.
-/

namespace OsKernel

variable {L : Layout} {s s' : Vm} {o o' : Owners} {q r l idx vpn : ℕ}

/-- The pages of the tables at and below one position of the page table at `r`. -/
def Subtree (o : Owners) (r : ℕ) : (l idx q : ℕ) → Prop
  | 0, idx, q => o q = some (.table r 0 idx)
  | l + 1, idx, q => o q = some (.table r (l + 1) idx) ∨
      ∃ j, j < 512 ∧ Subtree o r l (512 * idx + j) q

/-- A page of a subtree is a table whose position starts with the position of the subtree. -/
theorem Subtree.role (h : Subtree o r l idx q) :
    ∃ l' idx', o q = some (.table r l' idx') ∧ l' ≤ l ∧ idx' / 512 ^ (l - l') = idx := by
  induction l generalizing idx with
  | zero => exact ⟨0, idx, h, le_rfl, by simp⟩
  | succ l ih =>
    rcases h with h | ⟨j, hj, h⟩
    · exact ⟨l + 1, idx, h, le_rfl, by simp⟩
    · obtain ⟨l', idx', hq, hl, hidx⟩ := ih h
      refine ⟨l', idx', hq, by omega, ?_⟩
      rw [show l + 1 - l' = l - l' + 1 by omega, pow_succ, ← Nat.div_div_eq_div_mul, hidx]
      omega

/-- The subtrees of two positions of one level have no page in common. -/
theorem Subtree.idx_unique {idx' : ℕ} (h : Subtree o r l idx q) (h' : Subtree o r l idx' q) :
    idx = idx' := by
  obtain ⟨l₁, i₁, hq₁, -, rfl⟩ := h.role
  obtain ⟨l₂, i₂, hq₂, -, rfl⟩ := h'.role
  rw [hq₁] at hq₂
  cases hq₂
  rfl

/-- A table is not in the subtree of a lower level. -/
theorem Subtree.not_table {i i' : ℕ} (hq : o q = some (.table r (l + 1) i)) :
    ¬Subtree o r l i' q := by
  intro h
  obtain ⟨l', idx', hq', hl, -⟩ := h.role
  rw [hq] at hq'
  cases hq'
  omega

/-- Every table of `r` is in the subtree of the root. -/
theorem Tables.subtree {m : Mem} (h : Tables m o) (hq : o q = some (.table r l idx)) :
    Subtree o r 2 0 q := by
  have hl := h.level hq
  obtain rfl | rfl | rfl : l = 2 ∨ l = 1 ∨ l = 0 := by omega
  · obtain ⟨rfl, rfl⟩ := h.root hq
    exact .inl hq
  · obtain ⟨p, hp, -⟩ := h.up hq (by omega)
    have := (h.root hp).2
    exact .inr ⟨idx, by omega, .inl (by simpa using hq)⟩
  · have := h.idx_lt hq
    refine .inr ⟨idx / 512, by omega, .inr ⟨idx % 512, by omega, ?_⟩⟩
    rw [Subtree, show 512 * (512 * 0 + idx / 512) + idx % 512 = idx by omega]
    exact hq

/-- A subtree with a page has its topmost table. -/
theorem Tables.subtree_top {m : Mem} (h : Tables m o) (hl : l ≤ 2) (hq : Subtree o r l idx q) :
    ∃ c, o c = some (.table r l idx) := by
  induction l generalizing idx with
  | zero => exact ⟨q, hq⟩
  | succ l ih =>
    rcases hq with hq | ⟨j, hj, hq⟩
    · exact ⟨q, hq⟩
    · obtain ⟨c, hc⟩ := ih (by omega) hq
      obtain ⟨p, hp, -⟩ := h.up hc (by omega)
      rw [show (512 * idx + j) / 512 = idx by omega] at hp
      exact ⟨p, hp⟩

/-- The pages of `A` were passed to `kfree`, once each, and only pages of `B` changed. -/
structure Released (A B : ℕ → Prop) (s s' : Vm) : Prop where
  freed : ∃ fr : List ℕ, s'.freed = fr ++ s.freed ∧ fr.Nodup ∧ ∀ p, p ∈ fr ↔ A p
  mem : ∀ a, ¬B (a / 4096 * 4096) → s'.mem a = s.mem a
  freemem : s'.freemem = s.freemem
  fails : s'.fails = s.fails

namespace Released

variable {A A' A'' B B' B'' : ℕ → Prop} {s'' : Vm}

theorem refl (hA : ∀ p, ¬A p) (s : Vm) : Released A B s s :=
  ⟨⟨[], rfl, List.nodup_nil, fun p => by simp [hA p]⟩, fun _ _ => rfl, rfl, rfl⟩

theorem trans (h : Released A B s s') (h' : Released A' B' s' s'') (hdisj : ∀ p, A p → ¬A' p)
    (hA : ∀ p, A'' p ↔ A p ∨ A' p) (hB : ∀ p, B p ∨ B' p → B'' p) : Released A'' B'' s s'' := by
  obtain ⟨fr, hfr, hnodup, hmem⟩ := h.freed
  obtain ⟨fr', hfr', hnodup', hmem'⟩ := h'.freed
  refine ⟨⟨fr' ++ fr, ?_, ?_, fun p => ?_⟩, fun a ha => ?_, h'.freemem.trans h.freemem,
    h'.fails.trans h.fails⟩
  · rw [hfr', hfr, List.append_assoc]
  · refine List.nodup_append.mpr ⟨hnodup', hnodup, ?_⟩
    rintro p hp p' hp' rfl
    exact hdisj p ((hmem p).mp hp') ((hmem' p).mp hp)
  · rw [List.mem_append, hmem, hmem', hA, or_comm]
  · rw [h'.mem a fun hb => ha (hB _ (.inr hb)), h.mem a fun hb => ha (hB _ (.inl hb))]

theorem agreeOn (h : Released A B s s') (hq : 4096 ∣ q) (hB : ¬B q) :
    Mem.AgreeOn s.mem s'.mem q 4096 := fun i hi => by
  refine h.mem _ ?_
  rwa [show (q + i) / 4096 * 4096 = q by omega]

/-- A store to an entry of the page `q`. -/
theorem store {i v : ℕ} (hA : ∀ p, ¬A p) (hd : 4096 ∣ q) (hi : i < 512) (hB : B q) :
    Released A B s { s with mem := s.mem.store64 (q + 8 * i) v } := by
  refine ⟨⟨[], rfl, List.nodup_nil, fun p => by simp [hA p]⟩, fun a ha => ?_, rfl, rfl⟩
  have hne : a / 4096 * 4096 ≠ q := by
    rintro rfl
    exact ha hB
  rcases Nat.lt_or_ge a (q + 8 * i) with hlt | hge
  · exact Mem.writeBytes_of_lt hlt
  · refine Mem.writeBytes_of_ge ?_
    rw [length_leBytes]
    omega

/-- A call of `kfree`. -/
theorem kfree (q : ℕ) (s : Vm) : Released (· = q) B s { s with freed := q :: s.freed } :=
  ⟨⟨[q], rfl, List.nodup_cons.mpr ⟨by simp, List.nodup_nil⟩, fun p => by simp⟩, fun _ _ =>
    rfl, rfl, rfl⟩

end Released

/-! ### `freewalk` -/

/-- The pages below the entries of a table from entry `i` on. -/
def Below (o : Owners) (r l idx i p : ℕ) : Prop :=
  ∃ j, i ≤ j ∧ j < 512 ∧ Subtree o r l (512 * idx + j) p

theorem Below.next {i p : ℕ} (h : Below o r l idx (i + 1) p) : Below o r l idx i p := by
  obtain ⟨j, hj, hj', hp⟩ := h
  exact ⟨j, by omega, hj', hp⟩

theorem below_iff {i p : ℕ} (hi : i < 512) :
    Below o r l idx i p ↔ Subtree o r l (512 * idx + i) p ∨ Below o r l idx (i + 1) p := by
  constructor
  · rintro ⟨j, hj, hj', hp⟩
    rcases Nat.eq_or_lt_of_le hj with rfl | hlt
    · exact .inl hp
    · exact .inr ⟨j, hlt, hj', hp⟩
  · rintro (hp | hp)
    · exact ⟨i, le_rfl, hi, hp⟩
    · exact hp.next

section Freewalk

variable {m₀ : Mem}

/-- The loop of `freewalk` at level `l + 1`, given the rule for level `l`. -/
theorem freewalkLoop_spec (h : Tables m₀ o) (hq : o q = some (.table r (l + 1) idx))
    (hchild : ∀ {i c s}, o c = some (.table r l (512 * idx + i)) →
      (∀ p, Subtree o r l (512 * idx + i) p → Mem.AgreeOn m₀ s.mem p 4096) →
      (Vm.freewalkDepth (l + 1) c).Returns s fun _ s' =>
        Released (Subtree o r l (512 * idx + i)) (Subtree o r l (512 * idx + i)) s s') :
    ∀ rest i s, i + rest = 512 →
      (∀ j, i ≤ j → j < 512 → s.mem.pte q j = m₀.pte q j) →
      (∀ p, Below o r l idx i p → Mem.AgreeOn m₀ s.mem p 4096) →
      (Vm.freewalkLoop (Vm.freewalkDepth (l + 1)) q rest i).Returns s fun _ s' =>
        Released (Below o r l idx i) (fun p => Below o r l idx i p ∨ p = q) s s' := by
  have hlevel := h.level hq
  have hqd := (h.page hq).1
  intro rest
  induction rest with
  | zero =>
    intro i s hi _ _
    refine PanicM.returns_of_ok (a := ()) (t := s) rfl (.refl ?_ s)
    rintro p ⟨j, hj, hj', -⟩
    omega
  | succ rest ih =>
    intro i s hi hentries hpages
    have hload : s.mem.load64 (q + 8 * i) = m₀.pte q i := hentries i le_rfl (by omega)
    rw [Vm.freewalkLoop]
    rcases h.down hq (i := i) (by omega) with he | ⟨c, hc, he⟩
    · -- an empty entry has nothing below it
      rw [he] at hload
      have hnone : ∀ p, ¬Subtree o r l (512 * idx + i) p := by
        intro p hp
        obtain ⟨c, hc⟩ := h.subtree_top (by omega) hp
        exact h.no_table_of_empty hq (by omega) he hc
      have hbelow : Below o r l idx i = Below o r l idx (i + 1) := by
        funext p
        rw [below_iff (by omega), eq_iff_iff]
        exact ⟨fun hp => hp.resolve_left (hnone p), .inr⟩
      have hrec := ih (i + 1) s (by omega) (fun j hj => hentries j (by omega))
        fun p hp => hpages p hp.next
      rw [← hbelow] at hrec
      simpa [Vm.load, hload] using hrec
    · -- the subtree under the entry is freed, and then the entry is cleared
      rw [he] at hload
      obtain ⟨hcd, -, hclt⟩ := h.page hc
      have hnq : ¬Subtree o r l (512 * idx + i) q := Subtree.not_table hq
      have hdisj : ∀ p, Subtree o r l (512 * idx + i) p → ¬Below o r l idx (i + 1) p := by
        rintro p hp ⟨j, hj, -, hp'⟩
        have := hp.idx_unique hp'
        omega
      have hrun := hchild (s := s) hc fun p hp => hpages p ⟨i, le_rfl, by omega, hp⟩
      simp only [Vm.load, PanicM.returns_read_bind, hload]
      rw [if_pos ⟨tableEntry_valid c, tableEntry_not_leaf c⟩, pte2pa_tableEntry hcd hclt]
      refine hrun.bind fun _ s₁ h₁ => ?_
      simp only [Vm.store, PanicM.returns_update_bind]
      have h₂ : Released (Subtree o r l (512 * idx + i))
          (fun p => Subtree o r l (512 * idx + i) p ∨ p = q) s
          { s₁ with mem := s₁.mem.store64 (q + 8 * i) 0 } :=
        h₁.trans (Released.store (A := fun _ => False) (B := (· = q)) (fun _ h => h) hqd
          (by omega) rfl) (fun _ _ h => h) (fun p => by simp) fun p hp => hp
      refine (ih (i + 1) _ (by omega) ?_ ?_).mono fun _ s₃ h₃ => ?_
      · intro j hj hj'
        rw [Mem.pte_store64 hqd hqd (by omega) hj' (by decide), if_neg (by omega),
          (h₁.agreeOn hqd hnq).pte_eq hj', hentries j (by omega) hj']
      · intro p hp
        obtain ⟨l', idx', hpo, hl', -⟩ := hp.choose_spec.2.2.role
        refine (hpages p hp.next).trans (h₂.agreeOn (h.page hpo).1 ?_)
        rintro (hs | rfl)
        · exact hdisj p hs hp
        · rw [hq] at hpo
          cases hpo
          omega
      · refine h₂.trans h₃ hdisj (fun p => below_iff (by omega)) fun p hp => ?_
        rw [below_iff (by omega)]
        rcases hp with (hs | hpq) | hb | hpq
        · exact .inl (.inl hs)
        · exact .inr hpq
        · exact .inl (.inr hb)
        · exact .inr hpq

/-- The loop of `freewalk` at level 0 finds nothing. -/
theorem freewalkLoop_empty (child : ℕ → VmM Unit) : ∀ rest i s, i + rest = 512 →
    (∀ j, j < 512 → s.mem.pte q j = 0) →
    Vm.freewalkLoop child q rest i s = .ok ((), s) := by
  intro rest
  induction rest with
  | zero => exact fun _ _ _ _ => rfl
  | succ rest ih =>
    intro i s hi hzero
    have hload : s.mem.load64 (q + 8 * i) = 0 := hzero i (by omega)
    simpa [Vm.freewalkLoop, Vm.load, hload] using ih (i + 1) s (by omega) hzero

/-- **`freewalk` frees a subtree.** -/
theorem freewalkDepth_spec (h : Tables m₀ o)
    (hempty : ∀ {q idx j}, o q = some (.table r 0 idx) → j < 512 → m₀.pte q j = 0) :
    ∀ l idx q s, o q = some (.table r l idx) →
      (∀ p, Subtree o r l idx p → Mem.AgreeOn m₀ s.mem p 4096) →
      (Vm.freewalkDepth (l + 1) q).Returns s fun _ s' =>
        Released (Subtree o r l idx) (Subtree o r l idx) s s' := by
  intro l
  induction l with
  | zero =>
    -- a table of leaves: all of them are clear, and nothing is below
    intro idx q s hq hpages
    have hloop := freewalkLoop_empty (q := q) (Vm.freewalkDepth 0) 512 0 s rfl
      fun j hj => by rw [(hpages q hq).pte_eq hj, hempty hq hj]
    rw [Vm.freewalkDepth]
    refine PanicM.returns_of_ok (a := ()) (t := { s with freed := q :: s.freed }) ?_ ?_
    · rw [PanicM.bind_of_ok hloop]
      rfl
    · have hiff : Subtree o r 0 idx = (· = q) := by
        funext p
        rw [eq_iff_iff]
        exact ⟨fun hp => h.unique hp hq, fun hp => hp ▸ hq⟩
      rw [hiff]
      exact Released.kfree q s
  | succ l ih =>
    intro idx q s hq hpages
    rw [Vm.freewalkDepth]
    refine (freewalkLoop_spec h hq (fun hc hp => ih _ _ _ hc hp) 512 0 s rfl ?_ ?_).bind
      fun _ s₁ h₁ => ?_
    · exact fun j _ hj => (hpages q (.inl hq)).pte_eq hj
    · rintro p ⟨j, -, hj, hp⟩
      exact hpages p (.inr ⟨j, hj, hp⟩)
    · simp only [Vm.kfree, PanicM.returns_update]
      refine h₁.trans (Released.kfree (B := fun _ => False) q s₁) ?_ ?_ ?_
      · rintro p ⟨j, -, -, hp⟩ rfl
        exact Subtree.not_table hq hp
      · intro p
        constructor
        · rintro (hp | ⟨j, hj, hp⟩)
          · exact .inr (h.unique hp hq)
          · exact .inl ⟨j, Nat.zero_le j, hj, hp⟩
        · rintro (⟨j, -, hj, hp⟩ | rfl)
          · exact .inr ⟨j, hj, hp⟩
          · exact .inl hq
      · rintro p ((⟨j, -, hj, hp⟩ | rfl) | hp)
        · exact .inr ⟨j, hj, hp⟩
        · exact .inl hq
        · exact hp.elim

end Freewalk

/-- What remains when the page table at `r` is taken down. -/
structure Gone (L : Layout) (r : ℕ) (s : Vm) (o : Owners) (s' : Vm) (o' : Owners) : Prop where
  inv : VmInv L s' o'
  frame : Frame L (Role.Under r) s o s' o'
  gone : ∀ q ρ, o' q = some ρ → ¬ρ.Under r

/-- Of a page table without leaves only the tables are left under its root. -/
theorem VmInv.under_iff_subtree (h : VmInv L s o) (hr : o r = some (.table r 2 0))
    (hempty : ∀ w, w < 2 ^ 27 → s.mem.entry r w = 0) {ρ : Role} (hq : o q = some ρ) :
    ρ.Under r ↔ Subtree o r 2 0 q := by
  constructor
  · intro hρ
    cases ρ with
    | table r' l idx =>
      obtain rfl : r' = r := hρ
      exact h.tables.subtree hq
    | user r' vpn =>
      obtain rfl : r' = r := hρ
      have hvpn := h.tables.vpn_lt hq
      have hu := ((h.tables.user_iff hr hvpn).mp hq).1
      rw [hempty vpn hvpn, Nat.zero_and] at hu
      exact absurd rfl hu
    | loose => exact hρ.elim
    | trapframe i => exact hρ.elim
    | kstack i => exact hρ.elim
  · intro hsub
    obtain ⟨l', idx', hq', -, -⟩ := hsub.role
    rw [hq] at hq'
    cases hq'
    rfl

/-- Releasing the pages under a root takes the page table down. -/
theorem Gone.of_released {A : ℕ → Prop} (h : VmInv L s o) (hrel : Released A A s s')
    (howned : ∀ q, A q → ∃ ρ, o q = some ρ)
    (hunder : ∀ {q ρ}, o q = some ρ → (ρ.Under r ↔ A q)) : Gone L r s o s' (o.drop r) := by
  have hpages : ∀ q ρ, o q = some ρ → ¬ρ.Under r → Mem.AgreeOn s.mem s'.mem q 4096 :=
    fun q ρ hq hρ => hrel.agreeOn (h.tables.page hq).1 fun hA => hρ ((hunder hq).mpr hA)
  obtain ⟨fr, hfr, hnodup, hmem⟩ := hrel.freed
  constructor
  case inv =>
    constructor
    case tables =>
      exact h.tables.drop (fun q ρ => Owners.drop_eq_some)
        fun q r' l idx hq hne => hpages q _ hq hne
    case aligned => exact hrel.freemem ▸ h.aligned
    case heap_le => exact hrel.freemem ▸ h.heap_le
    case le_phystop => exact hrel.freemem ▸ h.le_phystop
    case owned =>
      intro q
      rw [hrel.freemem, hfr, List.mem_append, not_or]
      constructor
      · rintro ⟨ρ, hq⟩
        obtain ⟨hq, hρ⟩ := Owners.drop_eq_some.mp hq
        obtain ⟨hd, hle, hlt, hnf⟩ := (h.owned q).mp ⟨ρ, hq⟩
        exact ⟨hd, hle, hlt, fun hmem' => hρ ((hunder hq).mpr ((hmem q).mp hmem')), hnf⟩
      · rintro ⟨hd, hle, hlt, hnfr, hnf⟩
        obtain ⟨ρ, hq⟩ := (h.owned q).mpr ⟨hd, hle, hlt, hnf⟩
        exact ⟨ρ, Owners.drop_eq_some.mpr
          ⟨hq, fun hρ => hnfr ((hmem q).mpr ((hunder hq).mp hρ))⟩⟩
    case freed =>
      intro q hq
      rw [hfr, List.mem_append] at hq
      rw [hrel.freemem]
      rcases hq with hq | hq
      · obtain ⟨hd, hle, hlt, -⟩ := (h.owned q).mp (howned q ((hmem q).mp hq))
        exact ⟨hd, hle, hlt⟩
      · exact h.freed q hq
    case nodup =>
      -- a page with a role has not been freed before
      rw [hfr]
      refine List.nodup_append.mpr ⟨hnodup, h.nodup, ?_⟩
      rintro p hp p' hp' rfl
      obtain ⟨ρ, hρ⟩ := howned p ((hmem p).mp hp)
      exact h.not_mem_freed hρ hp'
  case frame =>
    constructor
    case role => exact fun q ρ hq hρ => Owners.drop_eq_some.mpr ⟨hq, hρ⟩
    case origin => exact fun q ρ hq => .inr (Owners.drop_eq_some.mp hq).1
    case page => exact hpages
    case image =>
      intro a ha
      refine hrel.mem a fun hA => ?_
      obtain ⟨ρ, hq⟩ := howned _ hA
      have := h.heap_le_page hq
      omega
    case mono => exact hrel.freemem.ge
    case fails => exact fun n hn => ⟨n, hrel.fails ▸ hn⟩
  case gone => exact fun q ρ hq => (Owners.drop_eq_some.mp hq).2

/-- **`freewalk`** of a page table without leaves. -/
theorem freewalk_spec (h : VmInv L s o) (hr : o r = some (.table r 2 0))
    (hempty : ∀ w, w < 2 ^ 27 → s.mem.entry r w = 0) :
    (Vm.freewalk r).Returns s fun _ s' => ∃ o', Gone L r s o s' o' := by
  have hleaves : ∀ {q idx j}, o q = some (.table r 0 idx) → j < 512 → s.mem.pte q j = 0 := by
    intro q idx j hq hj
    have hlt := h.tables.idx_lt hq
    have he := hempty (512 * idx + j) (by omega)
    rwa [h.tables.entry_of_table (t := q)
        (by rwa [show (512 * idx + j) / 512 = idx by omega]),
      show (512 * idx + j) % 512 = j by omega] at he
  refine (freewalkDepth_spec h.tables hleaves 2 0 r s hr fun p _ => .refl _ _ _).mono
    fun _ s' hs' => ⟨o.drop r, .of_released h hs' (fun q hsub => ?_) ?_⟩
  · obtain ⟨l', idx', hq, -, -⟩ := hsub.role
    exact ⟨_, hq⟩
  · exact h.under_iff_subtree hr hempty

theorem Edit.gone {s'' : Vm} {o'' : Owners} (h : Edit L r s o s' o') (h' : Gone L r s' o' s'' o'') :
    Gone L r s o s'' o'' :=
  ⟨h'.inv, h.frame.trans h'.frame, h'.gone⟩

/-- `PGROUNDUP` of a size that is not close to the end of the address range. -/
theorem pgRoundUp_eq {sz : ℕ} (hsz : sz + 4095 < 2 ^ 64) :
    pgRoundUp sz = (sz + 4095) / 4096 * 4096 := by
  simp only [pgRoundUp, pgsize, wordSize]
  omega

/-- **`uvmfree`** of a page table whose leaves are user pages below `PGROUNDUP(sz)`. -/
theorem uvmfree_spec {sz : ℕ} (h : VmInv L s o) (hr : o r = some (.table r 2 0))
    (hsz : sz ≤ 2 ^ 38)
    (huser : ∀ w, w < (sz + 4095) / 4096 → s.mem.entry r w ≠ 0 → s.mem.entry r w &&& pteU ≠ 0)
    (hempty : ∀ w, (sz + 4095) / 4096 ≤ w → w < 2 ^ 27 → s.mem.entry r w = 0) :
    (Vm.uvmfree L r sz).Returns s fun _ s' => ∃ o', Gone L r s o s' o' := by
  rw [Vm.uvmfree]
  by_cases h0 : 0 < sz
  · rw [if_pos h0, pgRoundUp_eq (by omega),
      show (sz + 4095) / 4096 * 4096 / pgsize = (sz + 4095) / 4096 by simp only [pgsize]; omega]
    refine (uvmunmap_spec h hr (dvd_zero _) (by omega) fun w _ hw hne => ?_).bind
      fun _ s₁ h₁ => ?_
    · exact ⟨fun _ => rfl, fun _ => huser w (by omega) hne⟩
    · obtain ⟨o₁, hedit, hentry⟩ := h₁
      refine (freewalk_spec hedit.inv hedit.root fun w hw => ?_).mono fun _ s₂ h₂ => ?_
      · rw [hentry w hw, clearRange]
        split_ifs with hin
        · rfl
        · exact hempty w (by omega) hw
      · obtain ⟨o₂, hgone⟩ := h₂
        exact ⟨o₂, hedit.gone hgone⟩
  · rw [if_neg h0]
    exact freewalk_spec h hr fun w hw => hempty w (by omega) hw

theorem throughInt_of_lt {n : ℕ} (hn : n < 2 ^ 31) : Vm.throughInt n = n := by
  rw [Vm.throughInt, Nat.mod_eq_of_lt (by omega), if_pos hn]

/-- **`uvmdealloc`** to a smaller size. -/
theorem uvmdealloc_spec {oldsz newsz : ℕ} (h : VmInv L s o) (hr : o r = some (.table r 2 0))
    (hsz : oldsz ≤ 2 ^ 38) (hle : newsz ≤ oldsz)
    (huser : ∀ w, (newsz + 4095) / 4096 ≤ w → w < (oldsz + 4095) / 4096 →
      s.mem.entry r w ≠ 0 → s.mem.entry r w &&& pteU ≠ 0) :
    (Vm.uvmdealloc L r oldsz newsz).Returns s fun v s' => v = newsz ∧ ∃ o', Edit L r s o s' o' ∧
      ∀ w, w < 2 ^ 27 → s'.mem.entry r w = clearRange (s.mem.entry r) ((newsz + 4095) / 4096)
        ((oldsz + 4095) / 4096 - (newsz + 4095) / 4096) w := by
  have hsame : (oldsz + 4095) / 4096 = (newsz + 4095) / 4096 →
      newsz = newsz ∧ ∃ o', Edit L r s o s o' ∧ ∀ w, w < 2 ^ 27 → s.mem.entry r w =
        clearRange (s.mem.entry r) ((newsz + 4095) / 4096)
          ((oldsz + 4095) / 4096 - (newsz + 4095) / 4096) w := by
    intro heq
    refine ⟨rfl, o, .refl h hr, fun w _ => ?_⟩
    rw [heq, Nat.sub_self, clearRange_zero]
  rw [Vm.uvmdealloc]
  by_cases heq : oldsz ≤ newsz
  · obtain rfl : oldsz = newsz := by omega
    rw [if_pos heq, PanicM.returns_pure]
    exact hsame rfl
  · rw [if_neg heq, pgRoundUp_eq (by omega), pgRoundUp_eq (by omega)]
    by_cases hlt : (newsz + 4095) / 4096 * 4096 < (oldsz + 4095) / 4096 * 4096
    · have hpages : ((oldsz + 4095) / 4096 * 4096 - (newsz + 4095) / 4096 * 4096) / pgsize =
          (oldsz + 4095) / 4096 - (newsz + 4095) / 4096 := by
        simp only [pgsize]
        omega
      rw [if_pos hlt, hpages, throughInt_of_lt (by omega)]
      refine (uvmunmap_spec h hr (Nat.dvd_mul_left _ _) (by omega) fun w hlo hhi hne => ?_).bind
        fun _ s₁ h₁ => ?_
      · exact ⟨fun _ => rfl, fun _ => huser w (by omega) (by omega) hne⟩
      · obtain ⟨o₁, hedit, hentry⟩ := h₁
        rw [Nat.mul_div_cancel _ (by decide)] at hentry
        rw [PanicM.returns_pure]
        exact ⟨rfl, o₁, hedit, hentry⟩
    · rw [if_neg hlt, PanicM.returns_pure]
      exact hsame (by omega)

/-! ### Freeing takes no page -/

section Frugal

variable {α β : Type}

/-- The computation calls `kalloc` nowhere. -/
def Frugal (x : VmM α) : Prop :=
  ∀ s a s', x s = .ok (a, s') → s'.freemem = s.freemem ∧ s'.fails = s.fails

theorem Frugal.bind {x : VmM α} {f : α → VmM β} (hx : Frugal x) (hf : ∀ a, Frugal (f a)) :
    Frugal (x >>= f) := by
  intro s b s'' h
  obtain ⟨a, s', hxs, hfs⟩ := PanicM.bind_eq_ok_iff.mp h
  obtain ⟨hmem, hfails⟩ := hx s a s' hxs
  obtain ⟨hmem', hfails'⟩ := hf a s' b s'' hfs
  exact ⟨hmem'.trans hmem, hfails'.trans hfails⟩

theorem frugal_pure (a : α) : Frugal (pure a : VmM α) := by
  rintro s _ _ ⟨⟩
  exact ⟨rfl, rfl⟩

theorem frugal_fail (e : Panic) : Frugal (PanicM.fail e : VmM α) := by
  rintro s _ _ ⟨⟩

theorem frugal_update {g : Vm → Vm} (hmem : ∀ s, (g s).freemem = s.freemem)
    (hfails : ∀ s, (g s).fails = s.fails) : Frugal (PanicM.update g) := by
  intro s a s' h
  obtain ⟨-, rfl⟩ := Prod.mk.inj (Except.ok.inj h)
  exact ⟨hmem s, hfails s⟩

theorem frugal_load (a : ℕ) : Frugal (Vm.load a) := by
  intro s v s' h
  obtain ⟨-, rfl⟩ := Prod.mk.inj (Except.ok.inj h)
  exact ⟨rfl, rfl⟩

theorem frugal_store (a v : ℕ) : Frugal (Vm.store a v) :=
  frugal_update (fun _ => rfl) fun _ => rfl

theorem frugal_kfree (pa : ℕ) : Frugal (Vm.kfree pa) :=
  frugal_update (fun _ => rfl) fun _ => rfl

theorem frugal_ite {c : Prop} [Decidable c] {x y : VmM α} (hx : Frugal x) (hy : Frugal y) :
    Frugal (if c then x else y) := by
  split_ifs
  · exact hx
  · exact hy

theorem frugal_walk (r va : ℕ) : Frugal (Vm.walk L r va false) := by
  have hlevel : ∀ t l, Frugal (Vm.walkLevel L false t l va) := fun t l =>
    .bind (frugal_load _) fun _ => frugal_ite (frugal_pure _) (frugal_pure _)
  refine frugal_ite (frugal_fail _) (.bind (hlevel r 2) fun t₁ => ?_)
  cases t₁ with
  | none => exact frugal_pure _
  | some t₁ =>
    refine .bind (hlevel t₁ 1) fun t₀ => ?_
    cases t₀ with
    | none => exact frugal_pure _
    | some t₀ => exact frugal_pure _

theorem frugal_uvmunmap (r va n : ℕ) (doFree : Bool) : Frugal (Vm.uvmunmap L r va n doFree) := by
  have hpage : ∀ a, Frugal (Vm.uvmunmapPage L r a doFree) := by
    intro a
    refine .bind (frugal_walk r a) fun pte => frugal_ite (frugal_pure _) ?_
    refine .bind (frugal_load _) fun e => frugal_ite (frugal_pure _) ?_
    exact frugal_ite (.bind (frugal_kfree _) fun _ => frugal_store _ _) (frugal_store _ _)
  have hloop : ∀ stop fuel a, Frugal (Vm.uvmunmapLoop L r stop doFree fuel a) := by
    intro stop fuel
    induction fuel with
    | zero => exact fun a => frugal_ite (frugal_fail _) (frugal_pure _)
    | succ fuel ih =>
      exact fun a => frugal_ite (.bind (hpage a) fun _ => ih _) (frugal_pure _)
  exact frugal_ite (frugal_fail _) (hloop _ _ _)

theorem frugal_freewalk (r : ℕ) : Frugal (Vm.freewalk r) := by
  have hloop : ∀ child : ℕ → VmM Unit, (∀ t, Frugal (child t)) → ∀ t rest i,
      Frugal (Vm.freewalkLoop child t rest i) := by
    intro child hchild t rest
    induction rest with
    | zero => exact fun i => frugal_pure _
    | succ rest ih =>
      refine fun i => .bind (frugal_load _) fun e => frugal_ite ?_ ?_
      · exact .bind (hchild _) fun _ => .bind (frugal_store _ _) fun _ => ih _
      · exact frugal_ite (frugal_fail _) (ih _)
  have hdepth : ∀ depth t, Frugal (Vm.freewalkDepth depth t) := by
    intro depth
    induction depth with
    | zero => exact fun t => frugal_fail _
    | succ depth ih => exact fun t => .bind (hloop _ ih t _ _) fun _ => frugal_kfree _
  exact hdepth 3 r

theorem frugal_uvmfree (r sz : ℕ) : Frugal (Vm.uvmfree L r sz) :=
  frugal_ite (.bind (frugal_uvmunmap _ _ _ _) fun _ => frugal_freewalk r) (frugal_freewalk r)

end Frugal

end OsKernel
