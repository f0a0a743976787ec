import OsKernel.Vm.Code

/-!
# Page tables in memory

What a page table in memory means, and when the tables in memory are in order.

`Mem.entry m r vpn` is the meaning of the table at `r`: the leaf entry the hardware finds for
the virtual page `vpn`, `0` when there is none. `Tables m o` says that memory holds page
tables as the map `o` of owners describes them. An owner map gives every allocated page one
role, so that no page serves two purposes: it is a table of one root at one level and
position, or the user page of one root and one virtual page, or a trapframe, or a kernel
stack, or it is loose (handed out and not yet in use). The lemmas at the end are all the
ways the kernel changes a table: linking a table below another, writing or clearing a leaf,
starting a new root, dropping a whole root.
-/

namespace OsKernel

/-- The purpose a physical page serves. -/
inductive Role where
  /-- Handed out by `kalloc` and not yet in use. -/
  | loose
  /-- A table of the page table at `root`: the one at `level` for the virtual pages that
  start with `idx`. The root is its own table at level 2. -/
  | table (root level idx : ℕ)
  /-- The page that `root` maps with `PTE_U` at the virtual page `vpn`. -/
  | user (root vpn : ℕ)
  | trapframe (i : Slot)
  | kstack (i : Slot)
  deriving DecidableEq

/-- The role of every page, `none` for a page that is not in use. -/
abbrev Owners := ℕ → Option Role

/-- The roles in the page table at `r`. -/
def Role.Under (r : ℕ) : Role → Prop
  | .loose => False
  | .table r' _ _ => r' = r
  | .user r' _ => r' = r
  | .trapframe _ => False
  | .kstack _ => False

instance Role.decidableUnder (r : ℕ) : DecidablePred (Role.Under r)
  | .loose => isFalse fun h => h
  | .table r' _ _ => inferInstanceAs (Decidable (r' = r))
  | .user r' _ => inferInstanceAs (Decidable (r' = r))
  | .trapframe _ => isFalse fun h => h
  | .kstack _ => isFalse fun h => h

/-- The roles that are left when the page table at `r` is gone. -/
def Owners.drop (o : Owners) (r : ℕ) : Owners := fun q => (o q).filter fun ρ => ¬ρ.Under r

section Owners

variable {o : Owners} {c q : ℕ} {x : Option Role} {ρ ρ' : Role}

theorem update_eq_some (h : Function.update o c x q = some ρ) :
    q = c ∧ x = some ρ ∨ q ≠ c ∧ o q = some ρ := by
  by_cases hqc : q = c
  · subst hqc
    rw [Function.update_self] at h
    exact .inl ⟨rfl, h⟩
  · rw [Function.update_of_ne hqc] at h
    exact .inr ⟨hqc, h⟩

/-- A page with another role than the page whose role changes keeps it. -/
theorem update_keep (hc : o c = some ρ') (hq : o q = some ρ) (hne : ρ ≠ ρ') :
    Function.update o c x q = some ρ := by
  rw [Function.update_of_ne, hq]
  rintro rfl
  rw [hc, Option.some.injEq] at hq
  exact hne hq.symm

theorem Owners.drop_eq_some {r : ℕ} : o.drop r q = some ρ ↔ o q = some ρ ∧ ¬ρ.Under r := by
  simp [Owners.drop, Option.filter_eq_some_iff]

end Owners

/-- Entry `i` of the table in page `q`. -/
def Mem.pte (m : Mem) (q i : ℕ) : ℕ := m.load64 (q + 8 * i)

/-- The leaf entry for the virtual page `vpn` in the page table at `r`, `0` if there is none. -/
def Mem.entry (m : Mem) (r vpn : ℕ) : ℕ :=
  if m.pte r (vpn / 2 ^ 18) &&& pteV = 0 then 0
  else if m.pte (pte2pa (m.pte r (vpn / 2 ^ 18))) (vpn / 512 % 512) &&& pteV = 0 then 0
  else m.pte (pte2pa (m.pte (pte2pa (m.pte r (vpn / 2 ^ 18))) (vpn / 512 % 512))) (vpn % 512)

/-! ### Entries -/

section Entries

variable {m m' : Mem} {q q' i j v c : ℕ}

theorem Mem.AgreeOn.pte_eq (h : Mem.AgreeOn m m' q 4096) (hi : i < 512) :
    m'.pte q i = m.pte q i :=
  (h.mono (by omega) (by omega)).load64_eq

/-- Two distinct pages do not overlap. -/
theorem page_disjoint (hq : 4096 ∣ q) (hq' : 4096 ∣ q') (hne : q ≠ q') :
    q + 4096 ≤ q' ∨ q' + 4096 ≤ q := by
  omega

/-- A store to an entry is seen at that entry and nowhere else. -/
theorem Mem.pte_store64 (hq : 4096 ∣ q) (hq' : 4096 ∣ q') (hi : i < 512) (hj : j < 512)
    (hv : v < 2 ^ 64) :
    (m.store64 (q + 8 * i) v).pte q' j = if q' = q ∧ j = i then v else m.pte q' j := by
  split_ifs with h
  · obtain ⟨rfl, rfl⟩ := h
    exact Mem.load64_store64 hv
  · refine Mem.load64_store64_of_disjoint ?_
    by_cases hqq : q' = q
    · have : j ≠ i := fun hji => h ⟨hqq, hji⟩
      omega
    · have := page_disjoint hq hq' (Ne.symm hqq)
      omega

/-- A store to an entry leaves the other pages alone. -/
theorem Mem.agreeOn_store64_page (hq : 4096 ∣ q) (hq' : 4096 ∣ q') (hi : i < 512)
    (hne : q' ≠ q) : Mem.AgreeOn m (m.store64 (q + 8 * i) v) q' 4096 := by
  have := page_disjoint hq hq' (Ne.symm hne)
  exact Mem.agreeOn_store64 (by omega)

/-- The entry that points to the table in page `c`. -/
def tableEntry (c : ℕ) : ℕ := pa2pte c ||| pteV

theorem tableEntry_eq (c : ℕ) : tableEntry c = c / 4096 * 1024 + 1 := pa2pte_or (by decide)

theorem tableEntry_valid (c : ℕ) : tableEntry c &&& pteV ≠ 0 := by
  rw [and_eq_pteFlags_and (by decide), tableEntry, pteFlags_pa2pte_or (by decide)]
  decide

theorem tableEntry_ne_zero (c : ℕ) : tableEntry c ≠ 0 := by
  rw [tableEntry_eq]
  omega

theorem tableEntry_lt (hc : c < 2 ^ 64) : tableEntry c < 2 ^ 64 := by
  rw [tableEntry_eq]
  omega

theorem pte2pa_tableEntry (hc : 4096 ∣ c) (hlt : c < 2 ^ 64) : pte2pa (tableEntry c) = c :=
  pte2pa_pa2pte_or hc hlt (by decide)

theorem tableEntry_not_leaf (c : ℕ) : tableEntry c &&& (pteR ||| pteW ||| pteX) = 0 := by
  rw [and_eq_pteFlags_and (by decide), tableEntry, pteFlags_pa2pte_or (by decide)]
  decide

/-- A valid entry with some of the permissions `R`, `W`, `X`. -/
def IsLeaf (e : ℕ) : Prop := e &&& pteV ≠ 0 ∧ e &&& (pteR ||| pteW ||| pteX) ≠ 0

end Entries

/-! ### Tables in order -/

/-- Memory holds page tables as `o` describes them. -/
structure Tables (m : Mem) (o : Owners) : Prop where
  page : ∀ {q ρ}, o q = some ρ → 4096 ∣ q ∧ 0 < q ∧ q < 2 ^ 64
  level : ∀ {q r l idx}, o q = some (.table r l idx) → l ≤ 2
  root : ∀ {q r idx}, o q = some (.table r 2 idx) → q = r ∧ idx = 0
  /-- An entry above level 0 is empty or points to the table for its position. -/
  down : ∀ {q r l idx i}, o q = some (.table r (l + 1) idx) → i < 512 →
    m.pte q i = 0 ∨ ∃ c, o c = some (.table r l (512 * idx + i)) ∧ m.pte q i = tableEntry c
  /-- A table below level 2 is pointed to by the table above it. -/
  up : ∀ {c r l idx}, o c = some (.table r l idx) → l < 2 →
    ∃ q, o q = some (.table r (l + 1) (idx / 512)) ∧ m.pte q (idx % 512) = tableEntry c
  leaf : ∀ {q r idx i}, o q = some (.table r 0 idx) → i < 512 →
    m.pte q i = 0 ∨ IsLeaf (m.pte q i)
  /-- A page mapped with `PTE_U` is a user page of that table and position. -/
  mapped : ∀ {q r idx i}, o q = some (.table r 0 idx) → i < 512 → m.pte q i &&& pteU ≠ 0 →
    o (pte2pa (m.pte q i)) = some (.user r (512 * idx + i))
  /-- A user page is mapped where its role says. -/
  user : ∀ {q r vpn}, o q = some (.user r vpn) → ∃ t, o t = some (.table r 0 (vpn / 512)) ∧
    m.pte t (vpn % 512) &&& pteU ≠ 0 ∧ pte2pa (m.pte t (vpn % 512)) = q

namespace Tables

variable {m m' : Mem} {o o' : Owners} {q q' r l idx i c t vpn v : ℕ}

/-- No two pages are the same table. -/
theorem unique (h : Tables m o) (hq : o q = some (.table r l idx))
    (hq' : o q' = some (.table r l idx)) : q = q' := by
  have hl := h.level hq
  -- the entry above determines the page, and by induction there is one table above
  induction hk : 2 - l generalizing q q' l idx with
  | zero =>
    obtain rfl : l = 2 := by omega
    exact (h.root hq).1.trans (h.root hq').1.symm
  | succ k ih =>
    obtain ⟨p, hp, he⟩ := h.up hq (by omega)
    obtain ⟨p', hp', he'⟩ := h.up hq' (by omega)
    obtain rfl := ih hp hp' (h.level hp) (by omega)
    obtain ⟨hd, -, hlt⟩ := h.page hq
    obtain ⟨hd', -, hlt'⟩ := h.page hq'
    rw [← pte2pa_tableEntry hd hlt, ← pte2pa_tableEntry hd' hlt', ← he, ← he']

/-- Every table hangs from its root. -/
theorem rootTable (h : Tables m o) (hq : o q = some (.table r l idx)) :
    o r = some (.table r 2 0) := by
  have hl := h.level hq
  induction hk : 2 - l generalizing q l idx with
  | zero =>
    obtain rfl : l = 2 := by omega
    obtain ⟨rfl, rfl⟩ := h.root hq
    exact hq
  | succ k ih =>
    obtain ⟨p, hp, -⟩ := h.up hq (by omega)
    exact ih hp (h.level hp) (by omega)

theorem idx_lt (h : Tables m o) (hq : o q = some (.table r 0 idx)) : idx < 2 ^ 18 := by
  obtain ⟨p, hp, -⟩ := h.up hq (by omega)
  obtain ⟨p', hp', -⟩ := h.up hp (by omega)
  have := (h.root hp').2
  omega

theorem vpn_lt (h : Tables m o) (hq : o q = some (.user r vpn)) : vpn < 2 ^ 27 := by
  obtain ⟨t, ht, -⟩ := h.user hq
  have := h.idx_lt ht
  omega

/-- **The meaning of a table, where there is a table of the lowest level.** -/
theorem entry_of_table (h : Tables m o) (ht : o t = some (.table r 0 (vpn / 512))) :
    m.entry r vpn = m.pte t (vpn % 512) := by
  obtain ⟨p, hp, hpt⟩ := h.up ht (by omega)
  obtain ⟨p', hp', hpp⟩ := h.up hp (by omega)
  obtain ⟨rfl, hz⟩ := h.root hp'
  obtain ⟨hdp, -, hltp⟩ := h.page hp
  obtain ⟨hdt, -, hltt⟩ := h.page ht
  rw [show vpn / 512 / 512 % 512 = vpn / 2 ^ 18 by omega] at hpp
  rw [Mem.entry, hpp, pte2pa_tableEntry hdp hltp, hpt, pte2pa_tableEntry hdt hltt,
    if_neg (tableEntry_valid p), if_neg (tableEntry_valid t)]

/-- **The meaning of a table, where there is none.** -/
theorem entry_of_no_table (h : Tables m o) (hr : o r = some (.table r 2 0)) (hv : vpn < 2 ^ 27)
    (hno : ∀ t, o t ≠ some (.table r 0 (vpn / 512))) : m.entry r vpn = 0 := by
  rw [Mem.entry]
  rcases h.down hr (i := vpn / 2 ^ 18) (by omega) with h₂ | ⟨c, hc, h₂⟩
  · rw [h₂, if_pos (Nat.zero_and _)]
  · obtain ⟨hdc, -, hltc⟩ := h.page hc
    rw [h₂, pte2pa_tableEntry hdc hltc, if_neg (tableEntry_valid c)]
    rcases h.down hc (i := vpn / 512 % 512) (by omega) with h₁ | ⟨c', hc', -⟩
    · rw [h₁, if_pos (Nat.zero_and _)]
    · rw [show 512 * (512 * 0 + vpn / 2 ^ 18) + vpn / 512 % 512 = vpn / 512 by omega] at hc'
      exact absurd hc' (hno c')

/-- An entry is empty or a leaf. -/
theorem entry_leaf (h : Tables m o) (hr : o r = some (.table r 2 0)) (hv : vpn < 2 ^ 27) :
    m.entry r vpn = 0 ∨ IsLeaf (m.entry r vpn) := by
  by_cases hex : ∃ t, o t = some (.table r 0 (vpn / 512))
  · obtain ⟨t, ht⟩ := hex
    rw [h.entry_of_table ht]
    exact h.leaf ht (by omega)
  · exact .inl (h.entry_of_no_table hr hv fun t ht => hex ⟨t, ht⟩)

/-- **A user page is what its table maps with `PTE_U`.** -/
theorem user_iff (h : Tables m o) (hr : o r = some (.table r 2 0)) (hv : vpn < 2 ^ 27) :
    o q = some (.user r vpn) ↔ m.entry r vpn &&& pteU ≠ 0 ∧ pte2pa (m.entry r vpn) = q := by
  constructor
  · intro hq
    obtain ⟨t, ht, hu, hpa⟩ := h.user hq
    rw [h.entry_of_table ht]
    exact ⟨hu, hpa⟩
  · rintro ⟨hu, rfl⟩
    by_cases hex : ∃ t, o t = some (.table r 0 (vpn / 512))
    · obtain ⟨t, ht⟩ := hex
      rw [h.entry_of_table ht] at hu ⊢
      have := h.mapped ht (by omega) hu
      rwa [Nat.div_add_mod] at this
    · rw [h.entry_of_no_table hr hv fun t ht => hex ⟨t, ht⟩] at hu
      exact absurd (Nat.zero_and _) hu

/-- The root of a user page. -/
theorem rootUser (h : Tables m o) (hq : o q = some (.user r vpn)) : o r = some (.table r 2 0) := by
  obtain ⟨t, ht, -⟩ := h.user hq
  exact h.rootTable ht

/-- **Frame rule.** The meaning of a page table depends on its own tables only. -/
theorem entry_congr (h : Tables m o) (h' : Tables m' o') (hr : o r = some (.table r 2 0))
    (htables : ∀ q l idx, o' q = some (.table r l idx) ↔ o q = some (.table r l idx))
    (hmem : ∀ q idx, o q = some (.table r 0 idx) → Mem.AgreeOn m m' q 4096)
    (hv : vpn < 2 ^ 27) : m'.entry r vpn = m.entry r vpn := by
  by_cases hex : ∃ t, o t = some (.table r 0 (vpn / 512))
  · obtain ⟨t, ht⟩ := hex
    rw [h.entry_of_table ht, h'.entry_of_table ((htables _ _ _).mpr ht),
      (hmem _ _ ht).pte_eq (by omega)]
  · rw [h.entry_of_no_table hr hv fun t ht => hex ⟨t, ht⟩,
      h'.entry_of_no_table ((htables _ _ _).mpr hr) hv
        fun t ht => hex ⟨t, (htables _ _ _).mp ht⟩]

/-! ### How tables change -/

/-- Pages that are neither tables nor user pages come, go and change freely. -/
theorem congr (h : Tables m o) (hpage : ∀ {q ρ}, o' q = some ρ → 4096 ∣ q ∧ 0 < q ∧ q < 2 ^ 64)
    (htable : ∀ q r l idx, o' q = some (.table r l idx) ↔ o q = some (.table r l idx))
    (huser : ∀ q r vpn, o' q = some (.user r vpn) ↔ o q = some (.user r vpn))
    (hmem : ∀ q r l idx, o q = some (.table r l idx) → Mem.AgreeOn m m' q 4096) :
    Tables m' o' where
  page := hpage
  level hq := h.level ((htable _ _ _ _).mp hq)
  root hq := h.root ((htable _ _ _ _).mp hq)
  down hq hi := by
    have hq := (htable _ _ _ _).mp hq
    rw [(hmem _ _ _ _ hq).pte_eq hi]
    simpa only [htable] using h.down hq hi
  up hc hl := by
    obtain ⟨q, hq, he⟩ := h.up ((htable _ _ _ _).mp hc) hl
    refine ⟨q, (htable _ _ _ _).mpr hq, ?_⟩
    rw [(hmem _ _ _ _ hq).pte_eq (Nat.mod_lt _ (by decide)), he]
  leaf hq hi := by
    have hq := (htable _ _ _ _).mp hq
    rw [(hmem _ _ _ _ hq).pte_eq hi]
    exact h.leaf hq hi
  mapped hq hi := by
    have hq := (htable _ _ _ _).mp hq
    rw [(hmem _ _ _ _ hq).pte_eq hi, huser]
    exact h.mapped hq hi
  user hq := by
    obtain ⟨t, ht, he⟩ := h.user ((huser _ _ _).mp hq)
    refine ⟨t, (htable _ _ _ _).mpr ht, ?_⟩
    rwa [(hmem _ _ _ _ ht).pte_eq (Nat.mod_lt _ (by decide))]

/-- The position an entry leads to has no table while the entry is empty. -/
theorem no_table_of_empty (h : Tables m o) (hq : o q = some (.table r (l + 1) idx)) (hi : i < 512)
    (hempty : m.pte q i = 0) : o c ≠ some (.table r l (512 * idx + i)) := by
  intro hc
  obtain ⟨p, hp, he⟩ := h.up hc (by have := h.level hq; omega)
  rw [show (512 * idx + i) / 512 = idx by omega] at hp
  rw [show (512 * idx + i) % 512 = i by omega, h.unique hp hq, hempty] at he
  exact tableEntry_ne_zero c he.symm

/-- A loose page of empty entries becomes the root of a new page table. -/
theorem newRoot (h : Tables m o) (hc : o c = some .loose) (hzero : ∀ j, j < 512 → m.pte c j = 0) :
    Tables m (Function.update o c (some (.table c 2 0))) := by
  constructor
  case page =>
    intro q ρ hq
    rcases update_eq_some hq with ⟨rfl, -⟩ | ⟨-, hq⟩
    · exact h.page hc
    · exact h.page hq
  case level =>
    intro q r l idx hq
    rcases update_eq_some hq with ⟨rfl, heq⟩ | ⟨-, hq⟩
    · cases heq
      exact le_rfl
    · exact h.level hq
  case root =>
    intro q r idx hq
    rcases update_eq_some hq with ⟨rfl, heq⟩ | ⟨-, hq⟩
    · cases heq
      exact ⟨rfl, rfl⟩
    · exact h.root hq
  case down =>
    intro q r l idx i hq hi
    rcases update_eq_some hq with ⟨rfl, -⟩ | ⟨-, hq⟩
    · exact .inl (hzero i hi)
    · rcases h.down hq hi with he | ⟨d, hd, he⟩
      · exact .inl he
      · exact .inr ⟨d, update_keep hc hd (by simp), he⟩
  case up =>
    intro d r l idx hd hl
    rcases update_eq_some hd with ⟨rfl, heq⟩ | ⟨-, hd⟩
    · cases heq
      omega
    · obtain ⟨p, hp, he⟩ := h.up hd hl
      exact ⟨p, update_keep hc hp (by simp), he⟩
  case leaf =>
    intro q r idx i hq hi
    rcases update_eq_some hq with ⟨rfl, -⟩ | ⟨-, hq⟩
    · exact .inl (hzero i hi)
    · exact h.leaf hq hi
  case mapped =>
    intro q r idx i hq hi hu
    rcases update_eq_some hq with ⟨rfl, heq⟩ | ⟨-, hq⟩
    · cases heq
    · exact update_keep hc (h.mapped hq hi hu) (by simp)
  case user =>
    intro q r vpn hq
    rcases update_eq_some hq with ⟨rfl, heq⟩ | ⟨-, hq⟩
    · cases heq
    · obtain ⟨t, ht, he⟩ := h.user hq
      exact ⟨t, update_keep hc ht (by simp), he⟩

/-- A loose page of empty entries becomes the table an empty entry now points to. -/
theorem link (h : Tables m o) (hq : o q = some (.table r (l + 1) idx)) (hi : i < 512)
    (hempty : m.pte q i = 0) (hc : o c = some .loose) (hzero : ∀ j, j < 512 → m.pte c j = 0) :
    Tables (m.store64 (q + 8 * i) (tableEntry c))
      (Function.update o c (some (.table r l (512 * idx + i)))) := by
  have hqc : q ≠ c := by rintro rfl; simp [hc] at hq
  have hlt := tableEntry_lt (h.page hc).2.2
  have hpte : ∀ {p ρ j}, o p = some ρ → j < 512 →
      (m.store64 (q + 8 * i) (tableEntry c)).pte p j =
        if p = q ∧ j = i then tableEntry c else m.pte p j := fun hp hj =>
    Mem.pte_store64 (h.page hq).1 (h.page hp).1 hi hj hlt
  have hold : ∀ {p r' l' idx' j}, o p = some (.table r' l' idx') → j < 512 →
      (p = q → j ≠ i) → (m.store64 (q + 8 * i) (tableEntry c)).pte p j = m.pte p j :=
    fun hp hj hne => by rw [hpte hp hj, if_neg fun hpj => hne hpj.1 hpj.2]
  -- the entry written is not a leaf, so the tables of leaves stay as they are
  have hlevel : ∀ {p r' idx'}, o p = some (.table r' 0 idx') → p ≠ q := by
    rintro p r' idx' hp rfl
    rw [hq] at hp
    cases hp
  constructor
  case page =>
    intro p ρ hp
    rcases update_eq_some hp with ⟨rfl, -⟩ | ⟨-, hp⟩
    · exact h.page hc
    · exact h.page hp
  case level =>
    intro p r' l' idx' hp
    rcases update_eq_some hp with ⟨rfl, heq⟩ | ⟨-, hp⟩
    · cases heq
      have := h.level hq
      omega
    · exact h.level hp
  case root =>
    intro p r' idx' hp
    rcases update_eq_some hp with ⟨rfl, heq⟩ | ⟨-, hp⟩
    · cases heq
      have := h.level hq
      omega
    · exact h.root hp
  case down =>
    intro p r' l' idx' j hp hj
    rcases update_eq_some hp with ⟨rfl, -⟩ | ⟨-, hpo⟩
    · exact .inl (by rw [hpte hc hj, if_neg fun hpj => hqc hpj.1.symm, hzero j hj])
    · rw [hpte hpo hj]
      split_ifs with hpj
      · obtain ⟨rfl, rfl⟩ := hpj
        rw [hq] at hpo
        cases hpo
        exact .inr ⟨c, Function.update_self .., rfl⟩
      · rcases h.down hpo hj with he | ⟨d, hd, he⟩
        · exact .inl he
        · exact .inr ⟨d, update_keep hc hd (by simp), he⟩
  case up =>
    intro d r' l' idx' hd hl'
    rcases update_eq_some hd with ⟨rfl, heq⟩ | ⟨-, hd⟩
    · cases heq
      refine ⟨q, ?_, ?_⟩
      · rw [Function.update_of_ne hqc, hq, show (512 * idx + i) / 512 = idx by omega]
      · rw [show (512 * idx + i) % 512 = i by omega, hpte hq hi, if_pos ⟨rfl, rfl⟩]
    · obtain ⟨p, hp, he⟩ := h.up hd hl'
      refine ⟨p, update_keep hc hp (by simp), ?_⟩
      rw [hold hp (Nat.mod_lt _ (by decide)), he]
      -- the entry of an existing table is not the empty one
      rintro rfl rfl
      rw [hempty] at he
      exact tableEntry_ne_zero d he.symm
  case leaf =>
    intro p r' idx' j hp hj
    rcases update_eq_some hp with ⟨rfl, -⟩ | ⟨-, hp⟩
    · exact .inl (by rw [hpte hc hj, if_neg fun hpj => hqc hpj.1.symm, hzero j hj])
    · rw [hold hp hj fun hpq => absurd hpq (hlevel hp)]
      exact h.leaf hp hj
  case mapped =>
    intro p r' idx' j hp hj hu
    rcases update_eq_some hp with ⟨rfl, -⟩ | ⟨-, hp⟩
    · rw [hpte hc hj, if_neg fun hpj => hqc hpj.1.symm, hzero j hj] at hu
      exact absurd (Nat.zero_and _) hu
    · rw [hold hp hj fun hpq => absurd hpq (hlevel hp)] at hu ⊢
      exact update_keep hc (h.mapped hp hj hu) (by simp)
  case user =>
    intro p r' vpn hp
    rcases update_eq_some hp with ⟨rfl, heq⟩ | ⟨-, hp⟩
    · cases heq
    · obtain ⟨t, ht, he⟩ := h.user hp
      refine ⟨t, update_keep hc ht (by simp), ?_⟩
      rwa [hold ht (Nat.mod_lt _ (by decide)) fun htq => absurd htq (hlevel ht)]

/-- A leaf is written or cleared. The user page of its position becomes the page the new entry
maps with `PTE_U`, if it does; no other role changes among tables and user pages. -/
theorem setLeaf (h : Tables m o) (ht : o t = some (.table r 0 idx)) (hi : i < 512)
    (hv : v < 2 ^ 64) (hleaf : v = 0 ∨ IsLeaf v)
    (hpage : ∀ {q ρ}, o' q = some ρ → 4096 ∣ q ∧ 0 < q ∧ q < 2 ^ 64)
    (htable : ∀ q r l idx, o' q = some (.table r l idx) ↔ o q = some (.table r l idx))
    (huser : ∀ q r' vpn, ¬(r' = r ∧ vpn = 512 * idx + i) →
      (o' q = some (.user r' vpn) ↔ o q = some (.user r' vpn)))
    (hnew : ∀ q, o' q = some (.user r (512 * idx + i)) ↔ v &&& pteU ≠ 0 ∧ pte2pa v = q) :
    Tables (m.store64 (t + 8 * i) v) o' := by
  have hpte : ∀ {p ρ j}, o p = some ρ → j < 512 →
      (m.store64 (t + 8 * i) v).pte p j = if p = t ∧ j = i then v else m.pte p j := fun hp hj =>
    Mem.pte_store64 (h.page ht).1 (h.page hp).1 hi hj hv
  have hupper : ∀ {p r' l' idx' j}, o p = some (.table r' (l' + 1) idx') → j < 512 →
      (m.store64 (t + 8 * i) v).pte p j = m.pte p j := by
    intro p r' l' idx' j hp hj
    rw [hpte hp hj, if_neg]
    rintro ⟨rfl, -⟩
    rw [ht] at hp
    cases hp
  constructor
  case page => exact hpage
  case level => exact fun hq => h.level ((htable _ _ _ _).mp hq)
  case root => exact fun hq => h.root ((htable _ _ _ _).mp hq)
  case down =>
    intro q r' l' idx' j hq hj
    have hq := (htable _ _ _ _).mp hq
    rw [hupper hq hj]
    simpa only [htable] using h.down hq hj
  case up =>
    intro c r' l' idx' hc hl'
    obtain ⟨q, hq, he⟩ := h.up ((htable _ _ _ _).mp hc) hl'
    exact ⟨q, (htable _ _ _ _).mpr hq, by rw [hupper hq (Nat.mod_lt _ (by decide)), he]⟩
  case leaf =>
    intro q r' idx' j hq hj
    have hq := (htable _ _ _ _).mp hq
    rw [hpte hq hj]
    split_ifs
    · exact hleaf
    · exact h.leaf hq hj
  case mapped =>
    intro q r' idx' j hq hj hu
    have hq := (htable _ _ _ _).mp hq
    rw [hpte hq hj] at hu ⊢
    split_ifs at hu ⊢ with hpos
    · obtain ⟨rfl, rfl⟩ := hpos
      rw [ht] at hq
      cases hq
      exact (hnew _).mpr ⟨hu, rfl⟩
    · refine (huser _ _ _ ?_).mpr (h.mapped hq hj hu)
      rintro ⟨rfl, heq⟩
      obtain ⟨rfl, rfl⟩ : idx' = idx ∧ j = i := by omega
      exact hpos ⟨h.unique hq ht, rfl⟩
  case user =>
    intro q r' vpn hq
    by_cases hpos : r' = r ∧ vpn = 512 * idx + i
    · obtain ⟨rfl, rfl⟩ := hpos
      refine ⟨t, (htable _ _ _ _).mpr ?_, ?_⟩
      · rw [ht, show (512 * idx + i) / 512 = idx by omega]
      · rw [show (512 * idx + i) % 512 = i by omega, hpte ht hi, if_pos ⟨rfl, rfl⟩]
        exact (hnew q).mp hq
    · obtain ⟨p, hp, he⟩ := h.user ((huser _ _ _ hpos).mp hq)
      refine ⟨p, (htable _ _ _ _).mpr hp, ?_⟩
      rwa [hpte hp (Nat.mod_lt _ (by decide)), if_neg]
      rintro ⟨rfl, hmod⟩
      rw [ht] at hp
      cases hp
      exact hpos ⟨rfl, by omega⟩

/-- All tables and user pages of a root go at once. -/
theorem drop (h : Tables m o)
    (hkeep : ∀ q ρ, o' q = some ρ ↔ o q = some ρ ∧ ¬ρ.Under r)
    (hmem : ∀ q r' l idx, o q = some (.table r' l idx) → r' ≠ r → Mem.AgreeOn m m' q 4096) :
    Tables m' o' := by
  have htable : ∀ {q r' l idx}, o' q = some (.table r' l idx) ↔
      o q = some (.table r' l idx) ∧ r' ≠ r := fun {q r' l idx} => hkeep q _
  have huser : ∀ {q r' vpn}, o' q = some (.user r' vpn) ↔
      o q = some (.user r' vpn) ∧ r' ≠ r := fun {q r' vpn} => hkeep q _
  constructor
  case page => exact fun hq => h.page ((hkeep _ _).mp hq).1
  case level => exact fun hq => h.level (htable.mp hq).1
  case root => exact fun hq => h.root (htable.mp hq).1
  case down =>
    intro q r' l idx i hq hi
    obtain ⟨hq, hne⟩ := htable.mp hq
    rw [(hmem _ _ _ _ hq hne).pte_eq hi]
    rcases h.down hq hi with he | ⟨c, hc, he⟩
    · exact .inl he
    · exact .inr ⟨c, htable.mpr ⟨hc, hne⟩, he⟩
  case up =>
    intro c r' l idx hc hl
    obtain ⟨hc, hne⟩ := htable.mp hc
    obtain ⟨q, hq, he⟩ := h.up hc hl
    refine ⟨q, htable.mpr ⟨hq, hne⟩, ?_⟩
    rw [(hmem _ _ _ _ hq hne).pte_eq (Nat.mod_lt _ (by decide)), he]
  case leaf =>
    intro q r' idx i hq hi
    obtain ⟨hq, hne⟩ := htable.mp hq
    rw [(hmem _ _ _ _ hq hne).pte_eq hi]
    exact h.leaf hq hi
  case mapped =>
    intro q r' idx i hq hi hu
    obtain ⟨hq, hne⟩ := htable.mp hq
    rw [(hmem _ _ _ _ hq hne).pte_eq hi] at hu ⊢
    exact huser.mpr ⟨h.mapped hq hi hu, hne⟩
  case user =>
    intro q r' vpn hq
    obtain ⟨hq, hne⟩ := huser.mp hq
    obtain ⟨t, ht, he⟩ := h.user hq
    refine ⟨t, htable.mpr ⟨ht, hne⟩, ?_⟩
    rwa [(hmem _ _ _ _ ht hne).pte_eq (Nat.mod_lt _ (by decide))]

end Tables

end OsKernel
