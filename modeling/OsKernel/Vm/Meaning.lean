import OsKernel.Lib.PointerTree
import OsKernel.Vm.Map

/-!
# Page tables refine finite maps

The functions on page tables, for any single page table in memory and not only for those the
kernel builds. The tables are the nodes of a tree of pointers of depth two whose indices are
the nine-bit parts of a virtual page number; what a path of three steps ends at is a mapped
page. `TableTree m r` says that the tables below `r` form a tree, and `WellFormed m r` that in
addition no mapped page is one of them. The meaning of a table is the finite map `Mem.meaning`
from virtual pages to physical pages and flags.

`walk` without allocation reads the meaning, `mappages` extends it and `uvmunmap` restricts
it. A table that maps its own tables keeps its meaning, as the page table of the kernel does,
so the tree alone carries these results. A table stays well-formed when the pages it maps are
not tables, and `kalloc` hands out neither tables nor mapped pages.
-/

namespace OsKernel

variable {L : Layout} {s s' s'' : Vm} {r q va pa perm level : ℕ}

/-! ### Tables as a tree -/

/-- The page that entry `i` of the table in page `q` points to. -/
def Mem.child (m : Mem) (q : ℕ) (i : Fin 512) : Option ℕ :=
  if m.pte q i &&& pteV = 0 then none else some (pte2pa (m.pte q i))

/-- The part of a virtual page number that indexes the tables of a level. -/
def vpx (level vpn : ℕ) : Fin 512 := ⟨vpn / 512 ^ level % 512, Nat.mod_lt _ (by decide)⟩

/-- The path to the table of the lowest level for a virtual page. -/
def tablePath (vpn : ℕ) : List (Fin 512) := [vpx 1 vpn, vpx 2 vpn]

/-- The tables of the page table at `r`. -/
abbrev Mem.TablePage (m : Mem) (r q : ℕ) : Prop := NodeWithin m.child r 2 q

/-- The pages that the page table at `r` maps. -/
def Mem.DataPage (m : Mem) (r q : ℕ) : Prop := ∃ p, p.length = 3 ∧ follow m.child r p = some q

/-- The tables below `r` form a tree. -/
structure TableTree (m : Mem) (r : ℕ) : Prop where
  aligned : 4096 ∣ r
  ne_zero : ∀ q, m.TablePage r q → q ≠ 0
  tree : IsTree m.child r 2

/-- The tables below `r` form a tree, and no mapped page is one of them. -/
structure WellFormed (m : Mem) (r : ℕ) : Prop extends TableTree m r where
  data : ∀ q, m.TablePage r q → ¬m.DataPage r q

/-- The physical page and the flags an entry stands for, if it is valid. -/
def leafMeaning (e : ℕ) : Option (ℕ × ℕ) :=
  if e &&& pteV = 0 then none else some (pte2pa e, pteFlags e)

/-- **The meaning of a page table**: the physical page and the flags of a virtual page. -/
def Mem.meaning (m : Mem) (r vpn : ℕ) : Option (ℕ × ℕ) := leafMeaning (m.entry r vpn)

theorem px_eq_vpx (level va : ℕ) : px level va = vpx level (va / 4096) := by
  show _ = va / 4096 / 512 ^ level % 512
  rw [px_eq, Nat.div_div_eq_div_mul, Nat.pow_add, Nat.pow_mul]

theorem vpx_two_val {vpn : ℕ} (hv : vpn < 2 ^ 27) : (vpx 2 vpn : ℕ) = vpn / 2 ^ 18 := by
  simp only [vpx]
  omega

theorem tablePath_eq_iff {v w : ℕ} (hv : v < 2 ^ 27) (hw : w < 2 ^ 27) :
    vpx 0 v = vpx 0 w ∧ tablePath v = tablePath w ↔ v = w := by
  simp only [tablePath, vpx, List.cons.injEq, and_true, Fin.mk.injEq]
  omega

section Nodes

variable {m m' : Mem} {p : List (Fin 512)} {i : Fin 512} {c : ℕ}

theorem Mem.child_eq_some (h : m.child q i = some c) : 4096 ∣ c ∧ c < 2 ^ 64 := by
  rw [Mem.child] at h
  split_ifs at h
  obtain rfl := Option.some.inj h
  rw [pte2pa_eq]
  omega

theorem Mem.child_congr (h : m'.pte q i = m.pte q i) : m'.child q i = m.child q i := by
  rw [Mem.child, Mem.child, h]

theorem Mem.TablePage.aligned (hr : 4096 ∣ r) (hq : m.TablePage r q) : 4096 ∣ q := by
  obtain ⟨p, -, hp⟩ := hq
  cases p with
  | nil => exact Option.some.inj hp ▸ hr
  | cons i p =>
    rw [follow, Option.bind_eq_some_iff] at hp
    obtain ⟨a, -, ha⟩ := hp
    exact (Mem.child_eq_some ha).1

theorem TableTree.page_aligned (h : TableTree m r) (hq : m.TablePage r q) : 4096 ∣ q :=
  hq.aligned h.aligned

/-- The entry for a virtual page is in the table at the end of its path. -/
theorem Mem.entry_eq_follow (m : Mem) (r : ℕ) {vpn : ℕ} (hv : vpn < 2 ^ 27) :
    m.entry r vpn = ((follow m.child r (tablePath vpn)).map fun t =>
      m.pte t (vpx 0 vpn)).getD 0 := by
  have h₁ : (vpx 1 vpn : ℕ) = vpn / 512 % 512 := by simp only [vpx, pow_one]
  have h₀ : (vpx 0 vpn : ℕ) = vpn % 512 := by simp only [vpx, pow_zero, Nat.div_one]
  rw [Mem.entry, ← vpx_two_val hv, ← h₁, ← h₀]
  simp only [tablePath, follow, Option.bind_some, Mem.child]
  split_ifs with h₂ h₃
  · rfl
  · simp [h₃]
  · simp [h₃]

theorem Mem.entry_of_follow {vpn : ℕ} (hv : vpn < 2 ^ 27)
    (h : follow m.child r (tablePath vpn) = some q) : m.entry r vpn = m.pte q (vpx 0 vpn) := by
  rw [m.entry_eq_follow r hv, h]
  rfl

theorem Mem.entry_of_follow_none {vpn : ℕ} (hv : vpn < 2 ^ 27)
    (h : follow m.child r (tablePath vpn) = none) : m.entry r vpn = 0 := by
  rw [m.entry_eq_follow r hv, h]
  rfl

/-- Memory that agrees on the tables of `r` has the same page table there. -/
theorem Mem.tables_congr (hpte : ∀ q, m.TablePage r q → ∀ j : Fin 512, m'.pte q j = m.pte q j) :
    (∀ x : List (Fin 512), x.length ≤ 2 → follow m'.child r x = follow m.child r x) ∧
      (∀ q, m'.TablePage r q ↔ m.TablePage r q) ∧
      ∀ w, w < 2 ^ 27 → m'.entry r w = m.entry r w := by
  have hfollow : ∀ x : List (Fin 512), x.length ≤ 2 → follow m'.child r x = follow m.child r x :=
    fun x hx => follow_of_agree (fun q j hq => Mem.child_congr (hpte q hq j)) hx
  refine ⟨hfollow, fun q => NodeWithin.congr hfollow, fun w hw => ?_⟩
  have hpath : (tablePath w).length ≤ 2 := by simp [tablePath]
  rw [m'.entry_eq_follow r hw, m.entry_eq_follow r hw, hfollow _ hpath]
  cases hq : follow m.child r (tablePath w) with
  | none => simp only [Option.map_none]
  | some q => simp only [Option.map_some, hpte q ⟨_, hpath, hq⟩]

/-- Every path of three steps is that of a virtual page. -/
theorem exists_vpn {p : List (Fin 512)} (hp : p.length = 3) :
    ∃ vpn, vpn < 2 ^ 27 ∧ p = vpx 0 vpn :: tablePath vpn := by
  obtain ⟨a, b, c, rfl⟩ := List.length_eq_three.mp hp
  refine ⟨512 * (512 * c + b) + a, by omega, ?_⟩
  simp only [tablePath, vpx, List.cons.injEq, and_true, Fin.ext_iff]
  omega

/-- **The mapped pages are those of the meaning.** -/
theorem Mem.dataPage_iff :
    m.DataPage r q ↔ ∃ vpn fl, vpn < 2 ^ 27 ∧ m.meaning r vpn = some (q, fl) := by
  have hpath : ∀ {vpn}, vpn < 2 ^ 27 → (follow m.child r (vpx 0 vpn :: tablePath vpn) = some q ↔
      ∃ fl, m.meaning r vpn = some (q, fl)) := by
    intro vpn hv
    rw [follow, Mem.meaning, leafMeaning]
    cases ht : follow m.child r (tablePath vpn) with
    | none => simp [Mem.entry_of_follow_none hv ht]
    | some t =>
      rw [Option.bind_some, Mem.entry_of_follow hv ht, Mem.child]
      split_ifs <;> simp
  constructor
  · rintro ⟨p, hp, hq⟩
    obtain ⟨vpn, hv, rfl⟩ := exists_vpn hp
    obtain ⟨fl, hm⟩ := (hpath hv).mp hq
    exact ⟨vpn, fl, hv, hm⟩
  · rintro ⟨vpn, fl, hv, hm⟩
    exact ⟨_, rfl, (hpath hv).mpr ⟨fl, hm⟩⟩

/-- **Rule for a new table**: a page of zeros hung below an invalid entry changes no entry for a
virtual page. -/
theorem TableTree.link {n : Mem} (h : TableTree m r) (hq : follow m.child r p = some q)
    (hp : p.length < 2)
    (hempty : m.child q i = none) (hc : 4096 ∣ c) (hc0 : c ≠ 0) (hlt : c < 2 ^ 64)
    (hfresh : ¬m.TablePage r c) (hnew : n.pte q i = tableEntry c)
    (hzero : ∀ j : Fin 512, n.pte c j = 0)
    (hkeep : ∀ a (j : Fin 512), 4096 ∣ a → a ≠ c → (a ≠ q ∨ j ≠ i) → n.pte a j = m.pte a j) :
    TableTree n r ∧ (∀ vpn, vpn < 2 ^ 27 → n.entry r vpn = m.entry r vpn) ∧
      (∀ a, n.TablePage r a → m.TablePage r a ∨ a = c) ∧
      follow n.child r (i :: p) = some c ∧
      ∀ x, x.length ≤ 2 → x ≠ i :: p → follow n.child r x = follow m.child r x := by
  have hne : ∀ {a}, m.TablePage r a → a ≠ c := fun ha hac => hfresh (hac ▸ ha)
  have hagree : ∀ a j, NodeWithin m.child r 2 a → (a ≠ q ∨ j ≠ i) → n.child a j = m.child a j :=
    fun a j ha haj => Mem.child_congr (hkeep a j (h.page_aligned ha) (hne ha) haj)
  have hchild : n.child q i = some c := by
    rw [Mem.child, hnew, if_neg (tableEntry_valid c), pte2pa_tableEntry hc hlt]
  have hleaf : ∀ j, n.child c j = none := fun j => by
    rw [Mem.child, hzero, if_pos (Nat.zero_and _)]
  have hlink : ∀ x : List (Fin 512), x.length ≤ 2 → follow n.child r (i :: p) = some c ∧
      (x ≠ i :: p → follow n.child r x = follow m.child r x) := fun x hx =>
    follow_link h.tree hq (by omega) hempty hagree hchild hleaf (by omega)
  have hpath := (hlink [] (by simp)).1
  have htables : ∀ a, n.TablePage r a → m.TablePage r a ∨ a = c := by
    rintro a ⟨x, hx, hxa⟩
    by_cases hxp : x = i :: p
    · rw [hxp, hpath, Option.some.injEq] at hxa
      exact .inr hxa.symm
    · rw [(hlink x hx).2 hxp] at hxa
      exact .inl ⟨x, hx, hxa⟩
  refine ⟨⟨h.aligned, fun a ha => ?_, h.tree.link hq hp hempty hagree hchild hleaf hfresh⟩,
    fun vpn hv => ?_, htables, hpath, fun x hx => (hlink x hx).2⟩
  · rcases htables a ha with ha | rfl
    · exact h.ne_zero a ha
    · exact hc0
  · by_cases hxp : tablePath vpn = i :: p
    · rw [Mem.entry_of_follow hv (hxp ▸ hpath), hzero,
        Mem.entry_of_follow_none hv (by rw [hxp, follow_cons hq, hempty])]
    · have hx := (hlink (tablePath vpn) (by simp [tablePath])).2 hxp
      cases ht : follow m.child r (tablePath vpn) with
      | none => rw [Mem.entry_of_follow_none hv ht, Mem.entry_of_follow_none hv (hx.trans ht)]
      | some t =>
        have htp : m.TablePage r t := ⟨_, by simp [tablePath], ht⟩
        rw [Mem.entry_of_follow hv ht, Mem.entry_of_follow hv (hx.trans ht)]
        refine hkeep t _ (h.page_aligned htp) (hne htp) ?_
        -- a table of the lowest level is not the one that got the new entry
        refine .inl fun htq => ?_
        have := h.tree (by simp [tablePath]) (by omega) ht (htq ▸ hq)
        rw [← this] at hp
        exact absurd hp (by simp [tablePath])

/-- **Rule for a leaf**: writing an entry of a table of the lowest level changes the entry for
one virtual page. -/
theorem TableTree.write (h : TableTree m r) {vpn : ℕ} (hv : vpn < 2 ^ 27)
    (hq : follow m.child r (tablePath vpn) = some q)
    (hkeep : ∀ a (j : Fin 512), 4096 ∣ a → (a ≠ q ∨ j ≠ vpx 0 vpn) → m'.pte a j = m.pte a j) :
    TableTree m' r ∧ (∀ a, m'.TablePage r a ↔ m.TablePage r a) ∧
      ∀ w, w < 2 ^ 27 →
        m'.entry r w = if w = vpn then m'.pte q (vpx 0 vpn) else m.entry r w := by
  have hagree : ∀ a j, NodeWithin m.child r 2 a → (a ≠ q ∨ j ≠ vpx 0 vpn) →
      m'.child a j = m.child a j := fun a j ha haj =>
    Mem.child_congr (hkeep a j (h.page_aligned ha) haj)
  have hpaths : ∀ x : List (Fin 512), x.length ≤ 2 → follow m'.child r x = follow m.child r x :=
    fun x hx => follow_write h.tree hq rfl hagree (by omega) fun hxp => by
      rw [hxp] at hx
      exact absurd hx (by simp [tablePath])
  have htables : ∀ a, m'.TablePage r a ↔ m.TablePage r a := fun a => NodeWithin.congr hpaths
  refine ⟨⟨h.aligned, fun a ha => h.ne_zero a ((htables a).mp ha), h.tree.congr hpaths⟩, htables,
    fun w hw => ?_⟩
  have hx := hpaths (tablePath w) (by simp [tablePath])
  split_ifs with hwv
  · rw [hwv, Mem.entry_of_follow hv ((hpaths _ (by simp [tablePath])).trans hq)]
  · cases ht : follow m.child r (tablePath w) with
    | none => rw [Mem.entry_of_follow_none hw ht, Mem.entry_of_follow_none hw (hx.trans ht)]
    | some t =>
      rw [Mem.entry_of_follow hw ht, Mem.entry_of_follow hw (hx.trans ht)]
      refine hkeep t _ (h.page_aligned ⟨_, by simp [tablePath], ht⟩) ?_
      by_contra hcon
      push Not at hcon
      obtain ⟨rfl, hi⟩ := hcon
      have hpath := h.tree (by simp [tablePath]) (by simp [tablePath]) ht hq
      exact hwv ((tablePath_eq_iff hw hv).mp ⟨hi, hpath⟩)

end Nodes

/-! ### `walk` -/

/-- The pages that `kalloc` can hand out. -/
def Vm.FreePage (L : Layout) (s : Vm) (q : ℕ) : Prop := s.freemem ≤ q ∧ q + 4096 ≤ L.phystop

/-- The pages that `kalloc` is going to hand out are not tables of `r`. -/
structure Room (L : Layout) (s : Vm) (r : ℕ) : Prop where
  aligned : 4096 ∣ s.freemem
  apart : ∀ q, s.freemem ≤ q → q + 4096 ≤ L.phystop → ¬s.mem.TablePage r q

/-- What an operation that adds tables keeps. -/
structure Extends (L : Layout) (r : ℕ) (s s' : Vm) : Prop where
  tree : TableTree s'.mem r
  room : Room L s' r
  tables : ∀ q, s'.mem.TablePage r q →
    s.mem.TablePage r q ∨ s.freemem ≤ q ∧ q + 4096 ≤ L.phystop
  mono : s.freemem ≤ s'.freemem
  fails : ∀ n, s'.fails n = true → ∃ k, s.fails k = true
  frame : ∀ q, 4096 ∣ q → ¬s.mem.TablePage r q → ¬s.FreePage L q → Mem.AgreeOn s.mem s'.mem q 4096

theorem Extends.refl (h : TableTree s.mem r) (hroom : Room L s r) : Extends L r s s :=
  ⟨h, hroom, fun _ => .inl, le_rfl, fun n hn => ⟨n, hn⟩, fun _ _ _ _ => .refl _ _ _⟩

theorem Extends.trans (h : Extends L r s s') (h' : Extends L r s' s'') : Extends L r s s'' where
  tree := h'.tree
  room := h'.room
  tables q hq := by
    have := h.mono
    rcases h'.tables q hq with hq | hq
    · exact h.tables q hq
    · exact .inr ⟨by omega, hq.2⟩
  mono := h.mono.trans h'.mono
  fails n hn := by
    obtain ⟨k, hk⟩ := h'.fails n hn
    exact h.fails k hk
  frame q hd hq hfree := by
    refine (h.frame q hd hq hfree).trans (h'.frame q hd (fun hq' => ?_) fun hfree' => ?_)
    · exact (h.tables q hq').elim hq hfree
    · exact hfree ⟨h.mono.trans hfree'.1, hfree'.2⟩

/-- The reasons `kalloc` can have had to fail in the state `s'`: it was told to, or it has not
been initialised, or memory is used up. -/
def Denied (L : Layout) (s s' : Vm) : Prop :=
  (∃ n, s.fails n = true) ∨ s'.freemem = 0 ∨ L.phystop < s'.freemem + 4096

theorem Extends.denied (h : Extends L r s s') (hs : Denied L s' s'') : Denied L s s'' := by
  rcases hs with ⟨n, hn⟩ | hfull
  · exact .inl (h.fails n hn)
  · exact .inr hfull

theorem walkLevel_eq (alloc : Bool) (h : s.mem.child q (vpx level (va / 4096)) = some r) :
    Vm.walkLevel L alloc q level va s = .ok (some r, s) := by
  rw [Mem.child, ← px_eq_vpx, Mem.pte] at h
  split_ifs at h with hv
  simp [Vm.walkLevel, Vm.load, hv, Option.some.inj h]

theorem walkLevel_eq_none (h : s.mem.child q (vpx level (va / 4096)) = none) :
    Vm.walkLevel L false q level va s = .ok (none, s) := by
  rw [Mem.child, ← px_eq_vpx, Mem.pte] at h
  split_ifs at h with hv
  simp [Vm.walkLevel, Vm.load, hv]

/-- One round of a walk that allocates. -/
theorem walkLevel_extends {p : List (Fin 512)} (h : TableTree s.mem r) (hroom : Room L s r)
    (hq : follow s.mem.child r p = some q) (hp : p.length < 2) :
    (Vm.walkLevel L true q level va).Returns s fun c s' => Extends L r s s' ∧
      (∀ vpn, vpn < 2 ^ 27 → s'.mem.entry r vpn = s.mem.entry r vpn) ∧
      (c = none ∧ Denied L s s' ∨
        ∃ t, c = some t ∧ follow s'.mem.child r (vpx level (va / 4096) :: p) = some t) := by
  cases hc : s.mem.child q (vpx level (va / 4096)) with
  | some t =>
    exact PanicM.returns_of_ok (walkLevel_eq true hc)
      ⟨.refl h hroom, fun _ _ => rfl, .inr ⟨t, rfl, by rw [follow_cons hq, hc]⟩⟩
  | none =>
    have hinv : s.mem.load64 (q + 8 * px level va) &&& pteV = 0 := by
      rw [px_eq_vpx]
      rw [Mem.child] at hc
      split_ifs at hc with hv
      exact hv
    have hqt : s.mem.TablePage r q := ⟨p, by omega, hq⟩
    rcases kalloc_cases L s with ⟨hk, hwhy⟩ | ⟨hk, hpos, hfit, -⟩
    · refine PanicM.returns_of_ok (a := none) (t := s.deny) ?_
        ⟨⟨h, ⟨hroom.aligned, hroom.apart⟩, fun _ => .inl, le_rfl, fun n hn => ⟨n + 1, hn⟩,
          fun _ _ _ _ => .refl _ _ _⟩, fun _ _ => rfl, .inl ⟨rfl, hwhy.imp_left fun hf => ⟨0, hf⟩⟩⟩
      simp [Vm.walkLevel, Vm.load, hinv, PanicM.bind_of_ok hk]
    · have hfresh := hroom.apart s.freemem le_rfl hfit
      have hlt : s.freemem < 2 ^ 64 := by
        have := L.phystop_le
        omega
      have hqd := h.page_aligned hqt
      have hne : q ≠ s.freemem := fun heq => hfresh (heq ▸ hqt)
      set m := ((s.mem.memset s.freemem 0 4096).memset s.freemem 0 4096).store64
        (q + 8 * px level va) (tableEntry s.freemem) with hm
      have hstore : ∀ a (j : Fin 512), 4096 ∣ a → m.pte a j =
          if a = q ∧ (j : ℕ) = px level va then tableEntry s.freemem
          else ((s.mem.memset s.freemem 0 4096).memset s.freemem 0 4096).pte a j :=
        fun a j ha => Mem.pte_store64 hqd ha (px_lt level va) j.isLt (tableEntry_lt hlt)
      obtain ⟨htree, hentry, htables, hpath, -⟩ := h.link (n := m) hq hp hc hroom.aligned hpos hlt
        hfresh (by rw [hstore _ _ hqd, if_pos ⟨rfl, (px_eq_vpx _ _).symm⟩])
        (fun j => by
          rw [hstore _ _ hroom.aligned, if_neg fun hj => hne hj.1.symm, Mem.pte_memset j.isLt])
        (fun a j ha hac haj => by
          rw [hstore _ _ ha, if_neg fun hj => haj.elim (absurd hj.1)
            (absurd (Fin.ext (hj.2.trans (px_eq_vpx _ _)))),
            (Mem.agreeOn_memset hroom.aligned ha hac.symm 0).pte_eq j.isLt,
            (Mem.agreeOn_memset hroom.aligned ha hac.symm 0).pte_eq j.isLt])
      refine PanicM.returns_of_ok (a := some s.freemem) (t := { s.grant with mem := m }) ?_
        ⟨⟨htree, ⟨?_, ?_⟩, ?_, Nat.le_add_right _ _, fun n hn => ⟨n + 1, hn⟩, ?_⟩, hentry,
          .inr ⟨_, rfl, hpath⟩⟩
      · simp [Vm.walkLevel, Vm.load, hinv, PanicM.bind_of_ok hk, hpos, Vm.memset, Vm.store,
          tableEntry, pgsize, hm, Vm.grant]
      · show 4096 ∣ s.freemem + 4096
        have := hroom.aligned
        omega
      · intro a ha hfit' hat
        have ha : s.freemem + 4096 ≤ a := ha
        rcases htables a hat with hat | rfl
        · exact hroom.apart a (by omega) hfit' hat
        · omega
      · intro a ha
        rcases htables a ha with ha | rfl
        · exact .inl ha
        · exact .inr ⟨le_rfl, hfit⟩
      · -- the stores are to the new table and to the one it hangs below
        intro a ha hat hfree
        have hac : s.freemem ≠ a := fun heq => hfree (heq ▸ ⟨le_rfl, hfit⟩)
        exact ((Mem.agreeOn_memset hroom.aligned ha hac 0).trans
          (Mem.agreeOn_memset hroom.aligned ha hac 0)).trans
          (Mem.agreeOn_store64_page hqd ha (px_lt level va) fun heq => hat (heq ▸ hqt))

theorem not_maxva_le (hva : va < 2 ^ 38) : ¬maxva ≤ va := by
  simp only [maxva]
  omega

/-- **A walk that does not allocate** returns the address of the entry in the table at the end
of the path, or `0` if there is no table. -/
theorem walk_false_eq (hva : va < 2 ^ 38) : Vm.walk L r va false s = .ok
    (((follow s.mem.child r (tablePath (va / 4096))).map
      fun t => t + 8 * (vpx 0 (va / 4096) : ℕ)).getD 0, s) := by
  rw [Vm.walk, if_neg (not_maxva_le hva)]
  simp only [tablePath, follow, Option.bind_some]
  cases h₂ : s.mem.child r (vpx 2 (va / 4096)) with
  | none => rw [PanicM.bind_of_ok (walkLevel_eq_none h₂)]; rfl
  | some t =>
    rw [PanicM.bind_of_ok (walkLevel_eq false h₂)]
    cases h₁ : s.mem.child t (vpx 1 (va / 4096)) with
    | none => simp [PanicM.bind_of_ok (walkLevel_eq_none h₁), h₁]
    | some t' => simp [PanicM.bind_of_ok (walkLevel_eq false h₁), h₁, px_eq_vpx]

/-- **A walk that allocates** adds the tables it needs, which changes no entry for a virtual
page, and returns the address of the entry; or `kalloc` fails. -/
theorem walk_extends (h : TableTree s.mem r) (hroom : Room L s r) (hva : va < 2 ^ 38) :
    (Vm.walk L r va true).Returns s fun p s' => Extends L r s s' ∧
      (∀ vpn, vpn < 2 ^ 27 → s'.mem.entry r vpn = s.mem.entry r vpn) ∧
      (p = 0 ∧ Denied L s s' ∨ ∃ t, follow s'.mem.child r (tablePath (va / 4096)) = some t ∧
        p = t + 8 * (vpx 0 (va / 4096) : ℕ)) := by
  rw [Vm.walk, if_neg (not_maxva_le hva)]
  refine (walkLevel_extends h hroom follow_nil (by simp)).bind ?_
  rintro c s₁ ⟨hext, hentry, ⟨rfl, hd⟩ | ⟨t, rfl, ht⟩⟩
  · rw [PanicM.returns_pure]
    exact ⟨hext, hentry, .inl ⟨rfl, hd⟩⟩
  · refine (walkLevel_extends hext.tree hext.room ht (by simp)).bind ?_
    rintro c s₂ ⟨hext', hentry', ⟨rfl, hd⟩ | ⟨t', rfl, ht'⟩⟩
    · rw [PanicM.returns_pure]
      exact ⟨hext.trans hext', fun vpn hv => (hentry' vpn hv).trans (hentry vpn hv),
        .inl ⟨rfl, hext.denied hd⟩⟩
    · rw [PanicM.returns_pure]
      exact ⟨hext.trans hext', fun vpn hv => (hentry' vpn hv).trans (hentry vpn hv),
        .inr ⟨t', ht', by rw [px_eq_vpx]⟩⟩

/-! ### Writing a leaf -/

/-- Storing an entry of the table at the end of a path changes the entry for one page. -/
theorem TableTree.store {m : Mem} {t vpn v : ℕ} (h : TableTree m r) (hv : vpn < 2 ^ 27)
    (ht : follow m.child r (tablePath vpn) = some t) (hlt : v < 2 ^ 64) :
    TableTree (m.store64 (t + 8 * (vpx 0 vpn : ℕ)) v) r ∧
      (∀ a, (m.store64 (t + 8 * (vpx 0 vpn : ℕ)) v).TablePage r a ↔ m.TablePage r a) ∧
      ∀ w, w < 2 ^ 27 → (m.store64 (t + 8 * (vpx 0 vpn : ℕ)) v).entry r w =
        if w = vpn then v else m.entry r w := by
  have htd := h.page_aligned ⟨_, by simp [tablePath], ht⟩
  have hstore : ∀ a (j : Fin 512), 4096 ∣ a → (m.store64 (t + 8 * (vpx 0 vpn : ℕ)) v).pte a j =
      if a = t ∧ (j : ℕ) = vpx 0 vpn then v else m.pte a j :=
    fun a j ha => Mem.pte_store64 htd ha (Fin.isLt _) j.isLt hlt
  obtain ⟨htree, htables, hentry⟩ := h.write hv ht fun a j ha haj => by
    rw [hstore a j ha, if_neg fun hj => haj.elim (absurd hj.1) (absurd (Fin.ext hj.2))]
  refine ⟨htree, htables, fun w hw => ?_⟩
  rw [hentry w hw]
  refine if_congr Iff.rfl ?_ rfl
  rw [hstore t _ htd, if_pos ⟨rfl, rfl⟩]

/-! ### `mappages` -/

/-- The finite map `f` with `n` pages from `vpn` on mapped to the pages from `pa` on. -/
def mapPages (f : ℕ → Option (ℕ × ℕ)) (vpn n pa perm : ℕ) : ℕ → Option (ℕ × ℕ) := fun w =>
  if vpn ≤ w ∧ w < vpn + n then some ((pa + (w - vpn) * 4096) % wordSize, perm ||| pteV) else f w

theorem mapPages_zero (f : ℕ → Option (ℕ × ℕ)) (vpn pa perm : ℕ) :
    mapPages f vpn 0 pa perm = f := by
  funext w
  rw [mapPages, if_neg (by omega)]

theorem mapPages_succ (f : ℕ → Option (ℕ × ℕ)) (vpn n pa perm : ℕ) :
    mapPages (mapPages f vpn 1 pa perm) (vpn + 1) n ((pa + 4096) % wordSize) perm =
      mapPages f vpn (n + 1) pa perm := by
  funext w
  simp only [mapPages]
  split_ifs with h₁ h₂ h₃ h₄ h₅
  · rw [Nat.mod_add_mod, show pa + 4096 + (w - (vpn + 1)) * 4096 = pa + (w - vpn) * 4096 by omega]
  · omega
  · rfl
  · omega
  · omega
  · rfl

theorem leafMeaning_leafEntry (hpa : 4096 ∣ pa) (hlt : pa < 2 ^ 64) (hperm : perm < 1024) :
    leafMeaning (pa2pte pa ||| perm ||| pteV) = some (pa, perm ||| pteV) := by
  rw [leafMeaning, if_neg, pte2pa_leafEntry hpa hlt hperm, pteFlags_leafEntry hperm]
  rw [and_eq_pteFlags_and (by decide), pteFlags_leafEntry hperm, Nat.and_or_distrib_right]
  exact fun h => absurd (Nat.or_eq_zero_iff.mp h).2 (by decide)

/-- One round of `mappages` on a page that is not mapped. -/
theorem mappagesLoop_round {fuel last : ℕ} (h : TableTree s.mem r) (hroom : Room L s r)
    (hva : va < 2 ^ 38) (hpad : 4096 ∣ pa) (hpa : pa < 2 ^ 64) (hperm : perm < 1024)
    (hfree : s.mem.meaning r (va / 4096) = none) {Q : Bool → Vm → Prop}
    (hfail : ∀ s₁, Extends L r s s₁ →
      (∀ w, w < 2 ^ 27 → s₁.mem.meaning r w = s.mem.meaning r w) → Denied L s s₁ → Q false s₁)
    (hok : ∀ s₁, Extends L r s s₁ → (∀ w, w < 2 ^ 27 →
        s₁.mem.meaning r w = mapPages (s.mem.meaning r) (va / 4096) 1 pa perm w) →
      (if va = last then (pure true : VmM Bool)
        else Vm.mappagesLoop L r last perm fuel ((va + pgsize) % wordSize)
          ((pa + pgsize) % wordSize)).Returns s₁ Q) :
    (Vm.mappagesLoop L r last perm (fuel + 1) va pa).Returns s Q := by
  rw [Vm.mappagesLoop]
  refine (walk_extends h hroom hva).bind ?_
  rintro p s₁ ⟨hext, hentry, ⟨rfl, hd⟩ | ⟨t, ht, rfl⟩⟩
  · rw [if_pos rfl, PanicM.returns_pure]
    exact hfail s₁ hext (fun w hw => by rw [Mem.meaning, Mem.meaning, hentry w hw]) hd
  · have ht0 : t ≠ 0 := hext.tree.ne_zero t ⟨_, by simp [tablePath], ht⟩
    have hv : va / 4096 < 2 ^ 27 := by omega
    have hload : s₁.mem.load64 (t + 8 * (vpx 0 (va / 4096) : ℕ)) &&& pteV = 0 := by
      rw [Mem.meaning, leafMeaning, ← hentry _ hv, Mem.entry_of_follow hv ht] at hfree
      split_ifs at hfree with h0
      exact h0
    obtain ⟨htree, htables, hstored⟩ := hext.tree.store hv ht (leafEntry_lt hpa hperm)
    rw [if_neg (by omega)]
    simp only [Vm.load, PanicM.returns_read_bind, hload, ne_eq, not_true_eq_false, if_false,
      Vm.store, PanicM.returns_update_bind]
    have htt : s₁.mem.TablePage r t := ⟨_, by simp [tablePath], ht⟩
    refine hok _ ⟨htree, ⟨hext.room.aligned, fun q hq hq' => ?_⟩, fun q hq => ?_, hext.mono,
      hext.fails, fun q hd hq hfree => ?_⟩ fun w hw => ?_
    · exact fun hqt => hext.room.apart q hq hq' ((htables q).mp hqt)
    · exact hext.tables q ((htables q).mp hq)
    · refine (hext.frame q hd hq hfree).trans (Mem.agreeOn_store64_page
        (hext.tree.page_aligned htt) hd (Fin.isLt _) fun heq => ?_)
      exact (hext.tables t htt).elim (heq ▸ hq) (heq ▸ hfree)
    · rw [Mem.meaning, hstored w hw, mapPages]
      by_cases hwv : w = va / 4096
      · rw [if_pos hwv, if_pos (by omega), leafMeaning_leafEntry hpad hpa hperm, hwv,
          Nat.sub_self, Nat.zero_mul, Nat.add_zero, Nat.mod_eq_of_lt (show pa < wordSize from hpa)]
      · rw [if_neg hwv, if_neg (by omega), hentry w hw]
        rfl

theorem mappagesLoop_extends (hperm : perm < 1024) : ∀ n fuel s va pa, n < fuel →
    TableTree s.mem r → Room L s r → 4096 ∣ va → va + (n + 1) * 4096 ≤ 2 ^ 38 → 4096 ∣ pa →
    pa < 2 ^ 64 → (∀ w, va / 4096 ≤ w → w ≤ va / 4096 + n → s.mem.meaning r w = none) →
    (Vm.mappagesLoop L r (va + n * 4096) perm fuel va pa).Returns s fun ok s' =>
      Extends L r s s' ∧ ∃ k, (ok = true ∧ k = n + 1 ∨ ok = false ∧ k ≤ n ∧ Denied L s s') ∧
        ∀ w, w < 2 ^ 27 →
          s'.mem.meaning r w = mapPages (s.mem.meaning r) (va / 4096) k pa perm w := by
  intro n
  induction n with
  | zero =>
    intro fuel s va pa hfuel h hroom hd hva hpad hpa hfree
    obtain ⟨fuel, rfl⟩ : ∃ k, fuel = k + 1 := ⟨fuel - 1, by omega⟩
    refine mappagesLoop_round h hroom (by omega) hpad hpa hperm (hfree _ le_rfl (by omega)) ?_ ?_
    · intro s₁ hext hm hden
      exact ⟨hext, 0, .inr ⟨rfl, le_rfl, hden⟩, by simpa only [mapPages_zero] using hm⟩
    · intro s₁ hext hm
      rw [if_pos (by omega), PanicM.returns_pure]
      exact ⟨hext, 1, .inl ⟨rfl, rfl⟩, hm⟩
  | succ n ih =>
    intro fuel s va pa hfuel h hroom hd hva hpad hpa hfree
    obtain ⟨fuel, rfl⟩ : ∃ k, fuel = k + 1 := ⟨fuel - 1, by omega⟩
    refine mappagesLoop_round h hroom (by omega) hpad hpa hperm (hfree _ le_rfl (by omega)) ?_ ?_
    · intro s₁ hext hm hden
      exact ⟨hext, 0, .inr ⟨rfl, Nat.zero_le _, hden⟩, by simpa only [mapPages_zero] using hm⟩
    · intro s₁ hext hm
      rw [if_neg (by omega), show (va + pgsize) % wordSize = va + 4096 by
          simp only [pgsize, wordSize]; omega, show pgsize = 4096 from rfl,
        show va + (n + 1) * 4096 = va + 4096 + n * 4096 by omega]
      refine (ih fuel s₁ (va + 4096) ((pa + 4096) % wordSize) (by omega) hext.tree hext.room
        (by omega) (by omega) (by simp only [wordSize]; omega)
        (by simp only [wordSize]; omega) ?_).mono ?_
      · intro w hlo hhi
        rw [hm w (by omega), mapPages, if_neg (by omega)]
        exact hfree w (by omega) (by omega)
      · rintro ok s₂ ⟨hext', k, hok, hm'⟩
        refine ⟨hext.trans hext', k + 1, ?_, fun w hw => ?_⟩
        · rcases hok with ⟨rfl, rfl⟩ | ⟨rfl, hk, hden⟩
          · exact .inl ⟨rfl, rfl⟩
          · exact .inr ⟨rfl, by omega, hext.denied hden⟩
        · rw [hm' w hw, ← mapPages_succ, show (va + 4096) / 4096 = va / 4096 + 1 by omega]
          simp only [mapPages, hm w hw]

/-- **`mappages`** on a range that is not mapped extends the meaning of a page table by the
range, or by a proper part of it from its start when `kalloc` fails. -/
theorem mappages_extends {size : ℕ} (h : TableTree s.mem r) (hroom : Room L s r)
    (hperm : perm < 1024) (hd : 4096 ∣ va) (hsize : 4096 ∣ size) (hpos : 0 < size)
    (hva : va + size ≤ 2 ^ 38) (hpad : 4096 ∣ pa) (hpa : pa < 2 ^ 64)
    (hfree : ∀ w, va / 4096 ≤ w → w < (va + size) / 4096 → s.mem.meaning r w = none) :
    (Vm.mappages L r va size pa perm).Returns s fun ok s' => Extends L r s s' ∧
      ∃ k, (ok = true ∧ k = size / 4096 ∨ ok = false ∧ k < size / 4096 ∧ Denied L s s') ∧
        ∀ w, w < 2 ^ 27 →
          s'.mem.meaning r w = mapPages (s.mem.meaning r) (va / 4096) k pa perm w := by
  obtain ⟨n, rfl⟩ : ∃ n, size = (n + 1) * 4096 := ⟨size / 4096 - 1, by omega⟩
  have hlast : (va + (n + 1) * 4096 - pgsize) % wordSize = va + n * 4096 := by
    simp only [pgsize, wordSize]
    omega
  have hrounds : (n + 1) * 4096 / 4096 = n + 1 := by omega
  rw [Vm.mappages, if_neg (by simp only [pgsize]; omega), if_neg (by simp only [pgsize]; omega),
    if_neg (by omega), hlast, show pgsize = 4096 from rfl, hrounds]
  refine (mappagesLoop_extends hperm n (n + 1) s va pa (by omega) h hroom hd hva hpad hpa
    fun w hlo hhi => hfree w hlo (by omega)).mono ?_
  rintro ok s' ⟨hext, k, hok, hm⟩
  refine ⟨hext, k, hok.imp_right ?_, hm⟩
  rintro ⟨hf, hk, hden⟩
  exact ⟨hf, by omega, hden⟩

/-! ### `uvmunmap` -/

/-- The finite map `f` without `n` pages from `vpn` on. -/
def unmapPages (f : ℕ → Option (ℕ × ℕ)) (vpn n : ℕ) : ℕ → Option (ℕ × ℕ) := fun w =>
  if vpn ≤ w ∧ w < vpn + n then none else f w

/-- What `uvmunmap` leaves of a page table at `r`. -/
structure Unmaps (r vpn n : ℕ) (s s' : Vm) : Prop where
  tree : TableTree s'.mem r
  tables : ∀ q, s'.mem.TablePage r q ↔ s.mem.TablePage r q
  meaning : ∀ w, w < 2 ^ 27 → s'.mem.meaning r w = unmapPages (s.mem.meaning r) vpn n w

theorem uvmunmapPage_unmaps {doFree : Bool} (h : TableTree s.mem r) (hva : va < 2 ^ 38) :
    (Vm.uvmunmapPage L r va doFree).Returns s fun _ s' => Unmaps r (va / 4096) 1 s s' := by
  have hv : va / 4096 < 2 ^ 27 := by omega
  -- an entry that is not valid maps nothing
  have hsame : leafMeaning (s.mem.entry r (va / 4096)) = none →
      Unmaps r (va / 4096) 1 s s := fun hnone => by
    refine ⟨h, fun _ => Iff.rfl, fun w hw => ?_⟩
    rw [unmapPages]
    split_ifs with hwv
    · rw [show w = va / 4096 by omega]
      exact hnone
    · rfl
  rw [Vm.uvmunmapPage, PanicM.returns_bind_of_ok (walk_false_eq hva)]
  cases ht : follow s.mem.child r (tablePath (va / 4096)) with
  | none =>
    simp only [Option.map_none, Option.getD_none, if_pos, PanicM.returns_pure]
    exact hsame (by rw [Mem.entry_of_follow_none hv ht, leafMeaning, if_pos (Nat.zero_and _)])
  | some t =>
    have ht0 : t ≠ 0 := h.ne_zero t ⟨_, by simp [tablePath], ht⟩
    have hload : s.mem.load64 (t + 8 * (vpx 0 (va / 4096) : ℕ)) = s.mem.entry r (va / 4096) :=
      (Mem.entry_of_follow hv ht).symm
    simp only [Option.map_some, Option.getD_some, if_neg (show t + 8 * (vpx 0 (va / 4096) : ℕ) ≠ 0
      by omega), Vm.load, PanicM.returns_read_bind, hload]
    by_cases hvalid : s.mem.entry r (va / 4096) &&& pteV = 0
    · rw [if_pos hvalid, PanicM.returns_pure]
      exact hsame (by rw [leafMeaning, if_pos hvalid])
    · obtain ⟨htree, htables, hstored⟩ := h.store hv ht (show 0 < 2 ^ 64 by decide)
      have hcleared : ∀ s', s'.mem = s.mem.store64 (t + 8 * (vpx 0 (va / 4096) : ℕ)) 0 →
          Unmaps r (va / 4096) 1 s s' := by
        intro s' hm
        refine ⟨hm ▸ htree, fun q => hm ▸ htables q, fun w hw => ?_⟩
        rw [Mem.meaning, hm, hstored w hw, unmapPages]
        by_cases hwv : w = va / 4096
        · rw [if_pos hwv, if_pos (by omega), leafMeaning, if_pos (Nat.zero_and _)]
        · rw [if_neg hwv, if_neg (by omega)]
          rfl
      rw [if_neg hvalid]
      cases doFree with
      | true => simpa [Vm.kfree, Vm.store] using hcleared _ rfl
      | false => simpa [Vm.store] using hcleared _ rfl

theorem uvmunmapLoop_unmaps {doFree : Bool} : ∀ n fuel s va, n ≤ fuel → TableTree s.mem r →
    4096 ∣ va → va + n * 4096 ≤ 2 ^ 38 →
    (Vm.uvmunmapLoop L r (va + n * 4096) doFree fuel va).Returns s fun _ s' =>
      Unmaps r (va / 4096) n s s' := by
  intro n
  induction n with
  | zero =>
    intro fuel s va hfuel h hd hva
    have hdone : Unmaps r (va / 4096) 0 s s := ⟨h, fun _ => Iff.rfl, fun w _ => by
      rw [unmapPages, if_neg (by omega)]⟩
    cases fuel with
    | zero => rw [Vm.uvmunmapLoop, if_neg (by omega), PanicM.returns_pure]; exact hdone
    | succ fuel => rw [Vm.uvmunmapLoop, if_neg (by omega), PanicM.returns_pure]; exact hdone
  | succ n ih =>
    intro fuel s va hfuel h hd hva
    obtain ⟨fuel, rfl⟩ : ∃ k, fuel = k + 1 := ⟨fuel - 1, by omega⟩
    rw [Vm.uvmunmapLoop, if_pos (by omega)]
    refine (uvmunmapPage_unmaps h (by omega)).bind fun _ s₁ h₁ => ?_
    rw [show (va + pgsize) % wordSize = va + 4096 by simp only [pgsize, wordSize]; omega,
      show va + (n + 1) * 4096 = va + 4096 + n * 4096 by omega]
    refine (ih fuel s₁ (va + 4096) (by omega) h₁.tree (by omega) (by omega)).mono fun _ s₂ h₂ => ?_
    refine ⟨h₂.tree, fun q => (h₂.tables q).trans (h₁.tables q), fun w hw => ?_⟩
    rw [h₂.meaning w hw]
    simp only [unmapPages, h₁.meaning w hw]
    split_ifs <;> first | rfl | omega

/-- **`uvmunmap`** restricts the meaning of a page table to the pages outside the range. -/
theorem uvmunmap_unmaps {n : ℕ} {doFree : Bool} (h : TableTree s.mem r) (hd : 4096 ∣ va)
    (hva : va + n * 4096 ≤ 2 ^ 38) :
    (Vm.uvmunmap L r va n doFree).Returns s fun _ s' => Unmaps r (va / 4096) n s s' := by
  rw [Vm.uvmunmap, if_neg (by simp only [pgsize]; omega),
    show (va + n * pgsize) % wordSize = va + n * 4096 by simp only [pgsize, wordSize]; omega]
  exact uvmunmapLoop_unmaps n n s va le_rfl h hd hva

/-! ### The page table as a finite map -/

theorem Extends.wellFormed {vpn k : ℕ} (h : WellFormed s.mem r) (hext : Extends L r s s')
    (hm : ∀ w, w < 2 ^ 27 → s'.mem.meaning r w = mapPages (s.mem.meaning r) vpn k pa perm w)
    (hfresh : ∀ q, s.FreePage L q → ¬s.mem.DataPage r q)
    (hdisj : ∀ j, j < k → ¬s.mem.TablePage r ((pa + j * 4096) % wordSize) ∧
      ¬s.FreePage L ((pa + j * 4096) % wordSize)) : WellFormed s'.mem r := by
  refine ⟨hext.tree, fun q hq hdata => ?_⟩
  obtain ⟨w, fl, hw, hmw⟩ := Mem.dataPage_iff.mp hdata
  rw [hm w hw, mapPages] at hmw
  split_ifs at hmw with hin
  · obtain ⟨hnot, hnotFree⟩ := hdisj (w - vpn) (by omega)
    obtain ⟨rfl, -⟩ := Prod.mk.inj (Option.some.inj hmw)
    exact (hext.tables _ hq).elim hnot hnotFree
  · have hold : s.mem.DataPage r q := Mem.dataPage_iff.mpr ⟨w, fl, hw, hmw⟩
    rcases hext.tables q hq with hq | hq
    · exact h.data q hq hold
    · exact hfresh q hq hold

theorem Unmaps.wellFormed {vpn n : ℕ} (h : WellFormed s.mem r) (hun : Unmaps r vpn n s s') :
    WellFormed s'.mem r := by
  refine ⟨hun.tree, fun q hq hdata => h.data q ((hun.tables q).mp hq) ?_⟩
  obtain ⟨w, fl, hw, hmw⟩ := Mem.dataPage_iff.mp hdata
  rw [hun.meaning w hw, unmapPages] at hmw
  split_ifs at hmw
  exact Mem.dataPage_iff.mpr ⟨w, fl, hw, hmw⟩

section EmptyTables

/-- Memory of zeros. -/
def Mem.zero : Mem := fun _ => 0

/-- A page table of three tables that maps nothing: the root `r` points to `c`, and `c` to `d`. -/
def emptyTables (r c d : ℕ) : Mem :=
  (Mem.zero.store64 r (tableEntry c)).store64 c (tableEntry d)

theorem Mem.pte_zero (q i : ℕ) : Mem.zero.pte q i = 0 := Mem.load64_eq_zero fun _ _ => rfl

theorem follow_zero {p : List (Fin 512)} (h : follow Mem.zero.child r p = some q) :
    p = [] ∧ q = r := by
  cases p with
  | nil => exact ⟨rfl, (Option.some.inj h).symm⟩
  | cons i p =>
    rw [follow, Option.bind_eq_some_iff] at h
    obtain ⟨a, -, ha⟩ := h
    rw [Mem.child, Mem.pte_zero, if_pos (Nat.zero_and _)] at ha
    cases ha

theorem tableTree_zero (hr : 4096 ∣ r) (hr0 : r ≠ 0) : TableTree Mem.zero r where
  aligned := hr
  ne_zero := by
    rintro q ⟨p, -, hp⟩
    rwa [(follow_zero hp).2]
  tree := fun p p' q _ _ hp hp' => by rw [(follow_zero hp).1, (follow_zero hp').1]

/-- Hanging a page of zeros below the first entry of a table. -/
theorem TableTree.link_first {m : Mem} {p : List (Fin 512)} {c : ℕ} (h : TableTree m r)
    (hq : follow m.child r p = some q) (hp : p.length < 2) (hempty : m.pte q 0 = 0)
    (hc : 4096 ∣ c) (hc0 : c ≠ 0) (hlt : c < 2 ^ 64) (hfresh : ¬m.TablePage r c)
    (hzero : ∀ j : Fin 512, m.pte c j = 0) :
    TableTree (m.store64 q (tableEntry c)) r ∧
      (∀ vpn, vpn < 2 ^ 27 → (m.store64 q (tableEntry c)).entry r vpn = m.entry r vpn) ∧
      (∀ a, (m.store64 q (tableEntry c)).TablePage r a → m.TablePage r a ∨ a = c) ∧
      follow (m.store64 q (tableEntry c)).child r (0 :: p) = some c := by
  have hqt : m.TablePage r q := ⟨p, by omega, hq⟩
  have hqd := h.page_aligned hqt
  have hstore : ∀ a (j : Fin 512), 4096 ∣ a → (m.store64 q (tableEntry c)).pte a j =
      if a = q ∧ (j : ℕ) = 0 then tableEntry c else m.pte a j :=
    fun a j ha => Mem.pte_store64 (i := 0) hqd ha (by decide) j.isLt (tableEntry_lt hlt)
  have hne : c ≠ q := fun heq => hfresh (heq ▸ hqt)
  obtain ⟨htree, hentry, htables, hpath, -⟩ := h.link (i := 0) hq hp
    (by rw [Mem.child, Fin.val_zero, hempty, if_pos (Nat.zero_and _)]) hc hc0 hlt hfresh
    (by rw [hstore q 0 hqd, if_pos ⟨rfl, rfl⟩])
    (fun j => by rw [hstore c j hc, if_neg (fun hj => hne hj.1), hzero])
    fun a j ha _ haj => by
      rw [hstore a j ha, if_neg fun hj => haj.elim (absurd hj.1) (absurd (Fin.ext hj.2))]
  exact ⟨htree, hentry, htables, hpath⟩

theorem emptyTables_spec {c d : ℕ} (hr : 4096 ∣ r) (hc : 4096 ∣ c) (hd : 4096 ∣ d) (hr0 : r ≠ 0)
    (hc0 : c ≠ 0) (hd0 : d ≠ 0) (hclt : c < 2 ^ 64) (hdlt : d < 2 ^ 64) (hcr : c ≠ r) (hdr : d ≠ r)
    (hdc : d ≠ c) : WellFormed (emptyTables r c d) r ∧
      (∀ w, w < 2 ^ 27 → (emptyTables r c d).meaning r w = none) ∧
      (∀ a, (emptyTables r c d).TablePage r a → a = r ∨ a = c ∨ a = d) ∧
      follow (emptyTables r c d).child r (tablePath 0) = some d := by
  obtain ⟨htree₁, hentry₁, htables₁, hpath₁⟩ := (tableTree_zero hr hr0).link_first follow_nil
    (by simp) (Mem.pte_zero _ _) hc hc0 hclt
    (fun ⟨_, _, hq⟩ => hcr (follow_zero hq).2) fun j => Mem.pte_zero _ _
  have hpte₁ : ∀ a j : ℕ, 4096 ∣ a → a ≠ r → j < 512 →
      (Mem.zero.store64 r (tableEntry c)).pte a j = 0 := by
    intro a j ha hne hj
    have hagree : Mem.AgreeOn Mem.zero (Mem.zero.store64 r (tableEntry c)) a 4096 :=
      Mem.agreeOn_store64_page (i := 0) hr ha (by decide) hne
    rw [hagree.pte_eq hj, Mem.pte_zero]
  have hnode₁ : ∀ a, (Mem.zero.store64 r (tableEntry c)).TablePage r a → a = r ∨ a = c :=
    fun a ha => (htables₁ a ha).imp_left fun ⟨_, _, hq⟩ => (follow_zero hq).2
  obtain ⟨htree₂, hentry₂, htables₂, hpath₂⟩ := htree₁.link_first hpath₁ (by simp)
    (hpte₁ c 0 hc hcr (by decide)) hd hd0 hdlt (fun hq => (hnode₁ d hq).elim hdr hdc)
    fun j => hpte₁ d j hd hdr j.isLt
  have hnone : ∀ w, w < 2 ^ 27 → (emptyTables r c d).meaning r w = none := by
    intro w hw
    have hzero : Mem.zero.entry r w = 0 := by
      rw [Mem.entry, Mem.pte_zero, if_pos (Nat.zero_and _)]
    rw [Mem.meaning, emptyTables, hentry₂ w hw, hentry₁ w hw, hzero, leafMeaning,
      if_pos (Nat.zero_and _)]
  refine ⟨⟨htree₂, fun q _ hdata => ?_⟩, hnone, fun a ha => ?_, hpath₂⟩
  · obtain ⟨w, fl, hw, hm⟩ := Mem.dataPage_iff.mp hdata
    rw [hnone w hw] at hm
    cases hm
  · rcases htables₂ a ha with ha | rfl
    · rcases hnode₁ a ha with rfl | rfl <;> simp
    · simp

/-- The state of `vm.c` with a page table of three tables that maps nothing. -/
def emptyTablesVm : Vm :=
  ⟨emptyTables 0x80041000 0x80042000 0x80043000, 0x80044000, fun _ => false, []⟩

theorem emptyTablesVm_spec : WellFormed emptyTablesVm.mem 0x80041000 ∧
    (∀ w, w < 2 ^ 27 → emptyTablesVm.mem.meaning 0x80041000 w = none) ∧
    (∀ a, emptyTablesVm.mem.TablePage 0x80041000 a →
      a = 0x80041000 ∨ a = 0x80042000 ∨ a = 0x80043000) ∧
    follow emptyTablesVm.mem.child 0x80041000 (tablePath 0) = some 0x80043000 :=
  emptyTables_spec (by decide) (by decide) (by decide) (by decide) (by decide) (by decide)
    (by decide) (by decide) (by decide) (by decide) (by decide)

theorem emptyTablesVm_ok : WellFormed emptyTablesVm.mem 0x80041000 ∧
    Room .virt emptyTablesVm 0x80041000 ∧
    (∀ q, emptyTablesVm.FreePage .virt q → ¬emptyTablesVm.mem.DataPage 0x80041000 q) ∧
    ∀ w, w < 2 ^ 27 → emptyTablesVm.mem.meaning 0x80041000 w = none := by
  obtain ⟨hwf, hnone, htables, -⟩ := emptyTablesVm_spec
  refine ⟨hwf, ⟨by decide, fun q hq _ hqt => ?_⟩, fun q _ hdata => ?_, hnone⟩
  · have hq : 0x80044000 ≤ q := hq
    rcases htables q hqt with rfl | rfl | rfl <;> omega
  · obtain ⟨w, fl, hw, hm⟩ := Mem.dataPage_iff.mp hdata
    rw [hnone w hw] at hm
    cases hm

/-- The state of `vm.c` with a page table of three tables that maps the page at address 0 for the
user. -/
def onePageVm : Vm :=
  { mem := (emptyTables 0x80041000 0x80042000 0x80043000).store64 0x80043000
      (pa2pte 0x80044000 ||| (pteR ||| pteW ||| pteU) ||| pteV)
    freemem := 0x80045000
    fails := fun _ => false
    freed := [] }

theorem onePageVm_spec : TableTree onePageVm.mem 0x80041000 ∧
    (∀ q, onePageVm.mem.TablePage 0x80041000 q →
      q = 0x80041000 ∨ q = 0x80042000 ∨ q = 0x80043000) ∧
    ∀ w, w < 2 ^ 27 → onePageVm.mem.meaning 0x80041000 w =
      if w = 0 then some (0x80044000, pteR ||| pteW ||| pteU ||| pteV) else none := by
  obtain ⟨hwf, hnone, htables, hpath⟩ := emptyTablesVm_spec
  obtain ⟨htree, htables', hentry⟩ := hwf.toTableTree.store (by decide) hpath
    (leafEntry_lt (show 0x80044000 < 2 ^ 64 by decide)
      (show pteR ||| pteW ||| pteU < 1024 by decide))
  refine ⟨htree, fun q hq => htables q ((htables' q).mp hq), fun w hw => ?_⟩
  rw [Mem.meaning, show onePageVm.mem.entry 0x80041000 w = _ from hentry w hw]
  split_ifs
  · exact leafMeaning_leafEntry (by decide) (by decide) (by decide)
  · exact hnone w hw

/-- Memory outside the tables is zero. -/
theorem onePageVm_zero {a : ℕ} (ha : a < 0x80041000 ∨ 0x80044000 ≤ a) : onePageVm.mem a = 0 := by
  have hroot : Mem.AgreeOn Mem.zero (Mem.zero.store64 0x80041000 (tableEntry 0x80042000)) a 1 :=
    Mem.agreeOn_store64 (by omega)
  have hempty : Mem.AgreeOn (Mem.zero.store64 0x80041000 (tableEntry 0x80042000))
      emptyTablesVm.mem a 1 := Mem.agreeOn_store64 (by omega)
  have hleaf : Mem.AgreeOn emptyTablesVm.mem onePageVm.mem a 1 := Mem.agreeOn_store64 (by omega)
  exact (hleaf 0 Nat.one_pos).trans ((hempty 0 Nat.one_pos).trans (hroot 0 Nat.one_pos))

theorem onePageVm_ok : WellFormed onePageVm.mem 0x80041000 ∧ Room .virt onePageVm 0x80041000 ∧
    (∀ q, onePageVm.FreePage .virt q → ¬onePageVm.mem.DataPage 0x80041000 q) ∧
    ∀ w, w < 2 ^ 27 → onePageVm.mem.meaning 0x80041000 w =
      if w = 0 then some (0x80044000, pteR ||| pteW ||| pteU ||| pteV) else none := by
  obtain ⟨htree, htables, hmeaning⟩ := onePageVm_spec
  have hdata : ∀ q, onePageVm.mem.DataPage 0x80041000 q → q = 0x80044000 := by
    intro q hq
    obtain ⟨w, fl, hw, hm⟩ := Mem.dataPage_iff.mp hq
    rw [hmeaning w hw] at hm
    split_ifs at hm
    exact (Prod.mk.inj (Option.some.inj hm)).1.symm
  have htable : ∀ q, onePageVm.mem.TablePage 0x80041000 q → q < 0x80044000 := by
    intro q hq
    rcases htables q hq with rfl | rfl | rfl <;> decide
  refine ⟨⟨htree, fun q hq hdq => ?_⟩, ⟨by decide, fun q hq _ hqt => ?_⟩, fun q hq hdq =>
    ?_, hmeaning⟩
  · have := htable q hq
    have := hdata q hdq
    omega
  · have := htable q hqt
    have hq : 0x80045000 ≤ q := hq
    omega
  · have := hdata q hdq
    have hq : 0x80045000 ≤ q := hq.1
    omega

end EmptyTables

/-- **Three-level page tables refine finite maps.** On a well-formed page table next to an
allocator that hands out neither tables nor mapped pages, `mappages`, `uvmunmap` and `walk` are
the extension, the restriction and the lookup of the map. `mappages` keeps the table
well-formed when the pages it maps are neither its tables nor pages still to be handed out. -/
theorem pageTable_refines_map (h : WellFormed s.mem r) (hroom : Room L s r)
    (hfresh : ∀ q, s.FreePage L q → ¬s.mem.DataPage r q) :
    (∀ va size pa perm, 4096 ∣ va → 4096 ∣ pa → pa ≠ 0 → pa < wordSize → perm < 1024 →
      4096 ∣ size → 0 < size → va + size ≤ maxva →
      (∀ w, va / 4096 ≤ w → w < (va + size) / 4096 → s.mem.meaning r w = none) →
      (Vm.mappages L r va size pa perm).Returns s fun ok s' =>
        ((∀ j, j < size / 4096 → ¬s.mem.TablePage r ((pa + j * 4096) % wordSize) ∧
          ¬s.FreePage L ((pa + j * 4096) % wordSize)) → WellFormed s'.mem r) ∧
        ∃ k, (ok = true ∧ k = size / 4096 ∨ ok = false ∧ k < size / 4096 ∧ Denied L s s') ∧
          ∀ w, w < maxva / 4096 →
            s'.mem.meaning r w = mapPages (s.mem.meaning r) (va / 4096) k pa perm w) ∧
    (∀ va npages doFree, 4096 ∣ va → va + npages * 4096 ≤ maxva →
      (Vm.uvmunmap L r va npages doFree).Returns s fun _ s' => WellFormed s'.mem r ∧
        ∀ w, w < maxva / 4096 →
          s'.mem.meaning r w = unmapPages (s.mem.meaning r) (va / 4096) npages w) ∧
    (∀ va, va < maxva → ∃ pte, Vm.walk L r va false s = .ok (pte, s) ∧
      ((s.mem.meaning r (va / 4096)).isSome ↔ pte ≠ 0 ∧ s.mem.load64 pte &&& pteV ≠ 0) ∧
      (pte ≠ 0 ∧ s.mem.load64 pte &&& pteV ≠ 0 → s.mem.meaning r (va / 4096) =
        some (pte2pa (s.mem.load64 pte), pteFlags (s.mem.load64 pte)))) := by
  refine ⟨?_, ?_, ?_⟩
  · intro va size pa perm hd hpad _ hpa hperm hsize hpos hva hfree
    refine (mappages_extends h.toTableTree hroom hperm hd hsize hpos hva hpad hpa hfree).mono ?_
    rintro ok s' ⟨hext, k, hok, hm⟩
    have hk : k ≤ size / 4096 := by rcases hok with ⟨-, hk⟩ | ⟨-, hk, -⟩ <;> omega
    refine ⟨fun hdisj => hext.wellFormed h hm hfresh fun j hj => hdisj j (by omega), k, hok,
      fun w hw => hm w ?_⟩
    simp only [maxva] at hw
    omega
  · intro va npages doFree hd hva
    refine (uvmunmap_unmaps h.toTableTree hd hva).mono fun _ s' hun =>
      ⟨hun.wellFormed h, fun w hw => hun.meaning w ?_⟩
    simp only [maxva] at hw
    omega
  · intro va hva
    have hv : va / 4096 < 2 ^ 27 := by
      simp only [maxva] at hva
      omega
    refine ⟨_, walk_false_eq hva, ?_⟩
    rw [Mem.meaning]
    cases ht : follow s.mem.child r (tablePath (va / 4096)) with
    | none => simp [Mem.entry_of_follow_none hv ht, leafMeaning]
    | some t =>
      have ht0 : t ≠ 0 := h.ne_zero t ⟨_, by simp [tablePath], ht⟩
      have hload : s.mem.load64 (t + 8 * (vpx 0 (va / 4096) : ℕ)) = s.mem.entry r (va / 4096) :=
        (Mem.entry_of_follow hv ht).symm
      have hpte : t + 8 * (vpx 0 (va / 4096) : ℕ) ≠ 0 := by omega
      rw [Option.map_some, Option.getD_some, hload, leafMeaning]
      split_ifs with hvalid
      · exact ⟨by simp [hvalid], fun hp => absurd hvalid hp.2⟩
      · exact ⟨iff_of_true rfl ⟨hpte, hvalid⟩, fun _ => rfl⟩

/-- A page is mapped in a page table of three tables that maps nothing. -/
theorem pageTable_refines_map_empty : WellFormed emptyTablesVm.mem 0x80041000 ∧
    ∃ s', Vm.mappages .virt 0x80041000 0 4096 0x80050000 pteR emptyTablesVm = .ok (true, s') ∧
      ∀ w, w < maxva / 4096 → s'.mem.meaning 0x80041000 w =
        mapPages (emptyTablesVm.mem.meaning 0x80041000) 0 1 0x80050000 pteR w := by
  obtain ⟨hwf, hroom, hfresh, hnone⟩ := emptyTablesVm_ok
  obtain ⟨ok, s', hrun, hs'⟩ := (pageTable_refines_map hwf hroom hfresh).1 0 4096 0x80050000 pteR
    (by decide) (by decide) (by decide) (by decide) (by decide) (by decide) (by decide) (by decide)
    fun w _ hw => hnone w (by omega)
  obtain ⟨_, hmaps⟩ : ∃ t,
      Vm.mappages .virt 0x80041000 0 4096 0x80050000 pteR emptyTablesVm = .ok (true, t) := ⟨_, rfl⟩
  obtain ⟨rfl, rfl⟩ := Prod.mk.inj (Except.ok.inj (hrun.symm.trans hmaps))
  obtain ⟨-, k, ⟨-, rfl⟩ | ⟨hno, -⟩, hmeaning⟩ := hs'
  · exact ⟨hwf, s', hmaps, hmeaning⟩
  · cases hno

/-- A table that is told to map one of its own tables does not stay well-formed. -/
theorem mappages_own_table :
    ∃ s s' : Vm, WellFormed s.mem 0x80041000 ∧ Room .virt s 0x80041000 ∧
      (∀ q, s.FreePage .virt q → ¬s.mem.DataPage 0x80041000 q) ∧
      s.mem.meaning 0x80041000 0 = none ∧
      Vm.mappages .virt 0x80041000 0 4096 0x80041000 pteR s = .ok (true, s') ∧
      ¬WellFormed s'.mem 0x80041000 := by
  obtain ⟨hwf, hroom, hfresh, hnone⟩ := emptyTablesVm_ok
  refine ⟨emptyTablesVm, { emptyTablesVm with
    mem := emptyTablesVm.mem.store64 0x80043000 (pa2pte 0x80041000 ||| pteR ||| pteV) },
    hwf, hroom, hfresh, hnone 0 (by decide), ?_, fun h => ?_⟩
  · rfl
  · exact h.data 0x80041000 nodeWithin_root ⟨[0, 0, 0], rfl, by decide +kernel⟩

end OsKernel
