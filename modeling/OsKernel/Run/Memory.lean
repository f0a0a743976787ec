import OsKernel.Run.Session

/-!
# Memory in every run

What the invariant of the kernel says about physical memory, in terms of what the hardware finds in
it: the page tables of the processes, read as finite maps, the pages these tables consist of, and
the pages that were handed out and given back.

All results are about the states between sections, whatever the processes have done and wherever
`kalloc` has failed.
-/

namespace OsKernel

variable {L : Layout} {image : Mem} {fails : ℕ → Bool} {d : System.Config K Panic Label}
  {S : Site} {c : Core} {m : Mem} {o : Owners} {i j : Slot} {r q w w' l idx fl : ℕ}

/-! ### The pages of a page table -/

theorem leafMeaning_eq_some {e : ℕ} :
    leafMeaning e = some (q, fl) ↔ e &&& pteV ≠ 0 ∧ pte2pa e = q ∧ pteFlags e = fl := by
  rw [leafMeaning]
  split_ifs with he
  · exact ⟨fun h => absurd h (by simp), fun h => absurd he h.1⟩
  · rw [Option.some.injEq, Prod.mk.injEq]
    exact ⟨fun h => ⟨he, h⟩, fun h => h.2⟩

/-- A pointer from a table leads to the table for its position. -/
theorem Tables.child_role (h : Tables m o) (hq : o q = some (.table r (l + 1) idx)) {x : Fin 512}
    {a : ℕ} (hx : m.child q x = some a) : o a = some (.table r l (512 * idx + x)) := by
  rw [Mem.child] at hx
  rcases h.down hq x.isLt with hzero | ⟨a', ha', hentry⟩
  · rw [hzero, if_pos (Nat.zero_and _)] at hx
    cases hx
  · obtain ⟨hdvd, -, hlt⟩ := h.page ha'
    rw [hentry, if_neg (tableEntry_valid a'), pte2pa_tableEntry hdvd hlt, Option.some.injEq] at hx
    exact hx ▸ ha'

/-- Every table but the root is pointed to. -/
theorem Tables.exists_child (h : Tables m o) (hq : o q = some (.table r l idx)) (hl : l < 2) :
    ∃ a, o a = some (.table r (l + 1) (idx / 512)) ∧ ∃ x, m.child a x = some q := by
  obtain ⟨a, ha, hentry⟩ := h.up hq hl
  obtain ⟨hdvd, -, hlt⟩ := h.page hq
  refine ⟨a, ha, ⟨idx % 512, Nat.mod_lt _ (by decide)⟩, ?_⟩
  rw [Mem.child, hentry, if_neg (tableEntry_valid q), pte2pa_tableEntry hdvd hlt]

/-- A page of the image of a process. -/
theorem UserShape.meaning_user {sz tf : ℕ} (h : UserShape L m r sz tf) (hw : w * 4096 < sz) :
    m.meaning r w = some (pte2pa (m.entry r w), pteV ||| pteR ||| pteW ||| pteX ||| pteU) := by
  have hflags := h.user w hw
  refine leafMeaning_eq_some.mpr ⟨?_, rfl, hflags⟩
  rw [and_eq_pteFlags_and (by decide), hflags]
  decide

/-- **The pages a page table consists of** are those with the role of its tables. -/
theorem Tables.tablePage_iff (h : Tables m o) (hr : o r = some (.table r 2 0)) :
    m.TablePage r q ↔ ∃ l idx, o q = some (.table r l idx) := by
  constructor
  · rintro ⟨p, hlen, hp⟩
    -- down from the root, one level for each index
    have hrole : ∀ p : List (Fin 512), p.length ≤ 2 → ∀ a, follow m.child r p = some a →
        ∃ idx, o a = some (.table r (2 - p.length) idx) := by
      intro p
      induction p with
      | nil =>
        rintro - a ⟨⟩
        exact ⟨0, hr⟩
      | cons x p ih =>
        intro hlen a ha
        rw [List.length_cons] at hlen
        obtain ⟨a', hp', hx⟩ := Option.bind_eq_some_iff.mp ha
        obtain ⟨idx, ha'⟩ := ih (by omega) a' hp'
        rw [show 2 - p.length = 2 - (p.length + 1) + 1 by omega] at ha'
        exact ⟨_, h.child_role ha' hx⟩
    obtain ⟨idx, hq⟩ := hrole p hlen q hp
    exact ⟨_, idx, hq⟩
  · rintro ⟨l, idx, hq⟩
    -- up to the root, at most two steps
    have hpath : ∀ n q l idx, o q = some (.table r l idx) → l + n = 2 →
        ∃ p : List (Fin 512), p.length = n ∧ follow m.child r p = some q := by
      intro n
      induction n with
      | zero =>
        rintro q l idx hq rfl
        exact ⟨[], rfl, by rw [(h.root hq).1]; rfl⟩
      | succ n ih =>
        intro q l idx hq hl
        obtain ⟨a, ha, x, hx⟩ := h.exists_child hq (by omega)
        obtain ⟨p, hlen, hp⟩ := ih a (l + 1) _ ha (by omega)
        exact ⟨x :: p, by rw [List.length_cons, hlen], (follow_cons hp).trans hx⟩
    have hl := h.level hq
    obtain ⟨p, hlen, hp⟩ := hpath (2 - l) q l idx hq (by omega)
    exact ⟨p, by omega, hp⟩

/-! ### Whose page it is -/

/-- The process in slot `i` maps the physical page `q` with `PTE_U` at the virtual page `w`. -/
def Core.MapsUser (c : Core) (i : Slot) (w q : ℕ) : Prop :=
  (c.procs i).state ≠ .unused ∧ w < 2 ^ 27 ∧
    ∃ fl, c.vm.mem.meaning (c.procs i).pagetable w = some (q, fl) ∧ fl &&& pteU ≠ 0

/-- The page is one of the tables of the process in slot `i`. -/
def Core.TableOf (c : Core) (i : Slot) (q : ℕ) : Prop :=
  (c.procs i).state ≠ .unused ∧ c.vm.mem.TablePage (c.procs i).pagetable q

/-- The page is the trapframe of the process in slot `i`. -/
def Core.FrameOf (c : Core) (i : Slot) (q : ℕ) : Prop :=
  (c.procs i).state ≠ .unused ∧ (c.procs i).trapframe = q

/-- The page is the kernel stack of slot `i`. -/
def Core.StackOf (c : Core) (i : Slot) (q : ℕ) : Prop :=
  ∃ fl, c.vm.mem.meaning c.kernelPagetable (kstackVa i / 4096) = some (q, fl)

/-- The page is one of the tables or of the stacks of the kernel. -/
def Core.KernelPage (c : Core) (q : ℕ) : Prop :=
  c.vm.mem.TablePage c.kernelPagetable q ∨ ∃ i, c.StackOf i q

/-- The page belongs to the process in slot `i`. -/
def Core.Belongs (c : Core) (i : Slot) (q : ℕ) : Prop :=
  c.FrameOf i q ∨ c.TableOf i q ∨ ∃ w, c.MapsUser i w q

theorem Core.spaces_eq_some {sp : Space} (h : c.spaces i = some sp) :
    (c.procs i).state ≠ .unused ∧ sp = (c.procs i).space := by
  rw [Core.spaces] at h
  split_ifs at h with hi
  exact ⟨hi, (Option.some.inj h).symm⟩

theorem Core.Belongs.live (h : c.Belongs i q) : (c.procs i).state ≠ .unused := by
  rcases h with h | h | ⟨w, h⟩
  · exact h.1
  · exact h.1
  · exact h.1

section Roles

variable (hsp : Spaces L S.image S.kpt c.vm c.spaces o noRole)

include hsp

theorem Spaces.owned_of_ne (hi : (c.procs i).state ≠ .unused) :
    Space.Owned L S.kpt c.vm.mem o i (c.procs i).space := hsp.owned i _ (Core.spaces_of_ne hi)

theorem Spaces.mapsUser_iff (hi : (c.procs i).state ≠ .unused) :
    c.MapsUser i w q ↔ o q = some (.user (c.procs i).pagetable w) := by
  have htables := hsp.inv.tables
  have hroot := (hsp.owned_of_ne hi).root
  constructor
  · rintro ⟨-, hw, fl, hm, hu⟩
    obtain ⟨-, hpa, hfl⟩ := leafMeaning_eq_some.mp hm
    rw [← hfl, ← and_eq_pteFlags_and (by decide)] at hu
    exact (htables.user_iff hroot hw).mpr ⟨hu, hpa⟩
  · intro hq
    have hw := htables.vpn_lt hq
    obtain ⟨hu, hpa⟩ := (htables.user_iff hroot hw).mp hq
    have hleaf := (htables.entry_leaf hroot hw).resolve_left fun hzero => by
      rw [hzero] at hu
      exact hu (Nat.zero_and _)
    refine ⟨hi, hw, _, leafMeaning_eq_some.mpr ⟨hleaf.1, hpa, rfl⟩, ?_⟩
    rwa [← and_eq_pteFlags_and (by decide)]

/-- A process maps the pages of its image. -/
theorem Spaces.exists_mapsUser (hi : (c.procs i).state ≠ .unused)
    (hw : w * 4096 < (c.procs i).sz) : ∃ q, c.MapsUser i w q := by
  have hshape := (hsp.owned_of_ne hi).shape
  have hsize : (c.procs i).sz ≤ 2 ^ 38 := hshape.size.trans (by decide)
  exact ⟨_, hi, by omega, _, hshape.meaning_user hw, by decide⟩

theorem Spaces.tableOf_iff (hi : (c.procs i).state ≠ .unused) :
    c.TableOf i q ↔ ∃ l idx, o q = some (.table (c.procs i).pagetable l idx) :=
  ⟨fun h => (hsp.inv.tables.tablePage_iff (hsp.owned_of_ne hi).root).mp h.2,
    fun h => ⟨hi, (hsp.inv.tables.tablePage_iff (hsp.owned_of_ne hi).root).mpr h⟩⟩

theorem Spaces.frameOf_iff : c.FrameOf i q ↔ o q = some (.trapframe i) := by
  constructor
  · rintro ⟨hi, rfl⟩
    exact (hsp.owned_of_ne hi).trapframe
  · intro hq
    obtain ⟨sp, hspace, hq⟩ := (hsp.exact q _ hq).resolve_left id
    obtain ⟨hi, rfl⟩ := Core.spaces_eq_some hspace
    exact ⟨hi, hq⟩

theorem Spaces.stackOf_iff (hkernel : c.kernelPagetable = S.kpt) :
    c.StackOf i q ↔ o q = some (.kstack i) := by
  have hentry : ∀ {q}, o q = some (.kstack i) →
      leafMeaning (c.vm.mem.entry c.kernelPagetable (kstackVa i / 4096)) =
        some (q, pteR ||| pteW ||| pteV) := by
    intro q hq
    obtain ⟨hdvd, -, hlt⟩ := hsp.inv.tables.page hq
    rw [hkernel, kstackVa_div, show c.vm.mem.entry S.kpt (kstackVpn i) = _ from
      (hsp.exact q _ hq).resolve_left id]
    exact leafMeaning_leafEntry hdvd hlt (by decide)
  constructor
  · rintro ⟨fl, hm⟩
    obtain ⟨q', hq'⟩ := hsp.kstack i
    rw [Mem.meaning, hentry hq', Option.some.injEq, Prod.mk.injEq] at hm
    exact hm.1 ▸ hq'
  · exact fun hq => ⟨_, hentry hq⟩

theorem Spaces.kernelPage_iff (hkernel : c.kernelPagetable = S.kpt) : c.KernelPage q ↔
    (∃ l idx, o q = some (.table S.kpt l idx)) ∨ ∃ i, o q = some (.kstack i) := by
  simp only [Core.KernelPage, hsp.stackOf_iff hkernel, hkernel,
    hsp.inv.tables.tablePage_iff hsp.kernel]

/-- The role of a page tells whose it is. -/
theorem Spaces.belongs_iff (hi : (c.procs i).state ≠ .unused) : c.Belongs i q ↔
    ∃ ρ, o q = some ρ ∧ (ρ = .trapframe i ∨ ρ.Under (c.procs i).pagetable) := by
  simp only [Core.Belongs, hsp.frameOf_iff, hsp.tableOf_iff hi, hsp.mapsUser_iff hi]
  constructor
  · rintro (hq | ⟨l, idx, hq⟩ | ⟨w, hq⟩)
    · exact ⟨_, hq, .inl rfl⟩
    · exact ⟨_, hq, .inr rfl⟩
    · exact ⟨_, hq, .inr rfl⟩
  · rintro ⟨ρ, hq, rfl | hunder⟩
    · exact .inl hq
    · cases ρ with
      | table r l idx => exact .inr (.inl ⟨l, idx, hunder ▸ hq⟩)
      | user r w => exact .inr (.inr ⟨w, hunder ▸ hq⟩)
      | _ => exact hunder.elim

/-- Every page in use is the kernel's or that of a process. -/
theorem Spaces.owner (hkernel : c.kernelPagetable = S.kpt) {ρ : Role} (hq : o q = some ρ) :
    c.KernelPage q ∨ ∃ i, c.Belongs i q := by
  have hroot : ∀ {r}, ρ.Under r → (∃ i sp, c.spaces i = some sp ∧ sp.pagetable = r) →
      ∃ i, c.Belongs i q := by
    rintro r hunder ⟨i, sp, hspace, rfl⟩
    obtain ⟨hi, rfl⟩ := Core.spaces_eq_some hspace
    exact ⟨i, (hsp.belongs_iff hi).mpr ⟨ρ, hq, .inr hunder⟩⟩
  have hacc := (hsp.exact q ρ hq).resolve_left id
  cases ρ with
  | loose => exact hacc.elim
  | table r l idx =>
    refine hacc.imp (fun hr => ?_) (hroot rfl)
    exact (hsp.kernelPage_iff hkernel).mpr (.inl ⟨l, idx, hr ▸ hq⟩)
  | user r w => exact .inr (hroot rfl hacc)
  | trapframe i => exact .inr ⟨i, .inl (hsp.frameOf_iff.mpr hq)⟩
  | kstack i => exact .inl ((hsp.kernelPage_iff hkernel).mpr (.inr ⟨i, hq⟩))

/-- The kernel and the processes share no page. -/
theorem Spaces.not_belongs (hkernel : c.kernelPagetable = S.kpt) (hq : c.KernelPage q) :
    ¬c.Belongs i q := by
  intro hi
  obtain ⟨ρ, hρ, hrole⟩ := (hsp.belongs_iff hi.live).mp hi
  rcases (hsp.kernelPage_iff hkernel).mp hq with ⟨l, idx, hq⟩ | ⟨j, hq⟩
  · rw [hρ, Option.some.injEq] at hq
    subst hq
    rcases hrole with hframe | hunder
    · cases hframe
    · exact (hsp.owned_of_ne hi.live).ne_kernel hunder.symm
  · rw [hρ, Option.some.injEq] at hq
    subst hq
    rcases hrole with hframe | hunder
    · cases hframe
    · exact hunder

end Roles

/-! ### Isolation -/

/-- The user page `q` serves the process in slot `i`, at the virtual page `w`, and nothing else. -/
structure Core.Isolated (L : Layout) (c : Core) (i : Slot) (w q : ℕ) : Prop where
  only : ∀ j w', c.MapsUser j w' q → j = i ∧ w' = w
  heap : L.heap ≤ q ∧ q + 4096 ≤ L.phystop
  table : ∀ j, ¬c.TableOf j q
  frame : ∀ j, ¬c.FrameOf j q
  kernel : ¬c.KernelPage q

/-- **Memory isolation.** Every page that a process maps for user code is mapped for user code once,
was handed out by the allocator, and is neither a table nor a trapframe nor a kernel stack. -/
theorem user_pages_isolated (hd : Reachable L image fails d) (hb : d.BetweenSections) :
    ∀ i w q, d.state.core.MapsUser i w q → d.state.core.Isolated L i w q := by
  obtain ⟨S, o, hkernel, hsp⟩ := hd.spaces hb
  intro i w q hmap
  have hq := (hsp.mapsUser_iff hmap.1).mp hmap
  obtain ⟨hdvd, hlow, hlt, -⟩ := (hsp.inv.owned q).mp ⟨_, hq⟩
  constructor
  case only =>
    intro j w' hmap'
    have hq' := (hsp.mapsUser_iff hmap'.1).mp hmap'
    rw [hq, Option.some.injEq, Role.user.injEq] at hq'
    exact ⟨(hsp.pagetable_inj (Core.spaces_of_ne hmap.1) (Core.spaces_of_ne hmap'.1) hq'.1).symm,
      hq'.2.symm⟩
  case heap =>
    have haligned := hsp.inv.aligned
    have hle := hsp.inv.le_phystop
    exact ⟨hlow, by omega⟩
  case table =>
    intro j htable
    obtain ⟨l, idx, hq'⟩ := (hsp.tableOf_iff htable.1).mp htable
    rw [hq] at hq'
    cases hq'
  case frame =>
    intro j hframe
    have hq' := hsp.frameOf_iff.mp hframe
    rw [hq] at hq'
    cases hq'
  case kernel =>
    intro hpage
    rcases (hsp.kernelPage_iff hkernel).mp hpage with ⟨l, idx, hq'⟩ | ⟨j, hq'⟩
    · rw [hq] at hq'
      cases hq'
    · rw [hq] at hq'
      cases hq'

theorem Reachable.exists_mapsUser (hd : Reachable L image fails d) (hb : d.BetweenSections)
    (hi : (d.state.core.procs i).state ≠ .unused) (hw : w * 4096 < (d.state.core.procs i).sz) :
    ∃ q, d.state.core.MapsUser i w q := by
  obtain ⟨S, o, -, hsp⟩ := hd.spaces hb
  exact hsp.exists_mapsUser hi hw

/-- A process has forked, and both have memory. -/
theorem exists_memories_virt : ∃ (s : K) (i : Slot) (q q' : ℕ),
    Reachable .virt shImage (fun _ => false) ⟨s, .ret .user, []⟩ ∧ i ≠ 0 ∧
    s.core.MapsUser 0 0 q ∧ s.core.MapsUser i 0 q' := by
  obtain ⟨s, i, hs, hpair, -, hzero, hrun, -⟩ := exists_forked_virt
  have hbetween : System.Config.BetweenSections ⟨s, .ret .user, []⟩ := .inr ⟨.user, rfl, rfl⟩
  obtain ⟨q, hq⟩ := hs.exists_mapsUser hbetween (w := 0) (i := 0) (by rw [hzero]; decide)
    (lt_of_lt_of_le (by decide) (hpair.size 0 (.inl rfl)))
  obtain ⟨q', hq'⟩ := hs.exists_mapsUser hbetween (w := 0) (i := i) (by rw [hrun]; decide)
    (lt_of_lt_of_le (by decide) (hpair.size i (.inr rfl)))
  exact ⟨s, i, q, q', hs, hpair.ne, hq, hq'⟩

theorem user_pages_isolated_virt : ∃ (s : K) (i : Slot) (q q' : ℕ),
    Reachable .virt shImage (fun _ => false) ⟨s, .ret .user, []⟩ ∧ i ≠ 0 ∧
    s.core.MapsUser 0 0 q ∧ s.core.MapsUser i 0 q' ∧
    ∀ i w q, s.core.MapsUser i w q → s.core.Isolated .virt i w q := by
  obtain ⟨s, i, q, q', hs, hi, hq, hq'⟩ := exists_memories_virt
  exact ⟨s, i, q, q', hs, hi, hq, hq', user_pages_isolated hs (.inr ⟨.user, rfl, rfl⟩)⟩

/-! ### Accounting -/

/-- The page was handed out by `kalloc`. -/
def Vm.Allocated (L : Layout) (s : Vm) (q : ℕ) : Prop := 4096 ∣ q ∧ L.heap ≤ q ∧ q < s.freemem

/-- **Page accounting.** No page is freed twice, no page in use is freed, and the pages that were
handed out, were not freed and do not serve the kernel are those of the processes. -/
theorem pages_accounted (hd : Reachable L image fails d) (hb : d.BetweenSections) :
    d.state.core.vm.freed.Nodup ∧
    (∀ q ∈ d.state.core.vm.freed, d.state.core.vm.Allocated L q ∧ ∀ i, ¬d.state.core.Belongs i q) ∧
    ∀ q, d.state.core.vm.Allocated L q ∧ q ∉ d.state.core.vm.freed ∧ ¬d.state.core.KernelPage q ↔
      ∃ i, d.state.core.Belongs i q := by
  obtain ⟨S, o, hkernel, hsp⟩ := hd.spaces hb
  have howned : ∀ {i q}, d.state.core.Belongs i q → ∃ ρ, o q = some ρ ∧
      (ρ = .trapframe i ∨ ρ.Under (d.state.core.procs i).pagetable) :=
    fun h => (hsp.belongs_iff h.live).mp h
  refine ⟨hsp.inv.nodup, fun q hq => ⟨hsp.inv.freed q hq, fun i hi => ?_⟩, fun q => ⟨?_, ?_⟩⟩
  · obtain ⟨ρ, hρ, -⟩ := howned hi
    exact ((hsp.inv.owned q).mp ⟨ρ, hρ⟩).2.2.2 hq
  · rintro ⟨⟨hdvd, hlow, hlt⟩, hfreed, hpage⟩
    obtain ⟨ρ, hρ⟩ := (hsp.inv.owned q).mpr ⟨hdvd, hlow, hlt, hfreed⟩
    exact (hsp.owner hkernel hρ).resolve_left hpage
  · rintro ⟨i, hi⟩
    obtain ⟨ρ, hρ, -⟩ := howned hi
    obtain ⟨hdvd, hlow, hlt, hfreed⟩ := (hsp.inv.owned q).mp ⟨ρ, hρ⟩
    exact ⟨⟨hdvd, hlow, hlt⟩, hfreed, fun hpage => hsp.not_belongs hkernel hpage hi⟩

theorem pages_accounted_virt : ∃ (s : K) (i : Slot) (q q' : ℕ),
    Reachable .virt shImage (fun _ => false) ⟨s, .ret .user, []⟩ ∧ i ≠ 0 ∧
    s.core.Belongs 0 q ∧ s.core.Belongs i q' ∧ s.core.vm.freed.Nodup ∧
    (∀ q ∈ s.core.vm.freed, s.core.vm.Allocated .virt q ∧ ∀ i, ¬s.core.Belongs i q) ∧
    ∀ q, s.core.vm.Allocated .virt q ∧ q ∉ s.core.vm.freed ∧ ¬s.core.KernelPage q ↔
      ∃ i, s.core.Belongs i q := by
  obtain ⟨s, i, q, q', hs, hi, hq, hq'⟩ := exists_memories_virt
  exact ⟨s, i, q, q', hs, hi, .inr (.inr ⟨0, hq⟩), .inr (.inr ⟨0, hq'⟩),
    pages_accounted hs (.inr ⟨.user, rfl, rfl⟩)⟩

/-! ### The shape of user page tables -/

/-- The panics of `vm.c` on page tables. -/
def vmPanics : List Panic :=
  [.walk, .mappagesVa, .mappagesSize, .mappagesZero, .mappagesRemap, .uvmunmap, .freewalk]

/-- The leaf mappings of a user page table: the pages below `PGROUNDUP(sz)`, the trapframe and the
trampoline. -/
structure UserMap (L : Layout) (m : Mem) (r sz tf : ℕ) : Prop where
  user : ∀ w, w * 4096 < pgRoundUp sz →
    ∃ q, m.meaning r w = some (q, pteV ||| pteR ||| pteW ||| pteX ||| pteU)
  trapframe : m.meaning r (trapframeVa / 4096) = some (tf, pteR ||| pteW ||| pteV)
  trampoline : m.meaning r (trampolineVa / 4096) = some (L.trampoline, pteR ||| pteX ||| pteV)
  empty : ∀ w, w < 2 ^ 27 → pgRoundUp sz ≤ w * 4096 → w ≠ trapframeVa / 4096 →
    w ≠ trampolineVa / 4096 → m.meaning r w = none

theorem UserShape.lt_pgRoundUp_iff {sz tf : ℕ} (h : UserShape L m r sz tf) :
    w * 4096 < pgRoundUp sz ↔ w * 4096 < sz := by
  have hsize : sz ≤ 2 ^ 38 := h.size.trans (by decide)
  rw [pgRoundUp, pgsize, wordSize, Nat.mod_eq_of_lt (by omega)]
  omega

theorem UserShape.userMap {sz tf : ℕ} (h : UserShape L m r sz tf) (hdvd : 4096 ∣ tf)
    (hlt : tf < 2 ^ 64) : UserMap L m r sz tf where
  user w hw := ⟨_, h.meaning_user (h.lt_pgRoundUp_iff.mp hw)⟩
  trapframe := by
    rw [Mem.meaning, trapframeVa_div, h.trapframe]
    exact leafMeaning_leafEntry hdvd hlt (by decide)
  trampoline := by
    have hbound := phystop_bound L
    rw [Mem.meaning, trampolineVa_div, h.trampoline]
    exact leafMeaning_leafEntry L.trampoline_aligned (by omega) (by decide)
  empty w hw hsz htf htr := by
    have hle := h.lt_pgRoundUp_iff.not.mp (Nat.not_lt.mpr hsz)
    rw [Mem.meaning, h.empty w hw (Nat.not_lt.mp hle) htf htr]
    rfl

/-- **User page tables have the shape the kernel relies on**, and so no panic of `vm.c` on page
tables is reached, if the program table is in order. -/
theorem user_page_tables (hd : Reachable L image fails d) :
    (d.BetweenSections → ∀ i, (d.state.core.procs i).state ≠ .unused →
      UserMap L d.state.core.vm.mem (d.state.core.procs i).pagetable (d.state.core.procs i).sz
        (d.state.core.procs i).trapframe) ∧
    (TableOk L image → ∀ e ∈ vmPanics, d.panicked ≠ some e) := by
  refine ⟨fun hb i hi => ?_, fun htable e he hpanic => ?_⟩
  · obtain ⟨S, o, -, hsp⟩ := hd.spaces hb
    have hown := hsp.owned_of_ne hi
    obtain ⟨hdvd, -, hlt⟩ := hsp.inv.tables.page hown.trapframe
    exact hown.shape.userMap hdvd hlt
  · obtain ⟨kpt, hsafe⟩ := hd.safe
    rcases hsafe.panicked hpanic with rfl | ⟨hbad, -⟩
    · simp [vmPanics] at he
    · exact hbad htable

theorem user_page_tables_virt : ∃ (s : K) (i : Slot) (q q' : ℕ),
    Reachable .virt shImage (fun _ => false) ⟨s, .ret .user, []⟩ ∧ i ≠ 0 ∧
    s.core.MapsUser 0 0 q ∧ s.core.MapsUser i 0 q' ∧ TableOk .virt shImage ∧
    (∀ i, (s.core.procs i).state ≠ .unused →
      UserMap .virt s.core.vm.mem (s.core.procs i).pagetable (s.core.procs i).sz
        (s.core.procs i).trapframe) ∧
    ∀ e ∈ vmPanics, (⟨s, .ret .user, []⟩ : System.Config K Panic Label).panicked ≠ some e := by
  obtain ⟨s, i, q, q', hs, hi, hq, hq'⟩ := exists_memories_virt
  obtain ⟨hmaps, hpanics⟩ := user_page_tables hs
  exact ⟨s, i, q, q', hs, hi, hq, hq', tableOk_shImage, hmaps (.inr ⟨.user, rfl, rfl⟩),
    hpanics tableOk_shImage⟩

end OsKernel
