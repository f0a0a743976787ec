import OsKernel.Proc.PageTable

/-!
# The memory of all processes

`Spaces` is the invariant that ties the page allocator to the process table: every process
owns its trapframe and the tree of its page table, in the shape `UserShape`; the kernel owns
its page table and the kernel stacks; and every page that was allocated and not freed is
accounted for in this way. The process table enters by what the invariant needs of it, a
`SpaceTable`: trapframe, page table and size of each process there is.

While an operation is going on some pages are in its hands. The roles such pages may have are
the parameter `X`; between operations there are none (`noRole`). The rules below give the effect
of each building block of fork, exec and wait: a page is taken for a trapframe, a page table is
built, user memory is copied, a process is taken apart.
-/

namespace OsKernel

/-- The memory of a process. -/
structure Space where
  trapframe : ℕ
  pagetable : ℕ
  sz : ℕ

/-- The memory of the processes there are. -/
abbrev SpaceTable := Slot → Option Space

/-- The virtual page of a kernel stack. -/
def kstackVpn (i : Slot) : ℕ := 2 ^ 26 - 1 - 2 * (i.val + 1)

/-- No page is in the hands of an operation. -/
def noRole : ℕ → Role → Prop := fun _ _ => False

/-- The page `q` with its role belongs to the kernel or to a process. -/
def Accounted (kpt : ℕ) (m : Mem) (pm : SpaceTable) (q : ℕ) : Role → Prop
  | .loose => False
  | .table r _ _ => r = kpt ∨ ∃ i sp, pm i = some sp ∧ sp.pagetable = r
  | .user r _ => ∃ i sp, pm i = some sp ∧ sp.pagetable = r
  | .trapframe i => ∃ sp, pm i = some sp ∧ sp.trapframe = q
  | .kstack i => m.entry kpt (kstackVpn i) = pa2pte q ||| (pteR ||| pteW) ||| pteV

/-- The roles whose pages an operation must leave alone. -/
def Needed (kpt : ℕ) (pm : SpaceTable) : Role → Prop
  | .loose => False
  | .table r _ _ => r = kpt ∨ ∃ i sp, pm i = some sp ∧ sp.pagetable = r
  | .user r _ => ∃ i sp, pm i = some sp ∧ sp.pagetable = r
  | .trapframe i => ∃ sp, pm i = some sp
  | .kstack _ => True

/-- What a process owns. -/
structure Space.Owned (L : Layout) (kpt : ℕ) (m : Mem) (o : Owners) (i : Slot) (sp : Space) :
    Prop where
  trapframe : o sp.trapframe = some (.trapframe i)
  root : o sp.pagetable = some (.table sp.pagetable 2 0)
  ne_kernel : sp.pagetable ≠ kpt
  shape : UserShape L m sp.pagetable sp.sz sp.trapframe

/-- **The invariant of memory.** -/
structure Spaces (L : Layout) (image : Mem) (kpt : ℕ) (s : Vm) (pm : SpaceTable) (o : Owners)
    (X : ℕ → Role → Prop) : Prop where
  inv : VmInv L s o
  kernel : o kpt = some (.table kpt 2 0)
  trampoline : s.mem.entry kpt trampolineVpn = pa2pte L.trampoline ||| (pteR ||| pteX) ||| pteV
  kstack : ∀ i, ∃ q, o q = some (.kstack i)
  image : ∀ a, a < L.heap → s.mem a = image a
  owned : ∀ i sp, pm i = some sp → sp.Owned L kpt s.mem o i
  exact : ∀ q ρ, o q = some ρ → X q ρ ∨ Accounted kpt s.mem pm q ρ

/-- A page table gives user code the same memory: the same translations with the same contents. -/
structure SameSpace (m m' : Mem) (r : ℕ) : Prop where
  entry : ∀ w, w < 2 ^ 27 → m'.entry r w = m.entry r w
  byte : ∀ va, m.Readable r va → m' (m.phys r va) = m (m.phys r va)

/-- What every operation leaves as it is: the trapframes and the user memory of the processes.
The allocator only moves on. -/
structure Kept (pm : SpaceTable) (s s' : Vm) : Prop where
  frames : ∀ i sp, pm i = some sp → Mem.AgreeOn s.mem s'.mem sp.trapframe 4096
  space : ∀ i sp, pm i = some sp → SameSpace s.mem s'.mem sp.pagetable
  mono : s.freemem ≤ s'.freemem
  fails : ∀ n, s'.fails n = true → ∃ k, s.fails k = true

variable {L : Layout} {image : Mem} {kpt : ℕ} {s s' : Vm} {pm : SpaceTable} {o o' : Owners}
  {X Y : ℕ → Role → Prop} {T : Role → Prop} {i j : Slot} {sp sp' : Space} {q r : ℕ} {ρ : Role}

namespace SameSpace

variable {m m' m'' : Mem}

theorem refl (m : Mem) (r : ℕ) : SameSpace m m r := ⟨fun _ _ => rfl, fun _ _ => rfl⟩

theorem entry_page (h : SameSpace m m' r) {va : ℕ} (hva : m.Readable r va) :
    m'.entry r (va / 4096) = m.entry r (va / 4096) := h.entry _ (by have := hva.1; omega)

theorem phys (h : SameSpace m m' r) {va : ℕ} (hva : m.Readable r va) :
    m'.phys r va = m.phys r va := by
  rw [Mem.phys, Mem.phys, h.entry_page hva]

theorem readable (h : SameSpace m m' r) {va : ℕ} (hva : m.Readable r va) : m'.Readable r va :=
  ⟨hva.1, by rw [h.entry_page hva]; exact hva.2⟩

theorem trans (h : SameSpace m m' r) (h' : SameSpace m' m'' r) : SameSpace m m'' r where
  entry w hw := (h'.entry w hw).trans (h.entry w hw)
  byte va hva := by
    have hbyte := h'.byte va (h.readable hva)
    rw [h.phys hva] at hbyte
    exact hbyte.trans (h.byte va hva)

end SameSpace

theorem Kept.refl (pm : SpaceTable) (s : Vm) : Kept pm s s :=
  ⟨fun _ _ _ => .refl _ _ _, fun _ _ _ => .refl _ _, le_rfl, fun n hn => ⟨n, hn⟩⟩

theorem Kept.trans {s'' : Vm} (h : Kept pm s s') (h' : Kept pm s' s'') : Kept pm s s'' where
  frames i sp hi := (h.frames i sp hi).trans (h'.frames i sp hi)
  space i sp hi := (h.space i sp hi).trans (h'.space i sp hi)
  mono := h.mono.trans h'.mono
  fails n hn := by
    obtain ⟨k, hk⟩ := h'.fails n hn
    exact h.fails k hk

theorem Kept.not_fails (h : Kept pm s s') (hs : ∀ n, s.fails n = false) (n : ℕ) :
    s'.fails n = false := by
  by_contra hn
  obtain ⟨k, hk⟩ := h.fails n (Bool.eq_true_of_not_eq_false hn)
  rw [hs k] at hk
  cases hk

/-- What is kept for some processes is kept for fewer of them. -/
theorem Kept.mono_left {pm' : SpaceTable} (h : Kept pm s s')
    (hpm : ∀ i sp, pm' i = some sp → pm i = some sp) : Kept pm' s s' :=
  ⟨fun i sp hi => h.frames i sp (hpm i sp hi), fun i sp hi => h.space i sp (hpm i sp hi), h.mono,
    h.fails⟩

theorem update_none_eq_some (h : Function.update pm i none j = some sp) :
    j ≠ i ∧ pm j = some sp := by
  by_cases hji : j = i
  · rw [hji, Function.update_self] at h
    cases h
  · rw [Function.update_of_ne hji] at h
    exact ⟨hji, h⟩

/-- All but one process. -/
theorem Kept.without (h : Kept pm s s') (i : Slot) : Kept (Function.update pm i none) s s' :=
  h.mono_left fun _ _ hj => (update_none_eq_some hj).2

/-- The frame rule for the user memory of one page table. -/
theorem Frame.sameSpace (hf : Frame L T s o s' o') (ht : Tables s.mem o) (ht' : Tables s'.mem o')
    (hr : o r = some (.table r 2 0)) (hT : ∀ ρ, ρ.Under r → ¬T ρ) : SameSpace s.mem s'.mem r where
  entry w hw := hf.entry_eq ht ht' hr (fun _ _ => hT _ rfl) hw
  byte va hva := by
    have hpage := hf.page _ _ (hva.owner ht hr) (hT _ rfl)
    exact hpage (va % 4096) (Nat.mod_lt _ (by decide))

namespace Spaces

/-- The rule of frames: what an operation leaves alone stays as it is. -/
theorem frame (h : Spaces L image kpt s pm o X) (hinv : VmInv L s' o') (hf : Frame L T s o s' o')
    (hT : ∀ ρ, T ρ → ¬Needed kpt pm ρ) (hnew : ∀ q ρ, o' q = some ρ → T ρ → Y q ρ ∨ o q = some ρ)
    (hX : ∀ q ρ, X q ρ → Y q ρ) : Spaces L image kpt s' pm o' Y ∧ Kept pm s s' := by
  have hkernel : ∀ l idx, ¬T (.table kpt l idx) := fun l idx ht => hT _ ht (.inl rfl)
  have hentry : ∀ w, w < 2 ^ 27 → s'.mem.entry kpt w = s.mem.entry kpt w := fun w hw =>
    hf.entry_eq h.inv.tables hinv.tables h.kernel hkernel hw
  have htf : ∀ i sp, pm i = some sp → ¬T (.trapframe i) := fun i sp hi ht => hT _ ht ⟨sp, hi⟩
  have htable : ∀ i sp, pm i = some sp → ∀ l idx, ¬T (.table sp.pagetable l idx) :=
    fun i sp hi l idx ht => hT _ ht (.inr ⟨i, sp, hi, rfl⟩)
  constructor
  · constructor
    case inv => exact hinv
    case kernel => exact hf.role _ _ h.kernel (hkernel _ _)
    case trampoline => rw [hentry _ (by decide), h.trampoline]
    case kstack =>
      intro i
      obtain ⟨q, hq⟩ := h.kstack i
      exact ⟨q, hf.role _ _ hq fun ht => hT _ ht trivial⟩
    case image => exact fun a ha => (hf.image a ha).trans (h.image a ha)
    case owned =>
      intro i sp hi
      have hown := h.owned i sp hi
      refine ⟨hf.role _ _ hown.trapframe (htf i sp hi), hf.role _ _ hown.root (htable i sp hi _ _),
        hown.ne_kernel, hown.shape.congr fun w hw => ?_⟩
      exact hf.entry_eq h.inv.tables hinv.tables hown.root (htable i sp hi) hw
    case exact =>
      intro q ρ hq
      have hold : Y q ρ ∨ o q = some ρ := by
        rcases hf.origin q ρ hq with ht | ho
        · exact hnew q ρ hq ht
        · exact .inr ho
      refine hold.elim .inl fun ho => (h.exact q ρ ho).imp (hX q ρ) fun hacc => ?_
      -- only the claim of a kernel stack looks at memory
      cases ρ with
      | kstack i =>
        show s'.mem.entry kpt (kstackVpn i) = _
        rw [hentry _ (by simp only [kstackVpn]; omega)]
        exact hacc
      | _ => exact hacc
  · refine ⟨fun i sp hi => hf.page _ _ (h.owned i sp hi).trapframe (htf i sp hi), fun i sp hi => ?_,
      hf.mono, hf.fails⟩
    refine hf.sameSpace h.inv.tables hinv.tables (h.owned i sp hi).root fun ρ hρ ht => hT ρ ht ?_
    cases ρ with
    | table r l idx => exact .inr ⟨i, sp, hi, hρ.symm⟩
    | user r vpn => exact ⟨i, sp, hi, hρ.symm⟩
    | _ => exact hρ.elim

/-- The rule for operations that move no page. -/
theorem write (h : Spaces L image kpt s pm o X) (hinv : VmInv L s' o) (hf : Frame L T s o s' o)
    (hT : ∀ ρ, T ρ → ¬Needed kpt pm ρ) :
    Spaces L image kpt s' pm o X ∧ Kept pm s s' :=
  h.frame hinv hf hT (fun _ _ hq _ => .inr hq) fun _ _ => id

theorem trapframe_lt (h : Spaces L image kpt s pm o X) (hi : pm i = some sp) :
    4096 ∣ sp.trapframe ∧ 0 < sp.trapframe ∧ sp.trapframe < L.phystop :=
  have hown := (h.owned i sp hi).trapframe
  ⟨(h.inv.tables.page hown).1, (h.inv.tables.page hown).2.1, h.inv.lt_phystop hown⟩

theorem pagetable_lt (h : Spaces L image kpt s pm o X) (hi : pm i = some sp) :
    4096 ∣ sp.pagetable ∧ 0 < sp.pagetable ∧ sp.pagetable < L.phystop :=
  have hown := (h.owned i sp hi).root
  ⟨(h.inv.tables.page hown).1, (h.inv.tables.page hown).2.1, h.inv.lt_phystop hown⟩

/-- No two processes share a trapframe. -/
theorem trapframe_inj (h : Spaces L image kpt s pm o X) (hi : pm i = some sp)
    (hj : pm j = some sp') (heq : sp.trapframe = sp'.trapframe) : i = j := by
  have hti := (h.owned i sp hi).trapframe
  rw [heq, (h.owned j sp' hj).trapframe] at hti
  simpa using hti.symm

/-- No two processes share a page table: it maps the trapframe of its process. -/
theorem pagetable_inj (h : Spaces L image kpt s pm o X) (hi : pm i = some sp)
    (hj : pm j = some sp') (heq : sp.pagetable = sp'.pagetable) : i = j := by
  have hti := (h.owned i sp hi).shape.trapframe
  have htj := (h.owned j sp' hj).shape.trapframe
  rw [heq, htj] at hti
  have hlt := L.phystop_le
  obtain ⟨hdi, -, hlti⟩ := h.trapframe_lt hi
  obtain ⟨hdj, -, hltj⟩ := h.trapframe_lt hj
  refine h.trapframe_inj hi hj ?_
  rw [← pte2pa_leafEntry hdi (by omega) (by decide : pteR ||| pteW < 1024), ← hti,
    pte2pa_leafEntry hdj (by omega) (by decide)]

/-- The page table of a process is not that of another one. -/
theorem roots_without (h : Spaces L image kpt s pm o X) (hi : pm i = some sp) :
    ∀ j sp', Function.update pm i none j = some sp' → sp'.pagetable ≠ sp.pagetable := by
  intro j sp' hj heq
  obtain ⟨hji, hj⟩ := update_none_eq_some hj
  exact hji (h.pagetable_inj hj hi heq)

/-- The pages of one process. -/
def Pages (i : Slot) (sp : Space) (q : ℕ) (ρ : Role) : Prop :=
  q = sp.trapframe ∧ ρ = .trapframe i ∨ ρ.Under sp.pagetable

/-- A process is taken out of the table with its pages in hand. -/
theorem detach (h : Spaces L image kpt s pm o X) (hi : pm i = some sp) :
    Spaces L image kpt s (Function.update pm i none) o (fun q ρ => X q ρ ∨ Pages i sp q ρ) where
  inv := h.inv
  kernel := h.kernel
  trampoline := h.trampoline
  kstack := h.kstack
  image := h.image
  owned j sp' hj := h.owned j sp' (update_none_eq_some hj).2
  exact q ρ hq := by
    rcases h.exact q ρ hq with hX | hacc
    · exact .inl (.inl hX)
    have hroot : ∀ r, (∃ j sp', pm j = some sp' ∧ sp'.pagetable = r) →
        sp.pagetable = r ∨ ∃ j sp', Function.update pm i none j = some sp' ∧ sp'.pagetable = r := by
      rintro r ⟨j, sp', hj, hr⟩
      by_cases hji : j = i
      · rw [hji, hi, Option.some.injEq] at hj
        exact .inl (hj ▸ hr)
      · exact .inr ⟨j, sp', by rw [Function.update_of_ne hji, hj], hr⟩
    cases ρ with
    | loose => exact hacc.elim
    | table r l idx =>
      rcases hacc with hk | hr
      · exact .inr (.inl hk)
      · exact (hroot r hr).imp (fun heq => .inr (.inr heq.symm)) .inr
    | user r vpn => exact (hroot r hacc).imp (fun heq => .inr (.inr heq.symm)) id
    | trapframe j =>
      obtain ⟨sp', hj, hq'⟩ := hacc
      by_cases hji : j = i
      · subst hji
        rw [hi, Option.some.injEq] at hj
        exact .inl (.inr (.inl ⟨hj ▸ hq'.symm, rfl⟩))
      · exact .inr ⟨sp', by rw [Function.update_of_ne hji, hj], hq'⟩
    | kstack j => exact .inr hacc

/-- A process enters the table with the pages in hand. -/
theorem attach (h : Spaces L image kpt s pm o (fun q ρ => X q ρ ∨ Pages i sp q ρ))
    (hi : pm i = none) (hown : sp.Owned L kpt s.mem o i) :
    Spaces L image kpt s (Function.update pm i (some sp)) o X where
  inv := h.inv
  kernel := h.kernel
  trampoline := h.trampoline
  kstack := h.kstack
  image := h.image
  owned j sp' hj := by
    by_cases hji : j = i
    · subst hji
      rw [Function.update_self, Option.some.injEq] at hj
      exact hj ▸ hown
    · rw [Function.update_of_ne hji] at hj
      exact h.owned j sp' hj
  exact q ρ hq := by
    have hnew : Function.update pm i (some sp) i = some sp := Function.update_self ..
    have hkeep : ∀ j sp', pm j = some sp' → Function.update pm i (some sp) j = some sp' := by
      intro j sp' hj
      rw [Function.update_of_ne (by rintro rfl; rw [hi] at hj; cases hj), hj]
    rcases h.exact q ρ hq with (hX | ⟨rfl, rfl⟩ | hunder) | hacc
    · exact .inl hX
    · exact .inr ⟨sp, hnew, rfl⟩
    · refine .inr ?_
      cases ρ with
      | table r l idx => exact .inr ⟨i, sp, hnew, hunder.symm⟩
      | user r vpn => exact ⟨i, sp, hnew, hunder.symm⟩
      | _ => exact hunder.elim
    · refine .inr ?_
      cases ρ with
      | loose => exact hacc.elim
      | table r l idx =>
        exact hacc.imp_right fun ⟨j, sp', hj, hr⟩ => ⟨j, sp', hkeep j sp' hj, hr⟩
      | user r vpn =>
        obtain ⟨j, sp', hj, hr⟩ := hacc
        exact ⟨j, sp', hkeep j sp' hj, hr⟩
      | trapframe j =>
        obtain ⟨sp', hj, hq'⟩ := hacc
        exact ⟨sp', hkeep j sp' hj, hq'⟩
      | kstack j => exact hacc

/-- The pages under a root that no process and not the kernel has. -/
theorem not_needed_under (hk : r ≠ kpt) (hr : ∀ j sp', pm j = some sp' → sp'.pagetable ≠ r) :
    ∀ ρ : Role, ρ.Under r → ¬Needed kpt pm ρ := by
  rintro (_ | ⟨r', l, idx⟩ | ⟨r', vpn⟩ | j | j) hunder hneed
  · exact hneed
  · obtain rfl : r' = r := hunder
    rcases hneed with hk' | ⟨j, sp', hj, hr'⟩
    · exact hk hk'
    · exact hr j sp' hj hr'
  · obtain rfl : r' = r := hunder
    obtain ⟨j, sp', hj, hr'⟩ := hneed
    exact hr j sp' hj hr'
  · exact hunder
  · exact hunder

end Spaces

/-! ### Building blocks -/

namespace Spaces

/-- A page for a trapframe. -/
theorem kalloc (h : Spaces L image kpt s pm o noRole) (hi : pm i = none) :
    (Vm.kalloc L).Returns s fun tf s' => Kept pm s s' ∧
      (tf = 0 ∧ Starved L s s' ∧ ¬Supply L s 1 ∧ Spaces L image kpt s' pm o noRole ∨
        tf ≠ 0 ∧ Took L 1 s s' ∧ ∃ o', o' tf = some (.trapframe i) ∧
          Spaces L image kpt s' pm o' fun q ρ => q = tf ∧ ρ = .trapframe i) := by
  have hneed : ¬Needed kpt pm (.trapframe i) := fun ⟨sp, hsp⟩ => by rw [hi] at hsp; cases hsp
  rcases h.inv.kalloc with ⟨hk, hs⟩ | ⟨hk, hpos, hs⟩
  · obtain ⟨hsp, hkept⟩ := h.write (T := fun _ => False) h.inv.deny (.deny s o)
      fun _ ht => ht.elim
    exact PanicM.returns_of_ok hk ⟨hkept, .inl ⟨rfl, .of_supply hs, hs, hsp⟩⟩
  · have hloose : Function.update o s.freemem (some .loose) s.freemem = some .loose :=
      Function.update_self ..
    have hinv := (h.inv.grant (by have := hs.room; omega)).rerole (τ := .trapframe i) hloose
      trivial trivial
    rw [Function.update_idem] at hinv
    have hframe := (filled_grant h.inv).frame (T := (· = .trapframe i)) (x := some (.trapframe i))
      h.inv fun ρ hρ => (Option.some.injEq _ _ ▸ hρ).symm
    obtain ⟨hsp, hkept⟩ := h.frame (Y := fun q ρ => q = s.freemem ∧ ρ = .trapframe i) hinv hframe
      (fun ρ hρ => hρ ▸ hneed)
      (fun q ρ hq hρ => (update_eq_some hq).imp (fun hx => ⟨hx.1, hρ⟩) fun hx => hx.2)
      fun _ _ hX => hX.elim
    exact PanicM.returns_of_ok hk ⟨hkept, .inr ⟨hpos, .grant hs, _, Function.update_self .., hsp⟩⟩

/-- A page table for the process with its trapframe in `tf`. -/
theorem procPagetable (h : Spaces L image kpt s pm o X) {tf : ℕ}
    (htf : o tf = some (.trapframe i)) :
    (Vm.procPagetable L tf).Returns s fun r s' => Kept pm s s' ∧
      (Mem.AgreeOn s.mem s'.mem tf 4096) ∧
      (r = 0 ∧ ¬Supply L s 3 ∧ (∃ o', o' tf = some (.trapframe i) ∧ Spaces L image kpt s' pm o' X) ∨
        r ≠ 0 ∧ r ≠ kpt ∧ (∀ j sp', pm j = some sp' → sp'.pagetable ≠ r) ∧
          UserShape L s'.mem r 0 tf ∧ o r = none ∧ Took L 3 s s' ∧
          ∃ o', (∀ q ρ, o q = some ρ → o' q = some ρ) ∧
            o' r = some (.table r 2 0) ∧ o'.Covers r 0 ∧
            Spaces L image kpt s' pm o' fun q ρ => X q ρ ∨ ρ.Under r) := by
  have hlt := h.inv.lt_phystop htf
  have hphys := L.phystop_le
  refine (procPagetable_spec h.inv (by omega)).mono ?_
  rintro r s' (⟨rfl, hpoor, o', hinv, hframe⟩ |
    ⟨hr0, hnone, htook, ⟨o', hedit, hcov⟩, hshape⟩)
  · obtain ⟨hsp, hkept⟩ := h.frame (Y := X) hinv hframe (fun _ ht => ht.elim)
      (fun _ _ _ ht => ht.elim) fun _ _ => id
    exact ⟨hkept, hframe.page _ _ htf id, .inl ⟨rfl, hpoor, o', hframe.role _ _ htf id, hsp⟩⟩
  · have hne : ∀ q ρ, o q = some ρ → q ≠ r := by
      rintro q ρ hq rfl
      rw [hnone] at hq
      cases hq
    have hroots : ∀ j sp', pm j = some sp' → sp'.pagetable ≠ r := fun j sp' hj =>
      hne _ _ (h.owned j sp' hj).root
    obtain ⟨hsp, hkept⟩ := h.frame (Y := fun q ρ => X q ρ ∨ ρ.Under r) hedit.inv hedit.frame
      (not_needed_under (hne _ _ h.kernel).symm hroots) (fun _ _ _ ht => .inl (.inr ht))
      fun _ _ => .inl
    exact ⟨hkept, hedit.frame.page _ _ htf id, .inr ⟨hr0, (hne _ _ h.kernel).symm, hroots, hshape,
      hnone, htook, o', fun q ρ hq => hedit.frame.role q ρ hq (h.inv.not_under hnone hq),
      hedit.root, hcov, hsp⟩⟩

/-- `kfree` of a trapframe in hand. -/
theorem kfree (h : Spaces L image kpt s pm o X) {tf : ℕ} (htf : o tf = some (.trapframe i))
    (hi : pm i = none) (hX : ∀ q ρ, X q ρ → q = tf ∧ ρ = .trapframe i ∨ Y q ρ) :
    (Vm.kfree tf).Returns s fun _ s' => Kept pm s s' ∧ s'.mem = s.mem ∧
      ∃ o', (∀ q ρ, o q = some ρ → q ≠ tf → o' q = some ρ) ∧ Spaces L image kpt s' pm o' Y := by
  rw [Vm.kfree, PanicM.returns_update]
  have hinv := h.inv.kfree_plain htf trivial
  have hframe : Frame L (· = .trapframe i) s o { s with freed := tf :: s.freed }
      (Function.update o tf none) :=
    Frame.update (fun ρ hρ => by rw [htf] at hρ; exact (Option.some.inj hρ).symm)
      (fun _ hx => by cases hx) (fun _ _ _ _ => .refl _ _ _) (fun _ _ => rfl) le_rfl
      fun n hn => ⟨n, hn⟩
  obtain ⟨hsp, hkept⟩ := h.frame (Y := fun q ρ => X q ρ) hinv hframe
    (fun ρ hρ => by
      subst hρ
      rintro ⟨sp, hsp⟩
      rw [hi] at hsp
      cases hsp)
    (fun q ρ hq _ => (update_eq_some hq).elim (fun hx => by cases hx.2) fun hx => .inr hx.2)
    fun _ _ => id
  refine ⟨hkept, rfl, Function.update o tf none,
    fun q ρ hq hne => by rw [Function.update_of_ne hne, hq], ?_⟩
  refine { hsp with exact := fun q ρ hq => ?_ }
  rcases hsp.exact q ρ hq with hY | hacc
  · refine .inl ((hX q ρ hY).resolve_left ?_)
    rintro ⟨rfl, -⟩
    simp at hq
  · exact .inr hacc

/-- `proc_freepagetable` of a page table in hand. -/
theorem procFreepagetable (h : Spaces L image kpt s pm o X) (hk : r ≠ kpt)
    (hroots : ∀ j sp', pm j = some sp' → sp'.pagetable ≠ r) {sz : ℕ}
    (hfree : (Vm.procFreepagetable L r sz).Returns s fun _ s' => ∃ o', Gone L r s o s' o')
    (hX : ∀ q ρ, X q ρ → ρ.Under r ∨ Y q ρ) :
    (Vm.procFreepagetable L r sz).Returns s fun _ s' => Kept pm s s' ∧
      ∃ o', (∀ q ρ, o q = some ρ → ¬ρ.Under r → o' q = some ρ) ∧ Spaces L image kpt s' pm o' Y := by
  refine hfree.mono ?_
  rintro _ s' ⟨o', hgone⟩
  obtain ⟨hsp, hkept⟩ := h.frame (Y := X) hgone.inv hgone.frame (not_needed_under hk hroots)
    (fun q ρ hq ht => (hgone.gone q ρ hq ht).elim) fun _ _ => id
  refine ⟨hkept, o', hgone.frame.role, { hsp with exact := fun q ρ hq => ?_ }⟩
  rcases hsp.exact q ρ hq with hY | hacc
  · exact .inl ((hX q ρ hY).resolve_left (hgone.gone q ρ hq))
  · exact .inr hacc

/-- **A process is taken apart**: its trapframe and its page table are freed. -/
theorem free (h : Spaces L image kpt s pm o noRole) (hi : pm i = some sp) :
    (do Vm.kfree sp.trapframe; Vm.procFreepagetable L sp.pagetable sp.sz : VmM Unit).Returns s
      fun _ s' => Kept (Function.update pm i none) s s' ∧
        ∃ o', Spaces L image kpt s' (Function.update pm i none) o' noRole := by
  have hown := h.owned i sp hi
  have hroots := h.roots_without hi
  have hne : sp.pagetable ≠ sp.trapframe := by
    intro heq
    have := hown.root
    rw [heq, hown.trapframe] at this
    cases this
  refine ((h.detach hi).kfree (Y := fun _ ρ => ρ.Under sp.pagetable) hown.trapframe
    (Function.update_self ..) fun q ρ hX => ?_).bind ?_
  · rcases hX with hX | hX | hX
    · exact hX.elim
    · exact .inl hX
    · exact .inr hX
  rintro _ s₁ ⟨hkept₁, hmem, o₁, hkeep, hsp₁⟩
  have hroot₁ := hkeep _ _ hown.root hne
  have hshape₁ : UserShape L s₁.mem sp.pagetable sp.sz sp.trapframe := hmem ▸ hown.shape
  refine (hsp₁.procFreepagetable (Y := noRole) hown.ne_kernel hroots
    (hshape₁.free le_rfl hshape₁.size_le hsp₁.inv hroot₁) fun _ _ => .inl).mono ?_
  rintro _ s₂ ⟨hkept₂, o₂, -, hsp₂⟩
  exact ⟨hkept₁.trans hkept₂, o₂, hsp₂⟩

/-- **User memory is copied** into the empty page table of another process. -/
theorem uvmcopy (h : Spaces L image kpt s pm o noRole) (hi : pm i = some sp) {tf pt : ℕ}
    (hj : pm j = some ⟨tf, pt, 0⟩) (hne : i ≠ j) :
    (Vm.uvmcopy L sp.pagetable pt sp.sz).Returns s fun ok s' =>
      Kept (Function.update pm j none) s s' ∧
      (ok = false ∧ ¬Supply L s (3 * ((sp.sz + 4095) / 4096)) ∧
          (∃ o', Spaces L image kpt s' pm o' noRole) ∨
        ok = true ∧ (∃ o', Spaces L image kpt s' (Function.update pm j (some ⟨tf, pt, sp.sz⟩)) o'
            noRole) ∧ ∀ w, w * 4096 < sp.sz → CopiedPage s.mem s'.mem sp.pagetable pt w) := by
  have hpar := h.owned i sp hi
  have hchild := h.owned j _ hj
  have hsize := hpar.shape.size
  simp only [trapframeVa, trampolineVa, maxva, pgsize] at hsize
  have htop : ∀ w, w * 4096 < sp.sz → w ≠ trapframeVpn ∧ w ≠ trampolineVpn := by
    intro w hw
    simp only [trapframeVpn, trampolineVpn]
    omega
  have hroots := h.roots_without hj
  -- the new page table goes back to its process with any shape it has got
  have hback : ∀ s' o' sz, Edit L pt s o s' o' → UserShape L s'.mem pt sz tf →
      Spaces L image kpt s' (Function.update pm j (some ⟨tf, pt, sz⟩)) o' noRole ∧
        Kept (Function.update pm j none) s s' := by
    intro s' o' sz hedit hshape
    obtain ⟨hsp, hkept⟩ := (h.detach hj).frame (Y := fun q ρ => noRole q ρ ∨
      Pages j ⟨tf, pt, sz⟩ q ρ)
      hedit.inv hedit.frame (not_needed_under hchild.ne_kernel hroots)
      (fun q ρ _ ht => .inl (.inr (.inr ht))) fun _ _ => id
    have hback := hsp.attach (Function.update_self ..)
      ⟨hedit.frame.role _ _ hchild.trapframe id, hedit.root, hchild.ne_kernel, hshape⟩
    rw [Function.update_idem] at hback
    exact ⟨hback, hkept⟩
  refine (uvmcopy_spec (fun heq => hne (h.pagetable_inj hi hj heq)) (by omega) h.inv hpar.root
    hchild.root (fun w hw _ => hpar.shape.user_ne_zero hw (by decide) (by decide))
    fun w hw => hchild.shape.empty w (by omega) (Nat.zero_le _) (htop w hw).1 (htop w hw).2).mono ?_
  rintro ok s' (⟨rfl, ⟨o', hedit, -⟩, hpages⟩ | ⟨rfl, hpoor, ⟨o', hedit⟩, hentry⟩)
  · have hcopied : ∀ w, w * 4096 < sp.sz → CopiedPage s.mem s'.mem sp.pagetable pt w := fun w hw =>
      (hpages w (by omega)).1 (Nat.zero_le _) hw fun h0 =>
        hpar.shape.user_ne_zero (f := pteU) hw (by decide) (by decide) (by rw [h0, Nat.zero_and])
    suffices hshape : UserShape L s'.mem pt sp.sz tf by
      obtain ⟨hsp, hkept⟩ := hback s' o' sp.sz hedit hshape
      exact ⟨hkept, .inr ⟨rfl, ⟨o', hsp⟩, hcopied⟩⟩
    constructor
    case size => exact hpar.shape.size
    case user =>
      intro w hw
      obtain ⟨q, hq, -⟩ := hcopied w hw
      rw [hq, hpar.shape.user w hw, pteFlags_leafEntry (by decide)]
      decide
    case trapframe =>
      rw [(hpages _ (by decide)).2 fun hin => (htop _ hin.2.1).1 rfl, hchild.shape.trapframe]
    case trampoline =>
      rw [(hpages _ (by decide)).2 fun hin => (htop _ hin.2.1).2 rfl, hchild.shape.trampoline]
    case empty =>
      intro w hw hlo hne₁ hne₂
      rw [(hpages w hw).2 fun hin => by omega, hchild.shape.empty w hw (Nat.zero_le _) hne₁ hne₂]
  · suffices hshape : UserShape L s'.mem pt 0 tf by
      obtain ⟨hsp, hkept⟩ := hback s' o' 0 hedit hshape
      rw [← hj, Function.update_eq_self] at hsp
      exact ⟨hkept, .inl ⟨rfl, hpoor, o', hsp⟩⟩
    constructor
    case size => exact Nat.zero_le _
    case user => omega
    case trapframe =>
      rw [hentry _ (by decide), if_neg fun hin => (htop _ hin).1 rfl, hchild.shape.trapframe]
    case trampoline =>
      rw [hentry _ (by decide), if_neg fun hin => (htop _ hin).2 rfl, hchild.shape.trampoline]
    case empty =>
      intro w hw _ hne₁ hne₂
      rw [hentry w hw, hchild.shape.empty w hw (Nat.zero_le _) hne₁ hne₂, ite_self]

/-- Stores to the user pages of a page table that belongs to no process. -/
theorem userWrite (h : Spaces L image kpt s pm o X)
    (hr : ∀ j sp', pm j = some sp' → sp'.pagetable ≠ r) {m' : Mem}
    (hm : UserWrite o r s.mem m') :
    Spaces L image kpt { s with mem := m' } pm o X ∧ Kept pm s { s with mem := m' } := by
  obtain ⟨hinv, hframe, -⟩ := h.inv.userWrite hm
  refine h.write hinv hframe ?_
  rintro (_ | ⟨r', l, idx⟩ | ⟨r', vpn⟩ | k | k) hT hneed
  · exact hneed
  · exact hT
  · obtain rfl : r' = r := hT
    obtain ⟨j, sp', hj, hr'⟩ := hneed
    exact hr j sp' hj hr'
  · exact hT
  · exact hT

/-- Stores to the user pages of a process concern no other process, and not its trapframe. -/
theorem procWrite (h : Spaces L image kpt s pm o X) (hi : pm i = some sp) {m' : Mem}
    (hm : UserWrite o sp.pagetable s.mem m') :
    Spaces L image kpt { s with mem := m' } pm o X ∧
      Kept (Function.update pm i none) s { s with mem := m' } ∧
      Mem.AgreeOn s.mem m' sp.trapframe 4096 := by
  have hown := h.owned i sp hi
  obtain ⟨hsp, hkept⟩ := (h.detach hi).userWrite (h.roots_without hi) hm
  obtain ⟨-, hframe, hentry⟩ := h.inv.userWrite hm
  have hback := hsp.attach (Function.update_self ..) ⟨hown.trapframe, hown.root, hown.ne_kernel,
    hown.shape.congr fun w hw => hentry _ w hown.root hw⟩
  rw [Function.update_idem, ← hi, Function.update_eq_self] at hback
  exact ⟨hback, hkept, hframe.page _ _ hown.trapframe id⟩

/-- Stores to the trapframe of a process concern no other process. -/
theorem frameWrite (h : Spaces L image kpt s pm o X) (hi : pm i = some sp) {n : Mem}
    (hm : ∀ a, a / 4096 * 4096 ≠ sp.trapframe → n a = s.mem a) :
    Spaces L image kpt { s with mem := n } pm o X ∧
      Kept (Function.update pm i none) s { s with mem := n } ∧
      ∀ r, o r = some (.table r 2 0) → SameSpace s.mem n r := by
  have hown := h.owned i sp hi
  have hpage : ∀ q ρ, o q = some ρ → ρ ≠ .trapframe i → Mem.AgreeOn s.mem n q 4096 := by
    intro q ρ hq hρ k hk
    refine hm _ ?_
    have hd := (h.inv.tables.page hq).1
    rw [show (q + k) / 4096 * 4096 = q by omega]
    rintro rfl
    rw [hown.trapframe, Option.some.injEq] at hq
    exact hρ hq.symm
  have htables : Tables n o := h.inv.tables.congr h.inv.tables.page (fun _ _ _ _ => Iff.rfl)
    (fun _ _ _ => Iff.rfl) fun q r l idx hq => hpage q _ hq (by simp)
  have hinv : VmInv L { s with mem := n } o := h.inv.of_tables htables rfl rfl fun _ => Iff.rfl
  have hframe : Frame L (· = .trapframe i) s o { s with mem := n } o :=
    ⟨fun _ _ hq _ => hq, fun _ _ => .inr, hpage, fun a ha => hm a fun heq => by
      have := h.inv.heap_le_page hown.trapframe
      omega, le_rfl, fun n hn => ⟨n, hn⟩⟩
  obtain ⟨hsp, hkept⟩ := (h.detach hi).write hinv hframe fun ρ hρ => hρ ▸ fun ⟨sp', hsp'⟩ => by
    rw [Function.update_self] at hsp'
    cases hsp'
  have hsame : ∀ r, o r = some (.table r 2 0) → SameSpace s.mem n r := fun r hr =>
    hframe.sameSpace h.inv.tables htables hr fun ρ hρ ht => by subst ht; exact hρ
  have hback := hsp.attach (Function.update_self ..) ⟨hown.trapframe, hown.root, hown.ne_kernel,
    hown.shape.congr (hsame _ hown.root).entry⟩
  rw [Function.update_idem, ← hi, Function.update_eq_self] at hback
  exact ⟨hback, hkept, hsame⟩

end Spaces

end OsKernel
