import Mathlib.Data.Finset.Card
import Mathlib.Order.Interval.Finset.Nat
import OsKernel.Proc.Spaces
import OsKernel.Vm.Meaning

/-!
# The kernel page table

`kvmmake` of `vm.c` builds the page table the kernel runs on, with `kvmmap` and
`proc_mapstacks`. `Building` says how far it has come: the meaning the table has by now, the
kernel stacks that have a page, and that every page handed out has its own role among the roles
the finished table needs. So the pages can be counted, and `kvmmake` fails only when a call of
`kalloc` is made to fail or there are fewer free pages than it needs.
-/

namespace OsKernel

namespace Vm

variable (L : Layout)

/-- `kvmmap`. -/
def kvmmap (kpgtbl va pa sz perm : ℕ) : VmM Unit := do
  let ok ← mappages L kpgtbl va sz pa perm
  if ok then return () else PanicM.fail .kvmmap

/-- The loop of `proc_mapstacks` over the slots that are left. -/
def procMapstacksLoop (kpgtbl : ℕ) : List Slot → VmM Unit
  | [] => return ()
  | i :: rest => do
    let pa ← kalloc L
    if pa = 0 then
      PanicM.fail .kalloc
    else
      kvmmap L kpgtbl (kstackVa i) pa pgsize (pteR ||| pteW)
      procMapstacksLoop kpgtbl rest

/-- `proc_mapstacks`. -/
def procMapstacks (kpgtbl : ℕ) : VmM Unit := procMapstacksLoop L kpgtbl (List.finRange nproc)

/-- `kvmmake`. The result of the first `kalloc` is not checked; there is no memory at address 0
that `memset` could clear. -/
def kvmmake : VmM ℕ := do
  let kpgtbl ← kalloc L
  if kpgtbl = 0 then
    PanicM.fail .fault
  else
    memset kpgtbl 0 pgsize
    kvmmap L kpgtbl uart0 uart0 pgsize (pteR ||| pteW)
    kvmmap L kpgtbl plic plic 0x4000000 (pteR ||| pteW)
    kvmmap L kpgtbl kernbase kernbase (L.etext - kernbase) (pteR ||| pteX)
    kvmmap L kpgtbl L.etext L.etext (L.phystop - L.etext) (pteR ||| pteW)
    kvmmap L kpgtbl trampolineVa L.trampoline pgsize (pteR ||| pteX)
    procMapstacks L kpgtbl
    return kpgtbl

end Vm

variable {L : Layout} {s s' s₀ : Vm} {o o' : Owners} {r w va pa perm n : ℕ} {f : ℕ → ℕ}
  {done : Set Slot} {stack : Slot → ℕ}

/-! ### The pages the kernel page table needs -/

/-- The virtual pages of the devices, of the memory and of the top of the address space. -/
def KvmPage (L : Layout) (w : ℕ) : Prop :=
  0xc000 ≤ w ∧ w ≤ 0x10000 ∨ 0x80000 ≤ w ∧ w < L.phystop / 4096 ∨ 2 ^ 26 - 512 ≤ w ∧ w < 2 ^ 26

/-- The positions of the tables of level 1 for those pages. -/
def kvmUpper (L : Layout) : Finset ℕ := {0, 255} ∪ Finset.Icc 2 ((L.phystop - 1) / 2 ^ 30)

/-- The positions of the tables of level 0 for those pages. -/
def kvmLower (L : Layout) : Finset ℕ :=
  Finset.Icc 96 128 ∪ Finset.Icc 1024 ((L.phystop - 1) / 2 ^ 21) ∪ {131071}

/-- The roles of the pages that the kernel page table at `r` and the kernel stacks take. -/
def kvmRoles (L : Layout) (r : ℕ) : Finset Role :=
  {.table r 2 0} ∪ (kvmUpper L).image (Role.table r 1) ∪ (kvmLower L).image (Role.table r 0) ∪
    Finset.univ.image Role.kstack

/-- The number of pages `kvmmake` takes. -/
def kvmPages (L : Layout) : ℕ := 1 + (kvmUpper L).card + (kvmLower L).card + nproc

theorem card_kvmRoles_le (L : Layout) (r : ℕ) : (kvmRoles L r).card ≤ kvmPages L := by
  have hstack : (Finset.univ.image Role.kstack).card ≤ nproc :=
    Finset.card_image_le.trans (Finset.card_fin nproc).le
  refine (Finset.card_union_le _ _).trans (Nat.add_le_add ?_ hstack)
  refine (Finset.card_union_le _ _).trans (Nat.add_le_add ?_ Finset.card_image_le)
  refine (Finset.card_union_le _ _).trans (Nat.add_le_add ?_ Finset.card_image_le)
  exact (Finset.card_singleton _).le

/-- The tables over a page of the kernel page table are among those it needs. -/
theorem mem_kvmRoles_of_over {ρ : Role} (hw : KvmPage L w) (h : ρ.Over r w) : ρ ∈ kvmRoles L r := by
  have hphys := L.phystop_aligned
  rw [KvmPage] at hw
  simp only [kvmRoles, kvmUpper, kvmLower, Finset.mem_union, Finset.mem_image, Finset.mem_Icc,
    Finset.mem_insert, Finset.mem_singleton]
  rcases h with rfl | rfl
  · exact .inl (.inl (.inr ⟨_, by omega, rfl⟩))
  · exact .inl (.inr ⟨_, by omega, rfl⟩)

theorem kstack_mem_kvmRoles (L : Layout) (r : ℕ) (i : Slot) : .kstack i ∈ kvmRoles L r := by
  simp [kvmRoles]

theorem root_mem_kvmRoles (L : Layout) (r : ℕ) : .table r 2 0 ∈ kvmRoles L r := by
  simp [kvmRoles]

/-- The kernel page table has tables of its own and kernel stacks. -/
theorem eq_of_mem_kvmRoles {ρ : Role} (h : ρ ∈ kvmRoles L r) :
    (∃ l idx, ρ = .table r l idx) ∨ ∃ i, ρ = .kstack i := by
  simp only [kvmRoles, Finset.mem_union, Finset.mem_image, Finset.mem_singleton] at h
  rcases h with ((rfl | ⟨_, -, rfl⟩) | ⟨_, -, rfl⟩) | ⟨i, -, rfl⟩
  · exact .inl ⟨_, _, rfl⟩
  · exact .inl ⟨_, _, rfl⟩
  · exact .inl ⟨_, _, rfl⟩
  · exact .inr ⟨i, rfl⟩

/-! ### Building the table -/

theorem kstackVa_div (i : Slot) : kstackVa i / 4096 = kstackVpn i := by
  have := i.isLt
  simp only [kstackVa, kstackVpn, trampolineVa, maxva, pgsize, nproc] at *
  omega

theorem kstackVpn_injective : Function.Injective kstackVpn := by
  intro i j h
  have := i.isLt
  have := j.isLt
  simp only [kstackVpn, nproc] at *
  exact Fin.ext (by omega)

/-- The kernel page table at `r` is being built from the state `s₀`: it means `f` by now, and the
kernel stacks of the slots `done` are the pages `stack`. -/
structure Building (L : Layout) (r : ℕ) (done : Set Slot) (stack : Slot → ℕ) (f : ℕ → ℕ)
    (s₀ s : Vm) (o : Owners) : Prop where
  start : s₀.freemem = L.heap
  inv : VmInv L s o
  root : o r = some (.table r 2 0)
  entry : ∀ w, w < 2 ^ 27 → s.mem.entry r w = f w
  kstack : ∀ i q, o q = some (.kstack i) ↔ i ∈ done ∧ q = stack i
  zero : ∀ i ∈ done, ∀ k, k < 4096 → s.mem (stack i + k) = 0
  roles : ∀ q ρ, o q = some ρ → ρ ∈ kvmRoles L r
  image : ∀ a, a < L.heap → s.mem a = s₀.mem a
  freed : s.freed = []
  fails : ∀ n, s.fails n = true → ∃ k, s₀.fails k = true

namespace Building

/-- No two pages have the same role. -/
theorem unique (h : Building L r done stack f s₀ s o) {q q' : ℕ} {ρ : Role} (hq : o q = some ρ)
    (hq' : o q' = some ρ) : q = q' := by
  rcases eq_of_mem_kvmRoles (h.roles q ρ hq) with ⟨l, idx, rfl⟩ | ⟨i, rfl⟩
  · exact h.inv.tables.unique hq hq'
  · rw [((h.kstack i q).mp hq).2, ((h.kstack i q').mp hq').2]

/-- The pages in use are counted by their roles. -/
theorem pages_le (h : Building L r done stack f s₀ s o) {F : Finset Role}
    (hF : ∀ q ρ, o q = some ρ → ρ ∈ F) : s.freemem ≤ s₀.freemem + F.card * 4096 := by
  have hcount := h.inv.pages_le (L.heap_aligned) le_rfl (by simp [h.freed])
    (fun q ρ _ => hF q ρ) fun q q' ρ _ _ => h.unique
  have := h.inv.aligned
  have := L.heap_aligned
  have := h.start
  omega

theorem freemem_le (h : Building L r done stack f s₀ s o) :
    s.freemem ≤ s₀.freemem + kvmPages L * 4096 := by
  have hcard := Nat.mul_le_mul_right 4096 (card_kvmRoles_le L r)
  exact (h.pages_le fun q ρ => h.roles q ρ).trans (Nat.add_le_add_left hcard _)

/-- A call of `kalloc` that fails while a role is missing: there was not enough memory. -/
theorem not_roomy (h : Building L r done stack f s₀ s o) (hs : Starved L s₀ s)
    (hlack : o.Lacks (· ∈ kvmRoles L r)) : ¬Roomy L s₀ (kvmPages L) := by
  obtain ⟨ρ, hρ, hnone⟩ := hlack
  have hle := h.pages_le fun q τ hq =>
    Finset.mem_erase_of_ne_of_mem (fun heq : τ = ρ => hnone q (heq ▸ hq)) (h.roles q τ hq)
  have hlt : ((kvmRoles L r).erase ρ).card + 1 ≤ kvmPages L :=
    (Finset.card_erase_lt_of_mem hρ).trans_le (card_kvmRoles_le L r)
  have hmul := Nat.mul_le_mul_right 4096 hlt
  refine fun hroom => hroom.not_starved ?_ hs
  rw [Nat.succ_mul] at hmul
  exact (Nat.add_le_add_right hle 4096).trans
    (by rw [Nat.add_assoc]; exact Nat.add_le_add_left hmul _)

theorem starved (h : Building L r done stack f s₀ s o) (hs : Starved L s s') : Starved L s₀ s' :=
  hs.imp_left fun ⟨n, hn⟩ => h.fails n hn

/-- What an operation that adds tables leaves of what has been built. -/
theorem remap {T : Role → Prop} {g : ℕ → ℕ} (h : Building L r done stack f s₀ s o)
    (hremap : Remap L r T s o s' o') (hT : ∀ ρ, T ρ → ρ ∈ kvmRoles L r)
    (hentry : ∀ w, w < 2 ^ 27 → s'.mem.entry r w = g w) :
    Building L r done stack g s₀ s' o' where
  start := h.start
  inv := hremap.inv
  root := hremap.root
  entry := hentry
  kstack i q := (hremap.frame.role_iff id).trans (h.kstack i q)
  zero i hi k hk := by
    rw [hremap.frame.page _ _ ((h.kstack i _).mpr ⟨hi, rfl⟩) id k hk]
    exact h.zero i hi k hk
  roles q ρ hq := (hremap.adds q ρ hq).elim (h.roles q ρ) (hT ρ)
  image a ha := (hremap.frame.image a ha).trans (h.image a ha)
  freed := hremap.freed.trans h.freed
  fails n hn := by
    obtain ⟨k, hk⟩ := hremap.frame.fails n hn
    exact h.fails k hk

/-- **`kvmmap`** of pages that are not mapped. -/
theorem kvmmap (h : Building L r done stack f s₀ s o)
    (hperm : perm = pteR ||| pteW ∨ perm = pteR ||| pteX) (hd : 4096 ∣ va) (hn : 0 < n)
    (hva : va + n * 4096 ≤ 2 ^ 38) (hpa : pa + n * 4096 ≤ 2 ^ 64)
    (hpage : ∀ w, va / 4096 ≤ w → w < va / 4096 + n → KvmPage L w ∧ f w = 0) :
    (Vm.kvmmap L r va pa (n * 4096) perm).Ends s (fun _ => ¬Roomy L s₀ (kvmPages L)) fun _ s' =>
      ∃ o', Building L r done stack (mapRange f (va / 4096) n pa perm) s₀ s' o' := by
  have hbits : perm < 1024 ∧ perm &&& pteU = 0 ∧
      (perm ||| pteV) &&& (pteR ||| pteW ||| pteX) ≠ 0 := by
    rcases hperm with rfl | rfl <;> decide
  have hfree : ∀ w, va / 4096 ≤ w → w < va / 4096 + n → s.mem.entry r w = 0 := fun w hlo hhi =>
    (h.entry w (by omega)).trans (hpage w hlo hhi).2
  have hroles : ∀ ρ : Role, ρ.OverRange r (va / 4096) n → ρ ∈ kvmRoles L r :=
    fun ρ ⟨w, hlo, hhi, hρ⟩ => mem_kvmRoles_of_over (hpage w hlo hhi).1 hρ
  refine (mappages_spec h.inv h.root hbits.1 hbits.2.1 hbits.2.2 hd hn hva hpa hfree).ends.bind ?_
  rintro ok s' ⟨o', k, hremap, hok, hentry⟩
  have hbuilt := h.remap hremap hroles hentry
  rcases hok with ⟨rfl, rfl⟩ | ⟨rfl, -, hs, hlack⟩
  · refine ⟨o', h.remap hremap hroles fun w hw => ?_⟩
    rw [hentry w hw, mapRange, mapRange, h.entry w hw]
  · exact hbuilt.not_roomy (h.starved hs) (hlack.mono hroles)

/-- A page for the kernel stack of a slot that has none. -/
theorem grantStack (h : Building L r done stack f s₀ s o) {i : Slot} (hi : i ∉ done)
    (hroom : s.freemem + 4096 ≤ L.phystop) :
    Building L r (insert i done) (Function.update stack i s.freemem) f s₀ s.grant
      (Function.update o s.freemem (some (.kstack i))) := by
  have hnone := h.inv.freemem_none (q := s.freemem) le_rfl
  have hinv := (h.inv.grant hroom).rerole (τ := .kstack i) (Function.update_self ..) trivial trivial
  rw [Function.update_idem] at hinv
  have hframe := (filled_grant h.inv).frame (T := (· = .kstack i)) (x := some (.kstack i)) h.inv
    fun ρ hρ => (Option.some.injEq _ _ ▸ hρ).symm
  have hne : r ≠ s.freemem := by
    rintro rfl
    rw [h.root] at hnone
    cases hnone
  refine ⟨h.start, hinv, ?_, fun w hw => ?_, fun j q => ?_, fun j hj k hk => ?_, fun q ρ hq => ?_,
    fun a ha => (hframe.image a ha).trans (h.image a ha), h.freed, fun n hn => ?_⟩
  · rw [Function.update_of_ne hne, h.root]
  · rw [hframe.entry_eq h.inv.tables hinv.tables h.root (fun l idx => by simp) hw, h.entry w hw]
  · by_cases hq : q = s.freemem
    · subst hq
      rw [Function.update_self, Option.some.injEq, Role.kstack.injEq, Set.mem_insert_iff]
      constructor
      · rintro rfl
        exact ⟨.inl rfl, by rw [Function.update_self]⟩
      · rintro ⟨rfl | hj, heq⟩
        · rfl
        · -- an earlier stack is a page that was handed out before
          have hji : j ≠ i := fun hji => hi (hji ▸ hj)
          rw [Function.update_of_ne hji] at heq
          rw [(h.kstack j _).mpr ⟨hj, heq⟩] at hnone
          cases hnone
    · rw [Function.update_of_ne hq, h.kstack j q, Set.mem_insert_iff]
      by_cases hji : j = i
      · subst hji
        rw [Function.update_self]
        exact ⟨fun hj => absurd hj.1 hi, fun hj => absurd hj.2 hq⟩
      · rw [Function.update_of_ne hji, or_iff_right hji]
  · by_cases hji : j = i
    · subst hji
      rw [Function.update_self, Vm.grant_mem, Mem.memset_apply, if_pos (by omega)]
    · have hj := hj.resolve_left hji
      rw [Function.update_of_ne hji,
        hframe.page _ _ ((h.kstack j _).mpr ⟨hj, rfl⟩) (by simpa using hji) k hk]
      exact h.zero j hj k hk
  · rcases update_eq_some hq with ⟨-, heq⟩ | ⟨-, hq⟩
    · cases heq
      exact kstack_mem_kvmRoles L r i
    · exact h.roles q ρ hq
  · obtain ⟨k, hk⟩ := hframe.fails n hn
    exact h.fails k hk

/-- **The loop of `proc_mapstacks`.** -/
theorem procMapstacksLoop (l : List Slot) : ∀ {done stack f s o},
    Building L r done stack f s₀ s o → l.Nodup → (∀ i ∈ l, i ∉ done ∧ f (kstackVpn i) = 0) →
    (Vm.procMapstacksLoop L r l).Ends s (fun _ => ¬Roomy L s₀ (kvmPages L)) fun _ s' =>
      ∃ stack' f' o',
      Building L r (done ∪ {i | i ∈ l}) stack' f' s₀ s' o' ∧ (∀ i, i ∉ l → stack' i = stack i) ∧
        (∀ i ∈ l, f' (kstackVpn i) = pa2pte (stack' i) ||| (pteR ||| pteW) ||| pteV) ∧
        ∀ w, (∀ i ∈ l, w ≠ kstackVpn i) → f' w = f w := by
  induction l with
  | nil =>
    intro done stack f s o h _ _
    refine ⟨stack, f, o, ?_, fun _ _ => rfl, by simp, fun _ _ => rfl⟩
    simpa using h
  | cons i rest ih =>
    intro done stack f s o h hnodup hnew
    obtain ⟨hi, hrest⟩ := List.nodup_cons.mp hnodup
    obtain ⟨hidone, hizero⟩ := hnew i List.mem_cons_self
    have hlt := i.isLt
    rw [Vm.procMapstacksLoop]
    rcases h.inv.kalloc with ⟨hk, hs⟩ | ⟨hk, hpos, hs⟩
    · -- the slot has no page yet, so a page is missing
      have hlack : o.Lacks (· ∈ kvmRoles L r) :=
        ⟨.kstack i, kstack_mem_kvmRoles L r i, fun q hq => hidone ((h.kstack i q).mp hq).1⟩
      rw [PanicM.Ends, PanicM.bind_of_ok hk]
      exact h.not_roomy (h.starved (.of_supply hs)) hlack
    · rw [PanicM.Ends, PanicM.bind_of_ok hk, if_neg hpos]
      have hroom : s.freemem + 4096 ≤ L.phystop := by
        have := hs.room
        omega
      have hphys := L.phystop_le
      have hpage : ∀ w, kstackVa i / 4096 ≤ w → w < kstackVa i / 4096 + 1 →
          KvmPage L w ∧ f w = 0 := by
        intro w hlo hhi
        obtain rfl : w = kstackVpn i := by rw [kstackVa_div] at hlo hhi; omega
        refine ⟨.inr (.inr ?_), hizero⟩
        simp only [kstackVpn, nproc] at *
        omega
      have hva : 4096 ∣ kstackVa i ∧ kstackVa i + 1 * 4096 ≤ 2 ^ 38 := by
        simp only [kstackVa, trampolineVa, maxva, pgsize, nproc] at *
        omega
      refine ((h.grantStack hidone hroom).kvmmap (.inl rfl) hva.1 (by omega) hva.2 (by omega)
        hpage).bind ?_
      rintro _ s₁ ⟨o₁, h₁⟩
      rw [kstackVa_div] at h₁
      refine (ih h₁ hrest fun j hj => ?_).mono ?_
      · have hji : j ≠ i := fun hji => hi (hji ▸ hj)
        have hne : kstackVpn j ≠ kstackVpn i := fun heq => hji (kstackVpn_injective heq)
        obtain ⟨hjdone, hjzero⟩ := hnew j (List.mem_cons_of_mem _ hj)
        refine ⟨by simp [hji, hjdone], ?_⟩
        rw [mapRange, if_neg (by omega), hjzero]
      · rintro _ s' ⟨stack', f', o', h', hstack, hf', hother⟩
        have hset : insert i done ∪ {j | j ∈ rest} = done ∪ {j | j ∈ i :: rest} := by
          ext j
          simp only [Set.mem_union, Set.mem_insert_iff, Set.mem_ofPred_eq, List.mem_cons]
          tauto
        refine ⟨stack', f', o', hset ▸ h', fun j hj => ?_, fun j hj => ?_, fun w hw => ?_⟩
        · rw [List.mem_cons, not_or] at hj
          rw [hstack j hj.2, Function.update_of_ne hj.1]
        · rcases List.mem_cons.mp hj with rfl | hj
          · have hother' : ∀ k ∈ rest, kstackVpn j ≠ kstackVpn k := fun k hk heq =>
              hi (kstackVpn_injective heq ▸ hk)
            rw [hother _ hother', hstack j hi, Function.update_self, mapRange, if_pos (by omega),
              Nat.sub_self, Nat.zero_mul, Nat.add_zero]
          · exact hf' j hj
        · rw [List.forall_mem_cons] at hw
          rw [hother w hw.2, mapRange, if_neg (by have := hw.1; omega)]

end Building

/-! ### `kvmmake` -/

/-- The meaning of the kernel page table without the kernel stacks. -/
def kvmBase (L : Layout) : ℕ → ℕ :=
  let f := mapRange (fun _ => 0) (uart0 / 4096) 1 uart0 (pteR ||| pteW)
  let f := mapRange f (plic / 4096) 0x4000 plic (pteR ||| pteW)
  let f := mapRange f (kernbase / 4096) ((L.etext - kernbase) / 4096) kernbase (pteR ||| pteX)
  let f := mapRange f (L.etext / 4096) ((L.phystop - L.etext) / 4096) L.etext (pteR ||| pteW)
  mapRange f (trampolineVa / 4096) 1 L.trampoline (pteR ||| pteX)

/-- The image lies between `KERNBASE` and `PHYSTOP`. -/
theorem Layout.bounds (L : Layout) : 0x80000000 < L.etext ∧ L.trampoline < L.etext ∧
    L.etext < L.phystop ∧ L.phystop ≤ 2 ^ 38 - 2 ^ 21 := by
  have := L.kernbase_le_trampoline
  have := L.trampoline_lt_etext
  have := L.etext_le_kend
  have := L.kend_lt_phystop
  have := L.phystop_le
  omega

theorem kvmBase_kstackVpn (L : Layout) (i : Slot) : kvmBase L (kstackVpn i) = 0 := by
  have := i.isLt
  have := L.bounds
  simp only [kvmBase, mapRange, kstackVpn, trampolineVa, maxva, pgsize, uart0, plic, kernbase,
    nproc] at *
  split_ifs <;> first | rfl | omega

/-- Before the first page is handed out. -/
theorem vmInv_initial (hfree : s.freemem = L.heap) (hfreed : s.freed = []) :
    VmInv L s fun _ => none where
  tables := ⟨nofun, nofun, nofun, nofun, nofun, nofun, nofun, nofun⟩
  aligned := hfree ▸ L.heap_aligned
  heap_le := hfree.ge
  le_phystop := hfree ▸ L.heap_le_phystop
  owned q := by
    refine ⟨nofun, fun h => ?_⟩
    omega
  freed := by simp [hfreed]
  nodup := by simp [hfreed]

/-- The first page is an empty page table. -/
theorem building_initial (hfree : s.freemem = L.heap) (hfreed : s.freed = [])
    (hroom : s.freemem + 4096 ≤ L.phystop) :
    Building L s.freemem ∅ (fun _ => 0) (fun _ => 0) s
      { s.grant with mem := s.grant.mem.memset s.freemem 0 4096 }
      (Function.update (fun _ => none) s.freemem (some (.table s.freemem 2 0))) := by
  obtain ⟨hinv, hframe, hentry⟩ := (vmInv_initial hfree hfreed).newRoot hroom
  have hrole : ∀ q ρ, Function.update (fun _ => none) s.freemem
      (some (Role.table s.freemem 2 0)) q = some ρ → ρ = .table s.freemem 2 0 := by
    intro q ρ hq
    rcases update_eq_some hq with ⟨-, heq⟩ | ⟨-, hq⟩
    · cases heq
      rfl
    · cases hq
  refine ⟨hfree, hinv, Function.update_self .., hentry, fun i q =>
    ⟨fun hq => ?_, fun h => h.1.elim⟩,
    fun i hi => hi.elim, fun q ρ hq => ?_, hframe.image, hfreed, hframe.fails⟩
  · cases hrole q _ hq
  · rw [hrole q ρ hq]
    exact root_mem_kvmRoles L _

/-- **`kvmmake`** builds the table, unless memory runs out. -/
theorem kvmmake_ends (hfree : s.freemem = L.heap) (hfreed : s.freed = []) :
    (Vm.kvmmake L).Ends s (fun _ => ¬Roomy L s (kvmPages L)) fun kpt s' => ∃ stack f o,
      Building L kpt Set.univ stack f s s' o ∧
        (∀ i, f (kstackVpn i) = pa2pte (stack i) ||| (pteR ||| pteW) ||| pteV) ∧
        ∀ w, (∀ i, w ≠ kstackVpn i) → f w = kvmBase L w := by
  have hbounds := L.bounds
  have hda := L.etext_aligned
  have hdp := L.phystop_aligned
  have htext : L.etext - kernbase = (L.etext - kernbase) / 4096 * 4096 := by
    simp only [kernbase]
    omega
  have hdata : L.phystop - L.etext = (L.phystop - L.etext) / 4096 * 4096 := by omega
  rw [Vm.kvmmake]
  rcases (vmInv_initial hfree hfreed).kalloc with ⟨hk, hs⟩ | ⟨hk, hpos, hs⟩
  · rw [PanicM.Ends, PanicM.bind_of_ok hk]
    have hpos : 1 ≤ kvmPages L := by
      simp only [kvmPages]
      omega
    exact fun hroom => hroom.not_starved (Nat.add_le_add_left (Nat.mul_le_mul_right 4096 hpos) _)
      (.of_supply hs)
  · rw [PanicM.Ends, PanicM.bind_of_ok hk, if_neg hpos]
    have h := building_initial hfree hfreed (by have := hs.room; omega)
    rw [htext, hdata]
    simp only [kernbase] at htext
    refine (h.kvmmap (n := 1) (.inl rfl) (by decide) (by decide) (by decide) (by decide) ?_).bind ?_
    · intro w hlo hhi
      simp only [uart0] at hlo hhi
      exact ⟨.inl (by omega), rfl⟩
    rintro _ s₁ ⟨o₁, h₁⟩
    refine (h₁.kvmmap (n := 0x4000) (.inl rfl) (by decide) (by decide) (by decide) (by decide)
      ?_).bind ?_
    · intro w hlo hhi
      simp only [plic] at hlo hhi
      refine ⟨.inl (by omega), ?_⟩
      rw [mapRange, if_neg (by simp only [uart0]; omega)]
    rintro _ s₂ ⟨o₂, h₂⟩
    refine (h₂.kvmmap (.inr rfl) (by decide) (by simp only [kernbase]; omega)
      (by simp only [kernbase]; omega) (by simp only [kernbase]; omega) ?_).bind ?_
    · intro w hlo hhi
      simp only [kernbase] at hlo hhi
      refine ⟨.inr (.inl (by omega)), ?_⟩
      rw [mapRange, if_neg (by simp only [plic]; omega), mapRange,
        if_neg (by simp only [uart0]; omega)]
    rintro _ s₃ ⟨o₃, h₃⟩
    refine (h₃.kvmmap (.inl rfl) hda (by omega) (by omega) (by omega) ?_).bind ?_
    · intro w hlo hhi
      refine ⟨.inr (.inl (by omega)), ?_⟩
      rw [mapRange, if_neg (by simp only [kernbase]; omega), mapRange,
        if_neg (by simp only [plic]; omega), mapRange, if_neg (by simp only [uart0]; omega)]
    rintro _ s₄ ⟨o₄, h₄⟩
    refine (h₄.kvmmap (n := 1) (.inr rfl) (by decide) (by decide) (by decide) (by omega) ?_).bind ?_
    · intro w hlo hhi
      rw [trampolineVa_div, trampolineVpn] at hlo hhi
      refine ⟨.inr (.inr (by omega)), ?_⟩
      rw [mapRange, if_neg (by omega), mapRange, if_neg (by simp only [kernbase]; omega), mapRange,
        if_neg (by simp only [plic]; omega), mapRange, if_neg (by simp only [uart0]; omega)]
    rintro _ s₅ ⟨o₅, h₅⟩
    have hstacks : ∀ i ∈ List.finRange nproc, i ∉ (∅ : Set Slot) ∧ kvmBase L (kstackVpn i) = 0 :=
      fun i _ => ⟨id, kvmBase_kstackVpn L i⟩
    refine (h₅.procMapstacksLoop _ (List.nodup_finRange nproc) hstacks).bind ?_
    rintro _ s₆ ⟨stack, f, o₆, h₆, -, hstack, hother⟩
    have hall : (∅ ∪ {i | i ∈ List.finRange nproc} : Set Slot) = Set.univ := by
      ext i
      simp
    refine ⟨stack, f, o₆, hall ▸ h₆, fun i => hstack i (List.mem_finRange i), fun w hw => ?_⟩
    exact hother w fun i _ => hw i

/-! ### The kernel address map -/

/-- **The kernel address map**: the virtual page `w` is mapped to the physical page at `pa` with
the flags `fl`. The kernel stacks are in the pages `stack`. -/
inductive KernelMaps (L : Layout) (stack : Slot → ℕ) : (w pa fl : ℕ) → Prop
  | uart : KernelMaps L stack (uart0 / 4096) uart0 (pteR ||| pteW ||| pteV)
  | plic {w : ℕ} : plic / 4096 ≤ w → w < (plic + 0x4000000) / 4096 →
      KernelMaps L stack w (w * 4096) (pteR ||| pteW ||| pteV)
  | text {w : ℕ} : kernbase / 4096 ≤ w → w < L.etext / 4096 →
      KernelMaps L stack w (w * 4096) (pteR ||| pteX ||| pteV)
  | data {w : ℕ} : L.etext / 4096 ≤ w → w < L.phystop / 4096 →
      KernelMaps L stack w (w * 4096) (pteR ||| pteW ||| pteV)
  | trampoline : KernelMaps L stack (trampolineVa / 4096) L.trampoline (pteR ||| pteX ||| pteV)
  | kstack (i : Slot) : KernelMaps L stack (kstackVa i / 4096) (stack i) (pteR ||| pteW ||| pteV)

/-- No page of the map is writable and executable, or open to user code. -/
theorem KernelMaps.flags {fl : ℕ} (h : KernelMaps L stack w pa fl) :
    ¬(fl &&& pteW ≠ 0 ∧ fl &&& pteX ≠ 0) ∧ fl &&& pteU = 0 := by
  cases h <;> decide

/-- At the top of the address space there are the trampoline and the kernel stacks. -/
theorem KernelMaps.top {fl : ℕ} (h : KernelMaps L stack w pa fl) (hw : 2 ^ 26 - 512 ≤ w) :
    w = trampolineVpn ∨
      ∃ i, w = kstackVpn i ∧ pa = stack i ∧ fl = pteR ||| pteW ||| pteV := by
  have hbounds := L.bounds
  cases h with
  | uart => simp only [uart0] at hw; omega
  | plic hlo hhi => simp only [OsKernel.plic] at hhi; omega
  | text hlo hhi => omega
  | data hlo hhi => omega
  | trampoline => exact .inl trampolineVa_div
  | kstack i => exact .inr ⟨i, kstackVa_div i, rfl, rfl⟩

/-- The page of a kernel stack is mapped to that stack. -/
theorem KernelMaps.kstackVpn_iff {i : Slot} {fl : ℕ} : KernelMaps L stack (kstackVpn i) pa fl ↔
    pa = stack i ∧ fl = pteR ||| pteW ||| pteV := by
  have hi := i.isLt
  constructor
  · intro h
    rcases h.top (by simp only [kstackVpn, nproc] at *; omega) with htop | ⟨j, hj, hpa, hfl⟩
    · simp only [kstackVpn, trampolineVpn] at htop
      omega
    · obtain rfl := kstackVpn_injective hj
      exact ⟨hpa, hfl⟩
  · rintro ⟨rfl, rfl⟩
    exact kstackVa_div i ▸ .kstack i

/-- The page below a kernel stack is not in the map. -/
theorem KernelMaps.guard (i : Slot) {fl : ℕ} : ¬KernelMaps L stack (kstackVpn i - 1) pa fl := by
  have hi := i.isLt
  intro h
  rcases h.top (by simp only [kstackVpn, nproc] at *; omega) with htop | ⟨j, hj, -, -⟩
  · simp only [kstackVpn, trampolineVpn] at htop
    omega
  · have hj' := j.isLt
    simp only [kstackVpn, nproc] at *
    omega

theorem leafMeaning_mapRange (hd : 4096 ∣ pa) (hpa : pa + n * 4096 ≤ 2 ^ 64) (hperm : perm < 1024)
    {vpn : ℕ} : leafMeaning (mapRange f vpn n pa perm w) =
      if vpn ≤ w ∧ w < vpn + n then some (pa + (w - vpn) * 4096, perm ||| pteV)
      else leafMeaning (f w) := by
  rw [mapRange]
  split_ifs with h
  · exact leafMeaning_leafEntry (by omega) (by omega) hperm
  · rfl

/-- The table without the kernel stacks means the map without the kernel stacks. -/
theorem leafMeaning_kvmBase {fl : ℕ} (hw : ∀ i, w ≠ kstackVpn i) :
    leafMeaning (kvmBase L w) = some (pa, fl) ↔ KernelMaps L stack w pa fl := by
  have hbounds := L.bounds
  have hda := L.etext_aligned
  have hdp := L.phystop_aligned
  have hzero : leafMeaning 0 = none := rfl
  rw [kvmBase, leafMeaning_mapRange L.trampoline_aligned (by omega) (by decide),
    leafMeaning_mapRange hda (by omega) (by decide),
    leafMeaning_mapRange (by decide) (by simp only [kernbase]; omega) (by decide),
    leafMeaning_mapRange (by decide) (by decide) (by decide),
    leafMeaning_mapRange (by decide) (by decide) (by decide), hzero]
  constructor
  · intro h
    split_ifs at h with htop hdata htext hplic huart <;>
      simp only [Option.some.injEq, Prod.mk.injEq] at h <;> obtain ⟨rfl, rfl⟩ := h
    · obtain rfl : w = trampolineVa / 4096 := by omega
      rw [Nat.sub_self, Nat.zero_mul, Nat.add_zero]
      exact .trampoline
    · rw [show L.etext + (w - L.etext / 4096) * 4096 = w * 4096 by omega]
      exact .data hdata.1 (by omega)
    · simp only [kernbase] at htext ⊢
      rw [show 0x80000000 + (w - 0x80000000 / 4096) * 4096 = w * 4096 by omega]
      exact .text htext.1 (by omega)
    · simp only [plic] at hplic ⊢
      rw [show 0x0c000000 + (w - 0x0c000000 / 4096) * 4096 = w * 4096 by omega]
      exact .plic hplic.1 (by simp only [plic]; omega)
    · obtain rfl : w = uart0 / 4096 := by omega
      rw [Nat.sub_self, Nat.zero_mul, Nat.add_zero]
      exact .uart
  · intro h
    -- each page is in one range, so all but one branch contradict the bounds
    cases h with
    | kstack i => exact absurd (kstackVa_div i) (hw i)
    | _ =>
      split_ifs <;> simp only [trampolineVa, maxva, pgsize, kernbase, plic, uart0,
        Option.some.injEq, Prod.mk.injEq, and_true] at * <;> omega

/-- The finished table means the kernel address map. -/
theorem Building.meaning {fl : ℕ} (h : Building L r Set.univ stack f s₀ s o)
    (hstack : ∀ i, f (kstackVpn i) = pa2pte (stack i) ||| (pteR ||| pteW) ||| pteV)
    (hbase : ∀ w, (∀ i, w ≠ kstackVpn i) → f w = kvmBase L w) (hw : w < maxva / 4096) :
    s.mem.meaning r w = some (pa, fl) ↔ KernelMaps L stack w pa fl := by
  have hw' : w < 2 ^ 27 := by
    simp only [maxva] at hw
    omega
  rw [Mem.meaning, h.entry w hw']
  by_cases hk : ∃ i, w = kstackVpn i
  · obtain ⟨i, rfl⟩ := hk
    have hpage := h.inv.tables.page ((h.kstack i _).mpr ⟨trivial, rfl⟩)
    rw [hstack i, leafMeaning_leafEntry hpage.1 hpage.2.2 (by decide), Option.some.injEq,
      Prod.mk.injEq, KernelMaps.kstackVpn_iff, eq_comm, @eq_comm _ fl]
  · rw [not_exists] at hk
    rw [hbase w hk, leafMeaning_kvmBase hk]

/-- **`kvmmake` builds the kernel address map.** After `kinit`, with as many free pages as it takes
and no call of `kalloc` that fails, it returns a page table that maps exactly the pages of the map,
with the kernel stacks in pages of zeros that were handed out for them and that differ. So no page
is writable and executable, none is open to user code, and the page below a kernel stack is not
mapped. -/
theorem kvmmake_builds_map (m : Mem) (fails : ℕ → Bool) (hfails : ∀ n, fails n = false)
    (hroom : L.heap + kvmPages L * 4096 ≤ L.phystop) :
    (do Vm.kinit L; Vm.kvmmake L : VmM ℕ).Returns ⟨m, 0, fails, []⟩ fun kpgtbl s =>
      ∃ stack : Slot → ℕ, Function.Injective stack ∧
        (∀ i, 4096 ∣ stack i ∧ L.heap ≤ stack i ∧ stack i + 4096 ≤ s.freemem ∧
          ∀ k, k < 4096 → s.mem (stack i + k) = 0) ∧
        (∀ w pa fl, w < maxva / 4096 →
          (s.mem.meaning kpgtbl w = some (pa, fl) ↔ KernelMaps L stack w pa fl)) ∧
        (∀ w pa fl, w < maxva / 4096 → s.mem.meaning kpgtbl w = some (pa, fl) →
          ¬(fl &&& pteW ≠ 0 ∧ fl &&& pteX ≠ 0) ∧ fl &&& pteU = 0) ∧
        ∀ i, s.mem.meaning kpgtbl ((kstackVa i - pgsize) / 4096) = none := by
  have hrun := kvmmake_ends (L := L) (s := ⟨m, L.heap, fails, []⟩) rfl rfl
  have hmake := hrun.returns fun _ => not_not.mpr ⟨hfails, hroom⟩
  rw [Vm.kinit, PanicM.returns_update_bind]
  refine hmake.mono ?_
  rintro kpgtbl s ⟨stack, f, o, h, hstack, hbase⟩
  have howner : ∀ i, o (stack i) = some (.kstack i) := fun i => (h.kstack i _).mpr ⟨trivial, rfl⟩
  have hmap : ∀ w pa fl, w < maxva / 4096 →
      (s.mem.meaning kpgtbl w = some (pa, fl) ↔ KernelMaps L stack w pa fl) :=
    fun w pa fl hw => h.meaning hstack hbase hw
  refine ⟨stack, fun i j hij => ?_, fun i => ?_, hmap,
    fun w pa fl hw hm => ((hmap w pa fl hw).mp hm).flags, fun i => ?_⟩
  · have := howner j
    rw [← hij, howner i] at this
    cases this
    rfl
  · obtain ⟨hd, hheap, hlt, -⟩ := (h.inv.owned _).mp ⟨_, howner i⟩
    have := h.inv.aligned
    exact ⟨hd, hheap, by omega, h.zero i trivial⟩
  · have hvpn : (kstackVa i - pgsize) / 4096 = kstackVpn i - 1 := by
      rw [← kstackVa_div]
      simp only [pgsize]
      omega
    have hlt : kstackVpn i - 1 < maxva / 4096 := by
      simp only [kstackVpn, maxva]
      omega
    rw [hvpn]
    cases hm : s.mem.meaning kpgtbl (kstackVpn i - 1) with
    | none => rfl
    | some x => exact absurd ((hmap _ x.1 x.2 hlt).mp hm) (KernelMaps.guard i)

/-- On a machine with 128 MiB there is room. -/
theorem kvmmake_builds_map_virt : Layout.virt.heap + kvmPages .virt * 4096 ≤ Layout.virt.phystop ∧
    (do Vm.kinit .virt; Vm.kvmmake .virt : VmM ℕ).Returns ⟨fun _ => 0, 0, fun _ => false, []⟩
      fun kpgtbl s => s.mem.meaning kpgtbl (kernbase / 4096) =
        some (kernbase, pteR ||| pteX ||| pteV) := by
  have hroom : Layout.virt.heap + kvmPages .virt * 4096 ≤ Layout.virt.phystop := by decide +kernel
  refine ⟨hroom, ?_⟩
  refine (kvmmake_builds_map (L := .virt) _ _ (fun _ => rfl) hroom).mono ?_
  rintro kpgtbl s ⟨stack, -, -, hmap, -⟩
  exact (hmap _ _ _ (by decide)).mpr (.text (by decide) (by decide))

end OsKernel
