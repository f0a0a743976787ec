import OsKernel.Vm.Access
import OsKernel.Vm.UserMemory

/-!
# Copies between user and kernel memory

`copyout`, `copyin` and `copyinstr` on the page tables of processes. Where memory holds page tables
as a map of owners describes them, each of them is a `UserTable`, so that the rules for a single
page table apply: `copyout` writes its source to the writable user addresses from its destination
on, up to the first that is not writable, and changes nothing else; `copyin` reads the user
addresses if all of them are readable. What is written lies in user pages of that table.
-/

namespace OsKernel

variable {L : Layout} {s s' : Vm} {m : Mem} {o : Owners} {r va w : ℕ}

/-- The page table maps the address for the user. -/
def Mem.Readable (m : Mem) (r va : ℕ) : Prop :=
  va < 2 ^ 38 ∧ m.entry r (va / 4096) &&& pteU ≠ 0

/-- The page table maps the address for the user to write. -/
def Mem.Writable (m : Mem) (r va : ℕ) : Prop :=
  m.Readable r va ∧ m.entry r (va / 4096) &&& pteW ≠ 0

instance (m : Mem) (r va : ℕ) : Decidable (m.Readable r va) := inferInstanceAs (Decidable (_ ∧ _))

instance (m : Mem) (r va : ℕ) : Decidable (m.Writable r va) := inferInstanceAs (Decidable (_ ∧ _))

/-- The page of a readable address is a user page. -/
theorem Mem.Readable.owner (h : Tables m o) (hr : o r = some (.table r 2 0))
    (hva : m.Readable r va) :
    o (pte2pa (m.entry r (va / 4096))) = some (.user r (va / 4096)) :=
  (h.user_iff hr (by have := hva.1; omega)).mpr ⟨hva.2, rfl⟩

/-! ### The tables of a process -/

/-- The nodes of the tree of tables are the pages that own their tables. -/
theorem Tables.owner_of_follow (h : Tables m o) (hr : o r = some (.table r 2 0)) :
    ∀ {p : List (Fin 512)} {q : ℕ}, p.length ≤ 2 → follow m.child r p = some q →
      ∃ idx, o q = some (.table r (2 - p.length) idx) := by
  intro p
  induction p with
  | nil =>
    intro q _ hq
    exact ⟨0, Option.some.inj hq ▸ hr⟩
  | cons i p ih =>
    intro q hp hq
    rw [List.length_cons] at hp
    rw [follow, Option.bind_eq_some_iff] at hq
    obtain ⟨a, ha, hq⟩ := hq
    obtain ⟨idx, hidx⟩ := ih (by omega) ha
    rw [show 2 - p.length = 2 - (i :: p).length + 1 by rw [List.length_cons]; omega] at hidx
    rw [Mem.child] at hq
    rcases h.down hidx i.isLt with h0 | ⟨c, hc, he⟩
    · rw [h0, if_pos (Nat.zero_and _)] at hq
      cases hq
    · obtain ⟨hd, -, hlt⟩ := h.page hc
      rw [he, if_neg (tableEntry_valid c), pte2pa_tableEntry hd hlt, Option.some.injEq] at hq
      exact ⟨_, hq ▸ hc⟩

/-- **A page table among those of the kernel is a `UserTable`.** -/
theorem Tables.userTable (h : Tables m o) (hr : o r = some (.table r 2 0)) : UserTable m r := by
  have htable : ∀ q, m.TablePage r q → ∃ l idx, o q = some (.table r l idx) := by
    rintro q ⟨p, hp, hq⟩
    exact ⟨_, h.owner_of_follow hr hp hq⟩
  have huser : ∀ {w q fl}, m.UserPage r w q fl → o q = some (.user r w) := by
    intro w q fl hw
    obtain ⟨hlt, -, hu, rfl, -⟩ := Mem.userPage_iff.mp hw
    exact (h.user_iff hr (by omega)).mpr ⟨hu, rfl⟩
  refine ⟨⟨fun q hq => ?_, fun hw => (h.page (huser hw)).2.1.ne'⟩, (h.page hr).1,
    fun hw hq => ?_, fun hw hw' => ?_⟩
  · obtain ⟨l, idx, ho⟩ := htable q hq
    exact (h.page ho).2.1.ne'
  · obtain ⟨l, idx, ho⟩ := htable _ hq
    rw [huser hw] at ho
    cases ho
  · have ho := huser hw
    rw [huser hw', Option.some.injEq, Role.user.injEq] at ho
    exact ho.2.symm

theorem Tables.loadable_iff (h : Tables m o) (hr : o r = some (.table r 2 0)) :
    m.Loadable r va ↔ m.Readable r va := by
  rw [Mem.loadable_iff, Mem.Readable]
  refine and_congr_right fun hva => ⟨And.right, fun hu => ⟨?_, hu⟩⟩
  rcases h.entry_leaf hr (show va / 4096 < 2 ^ 27 by omega) with h0 | hleaf
  · rw [h0] at hu
    exact absurd (Nat.zero_and _) hu
  · exact hleaf.1

theorem Tables.storable_iff (h : Tables m o) (hr : o r = some (.table r 2 0)) :
    m.Storable r va ↔ m.Writable r va := by
  rw [Mem.storable_iff, h.loadable_iff hr, Mem.Writable]

/-- The page a physical user address lies in. -/
theorem Mem.Readable.page (h : Tables m o) (hr : o r = some (.table r 2 0))
    (hva : m.Readable r va) :
    o (m.phys r va / 4096 * 4096) = some (.user r (va / 4096)) := by
  rw [m.phys_page]
  exact hva.owner h hr

/-- Distinct user addresses have distinct physical addresses. -/
theorem Mem.Readable.phys_inj (h : Tables m o) (hr : o r = some (.table r 2 0)) {va' : ℕ}
    (hva : m.Readable r va) (hva' : m.Readable r va') (heq : m.phys r va = m.phys r va') :
    va = va' :=
  (h.userTable hr).phys_inj ((h.loadable_iff hr).mpr hva) ((h.loadable_iff hr).mpr hva') heq

/-! ### `copyout` -/

/-- Only user pages of `r` differ. -/
def UserWrite (o : Owners) (r : ℕ) (m m' : Mem) : Prop :=
  ∀ a, (∀ w, o (a / 4096 * 4096) ≠ some (.user r w)) → m' a = m a

theorem UserWrite.agreeOn {m m' : Mem} (hm : UserWrite o r m m') {q : ℕ} (hq : 4096 ∣ q)
    (hne : ∀ w, o q ≠ some (.user r w)) : Mem.AgreeOn m m' q 4096 := fun i hi => by
  refine hm _ fun w => ?_
  rw [show (q + i) / 4096 * 4096 = q by omega]
  exact hne w

/-- The roles of the user pages of `r`. -/
def Role.UserOf (r : ℕ) : Role → Prop
  | .user r' _ => r' = r
  | _ => False

/-- **Rule for writes to user pages.** -/
theorem VmInv.userWrite (h : VmInv L s o) {m' : Mem} (hm : UserWrite o r s.mem m') :
    VmInv L { s with mem := m' } o ∧ Frame L (Role.UserOf r) s o { s with mem := m' } o ∧
      ∀ r' w, o r' = some (.table r' 2 0) → w < 2 ^ 27 → m'.entry r' w = s.mem.entry r' w := by
  have hpages : ∀ q ρ, o q = some ρ → ¬ρ.UserOf r → Mem.AgreeOn s.mem m' q 4096 := by
    intro q ρ hq hρ
    refine hm.agreeOn (h.tables.page hq).1 fun w hw => ?_
    rw [hq] at hw
    cases hw
    exact hρ rfl
  have htables : Tables m' o := h.tables.congr h.tables.page (fun _ _ _ _ => Iff.rfl)
    (fun _ _ _ => Iff.rfl) fun q r' l idx hq => hpages q _ hq fun h => h
  refine ⟨h.of_tables htables rfl rfl fun _ => Iff.rfl, ⟨fun _ _ hq _ => hq,
    fun _ _ hq => .inr hq, hpages, fun a ha => hm a fun w hw => ?_, le_rfl,
    fun n hn => ⟨n, hn⟩⟩, fun r' w hr' hw => ?_⟩
  · have := h.heap_le_page hw
    omega
  · exact h.tables.entry_congr htables hr' (fun _ _ _ => Iff.rfl)
      (fun q idx hq => hpages q _ hq fun h => h) hw

/-- The source has `len` bytes, and they are not in user pages of `r`. -/
def Vm.Source.Apart (o : Owners) (r len : ℕ) : Vm.Source → Prop
  | .buffer bytes => len ≤ bytes.length
  | .memory addr => ∀ k w, k < len → o ((addr + k) / 4096 * 4096) ≠ some (.user r w)

theorem Vm.Source.Apart.outside {src : Vm.Source} {len : ℕ} (ha : src.Apart o r len)
    (h : Tables m o) (hr : o r = some (.table r 2 0)) : src.Outside m r len := by
  cases src with
  | buffer bytes => exact ha
  | memory addr =>
    intro k hk va hva heq
    refine ha k (va / 4096) hk ?_
    rw [heq]
    exact ((h.loadable_iff hr).mp hva).page h hr

/-- What a copy of `len` bytes to the user address `dstva` has done: it wrote the first `n`
bytes, and all of them unless it met an address that is not writable. -/
structure CopiedOut (o : Owners) (r : ℕ) (src : Vm.Source) (dstva off len : ℕ) (m : Mem)
    (ok : Bool) (m' : Mem) (n : ℕ) : Prop where
  le : n ≤ len
  ok_iff : ok = true ↔ n = len
  stop : n < len → ¬m.Writable r (dstva + n)
  writable : ∀ k, k < n → m.Writable r (dstva + k)
  frame : ∀ a, (∀ k, k < n → a ≠ m.phys r (dstva + k)) → m' a = m a
  bytes : src.Apart o r (off + len) → ∀ k, k < n → m' (m.phys r (dstva + k)) = src.byte m (off + k)

theorem CopiedOut.userWrite {src : Vm.Source} {dstva off len n : ℕ} {ok : Bool} {m' : Mem}
    (hc : CopiedOut o r src dstva off len s.mem ok m' n) (h : Tables s.mem o)
    (hr : o r = some (.table r 2 0)) : UserWrite o r s.mem m' := by
  intro a ha
  refine hc.frame a fun k hk heq => ha ((dstva + k) / 4096) ?_
  rw [heq]
  exact (hc.writable k hk).1.page h hr

/-- **`copyout`** writes its source to the writable user addresses from `dstva` on. -/
theorem copyout_spec (h : VmInv L s o) (hr : o r = some (.table r 2 0)) (src : Vm.Source)
    (dstva len : ℕ) : (Vm.copyout L r dstva src len).Returns s fun ok s' => ∃ m' n,
      s' = { s with mem := m' } ∧ CopiedOut o r src dstva 0 len s.mem ok m' n := by
  refine ((h.tables.userTable hr).copyout_returns src dstva len).mono ?_
  rintro ok _ ⟨m', n, rfl, hst⟩
  exact ⟨m', n, rfl, hst.le, hst.ok_iff,
    fun hn hW => hst.stop hn ((h.tables.storable_iff hr).mpr hW),
    fun k hk => (h.tables.storable_iff hr).mp (hst.storable k hk), hst.frame,
    fun ha => hst.bytes (ha.outside h.tables hr)⟩

/-! ### `copyin` and `copyinstr` -/

/-- **`copyin`** reads the user addresses from `srcva` on, if all of them are readable. -/
theorem copyin_spec (h : Tables s.mem o) (hr : o r = some (.table r 2 0)) (srcva len : ℕ) :
    (Vm.copyin L r srcva len).Returns s fun res s' => s' = s ∧
      ((∀ k, k < len → s.mem.Readable r (srcva + k)) ∧ res = some (s.mem.userBytes r srcva len) ∨
        (∃ k, k < len ∧ ¬s.mem.Readable r (srcva + k)) ∧ res = none) := by
  simpa only [h.loadable_iff hr] using
    (h.userTable hr).toNonNull.copyin_returns (L := L) srcva len

/-- **`copyinstr`** changes nothing, and the string it returns has no NUL and leaves room for
one. -/
theorem copyinstr_spec (h : Tables s.mem o) (hr : o r = some (.table r 2 0)) (srcva max : ℕ) :
    (Vm.copyinstr L r srcva max).Returns s fun res s' => s' = s ∧
      ∀ str, res = some str → str.length < max ∧ (0 : UInt8) ∉ str := by
  refine ((h.userTable hr).toNonNull.copyinstr_returns srcva max).mono ?_
  rintro res s₁ ⟨hs₁, ⟨k, hk, hstr, rfl⟩ | ⟨-, rfl⟩⟩
  · refine ⟨hs₁, fun str heq => ?_⟩
    obtain rfl := Option.some.inj heq
    exact ⟨by rwa [Mem.length_userBytes], hstr.zero_not_mem⟩
  · exact ⟨hs₁, fun str heq => by cases heq⟩

end OsKernel
