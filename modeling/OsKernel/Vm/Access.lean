import Mathlib.Data.List.TakeWhile
import OsKernel.Vm.Meaning

/-!
# User memory behind a page table

`copyout`, `copyin` and `copyinstr` reach user memory page by page. What they do is said here byte
by byte, for any page table in memory: an address can be loaded from when its page is mapped with
`PTE_U` below `MAXVA`, and stored to when it is mapped with `PTE_W` as well. `copyout` writes its
source up to the first address that cannot be stored to, `copyin` reads the addresses of its range
if all of them can be loaded from, and `copyinstr` finds the first NUL.

Reading needs a table without null pointers, `NonNull`, since `walkaddr` returns a null pointer for
an address that is not mapped. Writing needs a `UserTable`: distinct user pages are distinct in
memory, and none of them is a table. The tables of a process are a `UserTable`.
-/

namespace OsKernel

variable {L : Layout} {s s' : Vm} {m m' : Mem} {o : Owners} {r va w q fl : ℕ}

/-- The physical address of a user address. -/
def Mem.phys (m : Mem) (r va : ℕ) : ℕ := pte2pa (m.entry r (va / 4096)) + va % 4096

/-- The page table at `r` gives the user the physical page `q` at the virtual page `w`, with the
flags `fl`. -/
structure Mem.UserPage (m : Mem) (r w q fl : ℕ) : Prop where
  lt : w < maxva / pgsize
  maps : m.meaning r w = some (q, fl)
  user : fl &&& pteU ≠ 0

/-- The user can load from the address. -/
def Mem.Loadable (m : Mem) (r va : ℕ) : Prop := ∃ q fl, m.UserPage r (va / 4096) q fl

/-- The user can store to the address. -/
def Mem.Storable (m : Mem) (r va : ℕ) : Prop :=
  ∃ q fl, m.UserPage r (va / 4096) q fl ∧ fl &&& pteW ≠ 0

/-- Neither a table nor a user page of the page table at `r` is page 0. -/
structure NonNull (m : Mem) (r : ℕ) : Prop where
  table : ∀ q, m.TablePage r q → q ≠ 0
  page : ∀ {w q fl}, m.UserPage r w q fl → q ≠ 0

/-- Distinct user pages of the page table at `r` are distinct pages of memory, and no tables. -/
structure UserTable (m : Mem) (r : ℕ) : Prop extends NonNull m r where
  aligned : 4096 ∣ r
  apart : ∀ {w q fl}, m.UserPage r w q fl → ¬m.TablePage r q
  inj : ∀ {w w' q fl fl'}, m.UserPage r w q fl → m.UserPage r w' q fl' → w = w'

/-! ### Addresses -/

theorem Mem.userPage_iff : m.UserPage r w q fl ↔ w < 2 ^ 26 ∧ m.entry r w &&& pteV ≠ 0 ∧
    m.entry r w &&& pteU ≠ 0 ∧ q = pte2pa (m.entry r w) ∧ fl = pteFlags (m.entry r w) := by
  have hlt : w < maxva / pgsize ↔ w < 2 ^ 26 := by
    simp only [maxva, pgsize]
    omega
  have hmaps : m.meaning r w = some (q, fl) ↔ m.entry r w &&& pteV ≠ 0 ∧
      q = pte2pa (m.entry r w) ∧ fl = pteFlags (m.entry r w) := by
    rw [Mem.meaning, leafMeaning]
    split_ifs with hv
    · simp [hv]
    · simp [hv, eq_comm]
  constructor
  · rintro ⟨hw, hm, hu⟩
    obtain ⟨hv, rfl, rfl⟩ := hmaps.mp hm
    rw [← and_eq_pteFlags_and (by decide)] at hu
    exact ⟨hlt.mp hw, hv, hu, rfl, rfl⟩
  · rintro ⟨hw, hv, hu, rfl, rfl⟩
    exact ⟨hlt.mpr hw, hmaps.mpr ⟨hv, rfl, rfl⟩, by rwa [← and_eq_pteFlags_and (by decide)]⟩

theorem Mem.loadable_iff : m.Loadable r va ↔ va < 2 ^ 38 ∧
    m.entry r (va / 4096) &&& pteV ≠ 0 ∧ m.entry r (va / 4096) &&& pteU ≠ 0 := by
  simp only [Mem.Loadable, Mem.userPage_iff]
  constructor
  · rintro ⟨q, fl, hlt, hv, hu, -⟩
    exact ⟨by omega, hv, hu⟩
  · rintro ⟨hlt, hv, hu⟩
    exact ⟨_, _, by omega, hv, hu, rfl, rfl⟩

theorem Mem.storable_iff :
    m.Storable r va ↔ m.Loadable r va ∧ m.entry r (va / 4096) &&& pteW ≠ 0 := by
  rw [Mem.loadable_iff]
  simp only [Mem.Storable, Mem.userPage_iff]
  constructor
  · rintro ⟨q, fl, ⟨hlt, hv, hu, -, rfl⟩, hw⟩
    rw [← and_eq_pteFlags_and (by decide)] at hw
    exact ⟨⟨by omega, hv, hu⟩, hw⟩
  · rintro ⟨⟨hlt, hv, hu⟩, hw⟩
    rw [and_eq_pteFlags_and (by decide)] at hw
    exact ⟨_, _, ⟨by omega, hv, hu, rfl, rfl⟩, hw⟩

instance (m : Mem) (r va : ℕ) : Decidable (m.Loadable r va) :=
  decidable_of_iff' _ Mem.loadable_iff

instance (m : Mem) (r va : ℕ) : Decidable (m.Storable r va) :=
  decidable_of_iff' _ Mem.storable_iff

theorem Mem.Storable.loadable (h : m.Storable r va) : m.Loadable r va := (Mem.storable_iff.mp h).1

theorem Mem.Loadable.lt (h : m.Loadable r va) : va < 2 ^ 38 := (Mem.loadable_iff.mp h).1

/-- The page of an address the user can load from. -/
theorem Mem.Loadable.userPage (h : m.Loadable r va) :
    m.UserPage r (va / 4096) (pte2pa (m.entry r (va / 4096)))
      (pteFlags (m.entry r (va / 4096))) := by
  obtain ⟨q, fl, hpage⟩ := h
  obtain ⟨-, -, -, rfl, rfl⟩ := Mem.userPage_iff.mp hpage
  exact hpage

theorem Mem.Loadable.same_page {va' : ℕ} (h : m.Loadable r va) (heq : va' / 4096 = va / 4096) :
    m.Loadable r va' := by
  rw [Mem.Loadable, heq]
  exact h

theorem Mem.Storable.same_page {va' : ℕ} (h : m.Storable r va) (heq : va' / 4096 = va / 4096) :
    m.Storable r va' := by
  rw [Mem.Storable, heq]
  exact h

/-- The page a physical address lies in. -/
theorem Mem.phys_page (m : Mem) (r va : ℕ) :
    m.phys r va / 4096 * 4096 = pte2pa (m.entry r (va / 4096)) := by
  rw [Mem.phys, pte2pa_eq]
  omega

/-- Distinct user addresses have distinct physical addresses. -/
theorem UserTable.phys_inj (h : UserTable m r) {va' : ℕ} (hva : m.Loadable r va)
    (hva' : m.Loadable r va') (heq : m.phys r va = m.phys r va') : va = va' := by
  have hpage := m.phys_page r va
  rw [heq, m.phys_page r va'] at hpage
  have hw := h.inj hva.userPage (hpage ▸ hva'.userPage)
  rw [Mem.phys, Mem.phys, hpage] at heq
  omega

/-- Writes outside the tables keep a page table. -/
theorem UserTable.congr (h : UserTable m r)
    (hm : ∀ q, m.TablePage r q → Mem.AgreeOn m m' q 4096) :
    UserTable m' r ∧ ∀ w, w < 2 ^ 27 → m'.entry r w = m.entry r w := by
  obtain ⟨-, htable, hentry⟩ := Mem.tables_congr fun q hq j => (hm q hq).pte_eq j.isLt
  have hpage : ∀ {w q fl}, m'.UserPage r w q fl → m.UserPage r w q fl := by
    intro w q fl hw
    rw [Mem.userPage_iff] at hw ⊢
    rwa [← hentry w (by omega)]
  exact ⟨⟨⟨fun q hq => h.table q ((htable q).mp hq), fun hw => h.page (hpage hw)⟩, h.aligned,
    fun hw hq => h.apart (hpage hw) ((htable _).mp hq), fun hw hw' => h.inj (hpage hw) (hpage hw')⟩,
    hentry⟩

/-- **Writes to user pages** keep a page table. -/
theorem UserTable.frame (h : UserTable m r)
    (hm : ∀ a, (∀ va, m.Loadable r va → a ≠ m.phys r va) → m' a = m a) :
    UserTable m' r ∧ ∀ w, w < 2 ^ 27 → m'.entry r w = m.entry r w := by
  refine h.congr fun q hq k hk => hm _ fun va hva heq => h.apart hva.userPage ?_
  have hd := Mem.TablePage.aligned h.aligned hq
  have hpage := m.phys_page r va
  rw [← heq, show (q + k) / 4096 * 4096 = q by omega] at hpage
  rwa [← hpage]

section Congr

variable (hentry : ∀ w, w < 2 ^ 27 → m'.entry r w = m.entry r w)
include hentry

theorem Mem.phys_congr (hva : va < 2 ^ 38) : m'.phys r va = m.phys r va := by
  rw [Mem.phys, Mem.phys, hentry _ (by omega)]

theorem Mem.loadable_congr : m'.Loadable r va ↔ m.Loadable r va := by
  rw [Mem.loadable_iff, Mem.loadable_iff]
  exact and_congr_right fun hva => by rw [hentry _ (by omega)]

theorem Mem.storable_congr : m'.Storable r va ↔ m.Storable r va := by
  rw [Mem.storable_iff, Mem.storable_iff, Mem.loadable_congr hentry]
  exact and_congr_right fun hva => by rw [hentry _ (by have := hva.lt; omega)]

end Congr

/-! ### `walkaddr` -/

/-- The second `walk` of `copyout` finds the entry of an address that is mapped. -/
theorem NonNull.walk_eq (h : NonNull s.mem r) (hva : va < 2 ^ 38) :
    (Vm.walk L r va false s = .ok (0, s) ∧ s.mem.entry r (va / 4096) = 0) ∨
      ∃ t, t ≠ 0 ∧ Vm.walk L r va false s = .ok (t, s) ∧
        s.mem.load64 t = s.mem.entry r (va / 4096) := by
  have hv : va / 4096 < 2 ^ 27 := by omega
  rw [walk_false_eq hva]
  cases ht : follow s.mem.child r (tablePath (va / 4096)) with
  | none => exact .inl ⟨rfl, Mem.entry_of_follow_none hv ht⟩
  | some t =>
    have ht0 : t ≠ 0 := h.table t ⟨_, by simp [tablePath], ht⟩
    refine .inr ⟨t + 8 * (vpx 0 (va / 4096) : ℕ), ?_, rfl, (Mem.entry_of_follow hv ht).symm⟩
    omega

/-- **`walkaddr`** returns the page of an address the user can load from, and `0` for any
other. -/
theorem NonNull.walkaddr_eq (h : NonNull s.mem r) : Vm.walkaddr L r va s = .ok
    (if s.mem.Loadable r va then pte2pa (s.mem.entry r (va / 4096)) else 0, s) := by
  by_cases hva : va < 2 ^ 38
  swap
  · rw [if_neg fun hR => hva hR.lt, Vm.walkaddr, if_pos (by simp only [maxva]; omega)]
    rfl
  rw [Vm.walkaddr, if_neg (not_maxva_le hva)]
  simp only [Mem.loadable_iff, hva, true_and]
  rcases h.walk_eq (L := L) hva with ⟨hw, h0⟩ | ⟨t, ht0, hw, hload⟩
  · rw [PanicM.bind_of_ok hw, if_pos rfl, h0, if_neg (by simp)]
    rfl
  · rw [PanicM.bind_of_ok hw, if_neg ht0]
    simp only [Vm.load, PanicM.read_bind_apply, hload]
    by_cases hv : s.mem.entry r (va / 4096) &&& pteV = 0
    · rw [if_pos hv, if_neg fun h => h.1 hv]
      rfl
    · by_cases hu : s.mem.entry r (va / 4096) &&& pteU = 0
      · rw [if_neg hv, if_pos hu, if_neg fun h => h.2 hu]
        rfl
      · rw [if_neg hv, if_neg hu, if_pos ⟨hv, hu⟩]
        rfl

/-! ### A round of a copy -/

/-- What a round of a copy of `len` bytes at `va` covers: it stays in the page of `va`, and the
next round begins where it stops. -/
structure Round (va len n next : ℕ) : Prop where
  pos : 0 < n
  le : n ≤ len
  page : va % 4096 + n ≤ 4096
  next_eq : n < len → next = va + n

theorem round_of_lt {len : ℕ} (hva : va < 2 ^ 38) (hlen : 0 < len) :
    Round va len (min (pgsize - (va - pgRoundDown va)) len)
      ((pgRoundDown va + pgsize) % wordSize) := by
  have hoff : pgsize - (va - pgRoundDown va) = 4096 - va % 4096 := by
    simp only [pgsize, pgRoundDown]
    omega
  have hnext : (pgRoundDown va + pgsize) % wordSize = va / 4096 * 4096 + 4096 := by
    simp only [pgsize, pgRoundDown, wordSize]
    omega
  rw [hoff, hnext]
  exact ⟨by omega, by omega, by omega, fun h => by omega⟩

theorem Round.same_page {len n next k : ℕ} (h : Round va len n next) (hk : k < n) :
    (va + k) / 4096 = va / 4096 := by
  have := h.page
  omega

/-- The bytes of a round are consecutive in memory. -/
theorem Round.phys {len n next k : ℕ} (h : Round va len n next) (hk : k < n) :
    m.phys r (va + k) = pte2pa (m.entry r (va / 4096)) + (va - pgRoundDown va) + k := by
  have := h.page
  have hd : va - pgRoundDown va = va % 4096 := by
    simp only [pgRoundDown, pgsize]
    omega
  rw [Mem.phys, h.same_page hk, hd]
  omega

theorem pgRoundDown_div (va : ℕ) : pgRoundDown va / 4096 = va / 4096 := by
  simp only [pgRoundDown, pgsize]
  omega

/-- `walkaddr` at the beginning of a round. -/
theorem NonNull.walkaddr_round (h : NonNull s.mem r) : Vm.walkaddr L r (pgRoundDown va) s = .ok
    (if s.mem.Loadable r va then pte2pa (s.mem.entry r (va / 4096)) else 0, s) := by
  rw [h.walkaddr_eq, pgRoundDown_div]
  refine congrArg (fun x => Except.ok (x, s)) (if_congr ?_ rfl rfl)
  exact ⟨fun hl => hl.same_page (pgRoundDown_div va).symm,
    fun hl => hl.same_page (pgRoundDown_div va)⟩

/-! ### `copyin` and `copyinstr` -/

/-- The bytes at the user addresses from `va` on. -/
def Mem.userBytes (m : Mem) (r va n : ℕ) : List UInt8 :=
  (List.range n).map fun k => m (m.phys r (va + k))

@[simp] theorem Mem.length_userBytes (m : Mem) (r va n : ℕ) : (m.userBytes r va n).length = n := by
  simp [Mem.userBytes]

@[simp] theorem Mem.userBytes_zero (m : Mem) (r va : ℕ) : m.userBytes r va 0 = [] := rfl

theorem Mem.userBytes_add (m : Mem) (r va n k : ℕ) :
    m.userBytes r va (n + k) = m.userBytes r va n ++ m.userBytes r (va + n) k := by
  simp [Mem.userBytes, List.range_add, Nat.add_assoc]

/-- The bytes of a round. -/
theorem Round.userBytes {len n next : ℕ} (h : Round va len n next) (m : Mem) (r : ℕ) :
    m.readBytes (pte2pa (m.entry r (va / 4096)) + (va - pgRoundDown va)) n =
      m.userBytes r va n := by
  rw [Mem.userBytes, Mem.readBytes, List.map_inj_left]
  intro k hk
  rw [h.phys (List.mem_range.mp hk)]

/-- The bytes of a round and of the rest. -/
theorem Round.userBytes_append {len n next : ℕ} (h : Round va len n next) (m : Mem) (r : ℕ) :
    m.userBytes r va n ++ m.userBytes r next (len - n) = m.userBytes r va len := by
  have hle := h.le
  rcases Nat.lt_or_ge n len with hlt | hge
  · rw [h.next_eq hlt, ← Mem.userBytes_add, Nat.add_sub_cancel' hle]
  · rw [show len - n = 0 by omega, Mem.userBytes_zero, List.append_nil, show n = len by omega]

/-- The loop of `copyin`. -/
theorem NonNull.copyinLoop_returns (h : NonNull s.mem r) : ∀ fuel srcva len dst, len ≤ fuel →
    (Vm.copyinLoop L r fuel srcva len dst).Returns s fun res s' => s' = s ∧
      ((∀ k, k < len → s.mem.Loadable r (srcva + k)) ∧
          res = some (dst ++ s.mem.userBytes r srcva len) ∨
        (∃ k, k < len ∧ ¬s.mem.Loadable r (srcva + k)) ∧ res = none) := by
  intro fuel
  induction fuel with
  | zero =>
    intro srcva len dst hfuel
    obtain rfl : len = 0 := by omega
    rw [Vm.copyinLoop, if_neg (by omega), PanicM.returns_pure]
    exact ⟨rfl, .inl ⟨by omega, by simp⟩⟩
  | succ fuel ih =>
    intro srcva len dst hfuel
    rw [Vm.copyinLoop]
    by_cases hlen : 0 < len
    swap
    · obtain rfl : len = 0 := by omega
      rw [if_neg hlen, PanicM.returns_pure]
      exact ⟨rfl, .inl ⟨by omega, by simp⟩⟩
    rw [if_pos hlen, PanicM.returns_bind_of_ok h.walkaddr_round]
    by_cases hR : s.mem.Loadable r srcva
    swap
    · rw [if_neg hR, if_pos rfl, PanicM.returns_pure]
      exact ⟨rfl, .inr ⟨⟨0, hlen, hR⟩, rfl⟩⟩
    have hround := round_of_lt hR.lt hlen
    rw [if_pos hR, if_neg (h.page hR.userPage), PanicM.returns_read_bind, hround.userBytes]
    -- `Round` says all that matters of the bytes in this page and of the next address
    revert hround
    generalize min (pgsize - (srcva - pgRoundDown srcva)) len = n
    generalize (pgRoundDown srcva + pgsize) % wordSize = next
    intro hround
    have hpos := hround.pos
    have hle := hround.le
    have hfirst : ∀ k, k < n → s.mem.Loadable r (srcva + k) := fun k hk =>
      hR.same_page (hround.same_page hk)
    refine (ih next (len - n) (dst ++ s.mem.userBytes r srcva n) (by omega)).mono ?_
    rintro res s₁ ⟨hs₁, ⟨hall, rfl⟩ | ⟨⟨k, hk, hno⟩, rfl⟩⟩
    · refine ⟨hs₁, .inl ⟨fun k hk => ?_, by rw [List.append_assoc, hround.userBytes_append]⟩⟩
      rcases Nat.lt_or_ge k n with hlt | hge
      · exact hfirst k hlt
      · have := hall (k - n) (by omega)
        rwa [hround.next_eq (by omega), Nat.add_assoc, Nat.add_sub_cancel' hge] at this
    · refine ⟨hs₁, .inr ⟨⟨n + k, by omega, ?_⟩, rfl⟩⟩
      rwa [← Nat.add_assoc, ← hround.next_eq (by omega)]

/-- **`copyin`** reads the user addresses from `srcva` on, if it can load from all of them. -/
theorem NonNull.copyin_returns (h : NonNull s.mem r) (srcva len : ℕ) :
    (Vm.copyin L r srcva len).Returns s fun res s' => s' = s ∧
      ((∀ k, k < len → s.mem.Loadable r (srcva + k)) ∧ res = some (s.mem.userBytes r srcva len) ∨
        (∃ k, k < len ∧ ¬s.mem.Loadable r (srcva + k)) ∧ res = none) := by
  rw [Vm.copyin]
  simpa using h.copyinLoop_returns (L := L) len srcva len [] le_rfl

/-- A string of length `k` lies at the user address `va`: the user can load from its bytes and from
the NUL, and the NUL is the first one. -/
structure Mem.StringAt (m : Mem) (r va k : ℕ) : Prop where
  loadable : ∀ j, j ≤ k → m.Loadable r (va + j)
  nul : m (m.phys r (va + k)) = 0
  bytes : ∀ j, j < k → m (m.phys r (va + j)) ≠ 0

theorem Mem.StringAt.unique {k k' : ℕ} (h : m.StringAt r va k) (h' : m.StringAt r va k') :
    k = k' := by
  rcases Nat.lt_trichotomy k k' with hlt | heq | hgt
  · exact absurd h.nul (h'.bytes k hlt)
  · exact heq
  · exact absurd h'.nul (h.bytes k' hgt)

theorem Mem.StringAt.zero_not_mem {k : ℕ} (h : m.StringAt r va k) :
    (0 : UInt8) ∉ m.userBytes r va k := by
  intro hmem
  obtain ⟨j, hj, h0⟩ := List.mem_map.mp hmem
  exact h.bytes j (List.mem_range.mp hj) h0

/-- A string that does not end in a round goes on behind it. -/
theorem Round.stringAt {len n next k : ℕ} (h : Round va len n next) (hn : n < len)
    (hfirst : ∀ j, j < n → m.Loadable r (va + j) ∧ m (m.phys r (va + j)) ≠ 0) :
    m.StringAt r next k ↔ m.StringAt r va (n + k) := by
  rw [h.next_eq hn]
  have hshift : ∀ {j}, n ≤ j → va + n + (j - n) = va + j := fun hj => by omega
  constructor
  · rintro ⟨hl, h0, hb⟩
    refine ⟨fun j hj => ?_, by rw [← Nat.add_assoc, h0], fun j hj => ?_⟩
    · rcases Nat.lt_or_ge j n with hlt | hge
      · exact (hfirst j hlt).1
      · have := hl (j - n) (by omega)
        rwa [hshift hge] at this
    · rcases Nat.lt_or_ge j n with hlt | hge
      · exact (hfirst j hlt).2
      · have := hb (j - n) (by omega)
        rwa [hshift hge] at this
  · rintro ⟨hl, h0, hb⟩
    refine ⟨fun j hj => ?_, by rw [Nat.add_assoc, h0], fun j hj => ?_⟩
    · rw [Nat.add_assoc]
      exact hl (n + j) (by omega)
    · rw [Nat.add_assoc]
      exact hb (n + j) (by omega)

/-- The first NUL among the bytes of a range the user can load from. -/
theorem exists_stringAt {n : ℕ} (hall : ∀ j, j < n → m.Loadable r (va + j))
    (hmem : (0 : UInt8) ∈ m.userBytes r va n) : ∃ k, k < n ∧ m.StringAt r va k ∧
      (m.userBytes r va n).takeWhile (· ≠ 0) = m.userBytes r va k := by
  induction n generalizing va with
  | zero => simp at hmem
  | succ n ih =>
    rw [show n + 1 = 1 + n by omega, Mem.userBytes_add] at hmem ⊢
    have hone : m.userBytes r va 1 = [m (m.phys r va)] := rfl
    rw [hone, List.singleton_append] at hmem ⊢
    by_cases h0 : m (m.phys r va) = 0
    · refine ⟨0, by omega, ⟨fun j hj => ?_, h0, by omega⟩, by simp [h0]⟩
      exact hall j (by omega)
    · have hrest : (0 : UInt8) ∈ m.userBytes r (va + 1) n :=
        (List.mem_cons.mp hmem).resolve_left (Ne.symm h0)
      have hall' : ∀ j, j < n → m.Loadable r (va + 1 + j) := by
        intro j hj
        rw [Nat.add_assoc]
        exact hall (1 + j) (by omega)
      obtain ⟨k, hk, hstr, heq⟩ := ih hall' hrest
      refine ⟨1 + k, by omega, ⟨fun j hj => hall j (by omega), ?_, fun j hj => ?_⟩, ?_⟩
      · rw [← Nat.add_assoc]
        exact hstr.nul
      · rcases Nat.eq_zero_or_pos j with rfl | hj0
        · exact h0
        · have := hstr.bytes (j - 1) (by omega)
          rwa [show va + 1 + (j - 1) = va + j by omega] at this
      · rw [List.takeWhile_cons_of_pos (by simpa using h0), heq, Mem.userBytes_add, hone,
          List.singleton_append]

/-- The loop of `copyinstr`. -/
theorem NonNull.copyinstrLoop_returns (h : NonNull s.mem r) : ∀ fuel srcva max dst, max ≤ fuel →
    (Vm.copyinstrLoop L r fuel srcva max dst).Returns s fun res s' => s' = s ∧
      ((∃ k, k < max ∧ s.mem.StringAt r srcva k ∧ res = some (dst ++ s.mem.userBytes r srcva k)) ∨
        (∀ k, k < max → ¬s.mem.StringAt r srcva k) ∧ res = none) := by
  intro fuel
  induction fuel with
  | zero =>
    intro srcva max dst hfuel
    rw [Vm.copyinstrLoop, if_neg (by omega), PanicM.returns_pure]
    exact ⟨rfl, .inr ⟨by omega, rfl⟩⟩
  | succ fuel ih =>
    intro srcva max dst hfuel
    rw [Vm.copyinstrLoop]
    by_cases hmax : 0 < max
    swap
    · rw [if_neg hmax, PanicM.returns_pure]
      exact ⟨rfl, .inr ⟨by omega, rfl⟩⟩
    rw [if_pos hmax, PanicM.returns_bind_of_ok h.walkaddr_round]
    by_cases hR : s.mem.Loadable r srcva
    swap
    · rw [if_neg hR, if_pos rfl, PanicM.returns_pure]
      exact ⟨rfl, .inr ⟨fun k _ hk => hR (hk.loadable 0 (Nat.zero_le k)), rfl⟩⟩
    have hround := round_of_lt hR.lt hmax
    rw [if_pos hR, if_neg (h.page hR.userPage), PanicM.returns_read_bind, hround.userBytes]
    revert hround
    generalize min (pgsize - (srcva - pgRoundDown srcva)) max = n
    generalize (pgRoundDown srcva + pgsize) % wordSize = next
    intro hround
    have hpos := hround.pos
    have hle := hround.le
    have hfirst : ∀ j, j < n → s.mem.Loadable r (srcva + j) := fun j hj =>
      hR.same_page (hround.same_page hj)
    by_cases hzero : (0 : UInt8) ∈ s.mem.userBytes r srcva n
    · -- the string ends in this page
      obtain ⟨k, hk, hstr, heq⟩ := exists_stringAt hfirst hzero
      rw [if_pos hzero, PanicM.returns_pure, heq]
      exact ⟨rfl, .inl ⟨k, by omega, hstr, rfl⟩⟩
    · have hbytes : ∀ j, j < n → s.mem (s.mem.phys r (srcva + j)) ≠ 0 := fun j hj h0 =>
        hzero (List.mem_map.mpr ⟨j, List.mem_range.mpr hj, h0⟩)
      have hnot : ∀ k, k < n → ¬s.mem.StringAt r srcva k := fun k hk hstr =>
        hbytes k hk hstr.nul
      rw [if_neg hzero]
      refine (ih next (max - n) (dst ++ s.mem.userBytes r srcva n) (by omega)).mono ?_
      rintro res s₁ ⟨hs₁, ⟨k, hk, hstr, rfl⟩ | ⟨hno, rfl⟩⟩
      · have hlt : n < max := by omega
        rw [hround.stringAt hlt fun j hj => ⟨hfirst j hj, hbytes j hj⟩] at hstr
        refine ⟨hs₁, .inl ⟨n + k, by omega, hstr, ?_⟩⟩
        rw [List.append_assoc, hround.next_eq hlt, ← Mem.userBytes_add]
      · refine ⟨hs₁, .inr ⟨fun k hk hstr => ?_, rfl⟩⟩
        rcases Nat.lt_or_ge k n with hlt | hge
        · exact hnot k hlt hstr
        · refine hno (k - n) (by omega) ?_
          rw [hround.stringAt (by omega) fun j hj => ⟨hfirst j hj, hbytes j hj⟩,
            Nat.add_sub_cancel' hge]
          exact hstr

/-- **`copyinstr`** returns the string at `srcva` if it and its NUL fit into `max` bytes. -/
theorem NonNull.copyinstr_returns (h : NonNull s.mem r) (srcva max : ℕ) :
    (Vm.copyinstr L r srcva max).Returns s fun res s' => s' = s ∧
      ((∃ k, k < max ∧ s.mem.StringAt r srcva k ∧ res = some (s.mem.userBytes r srcva k)) ∨
        (∀ k, k < max → ¬s.mem.StringAt r srcva k) ∧ res = none) := by
  rw [Vm.copyinstr]
  simpa using h.copyinstrLoop_returns (L := L) max srcva max [] le_rfl

/-! ### `copyout` -/

/-- Byte `k` of the kernel side of a copy. -/
def Vm.Source.byte (m : Mem) : Vm.Source → ℕ → UInt8
  | .buffer bytes, k => bytes.getD k 0
  | .memory addr, k => m (addr + k)

/-- The source has `len` bytes, and they are not in the user pages of `r`. -/
def Vm.Source.Outside (m : Mem) (r len : ℕ) : Vm.Source → Prop
  | .buffer bytes => len ≤ bytes.length
  | .memory addr => ∀ k, k < len → ∀ va, m.Loadable r va → addr + k ≠ m.phys r va

theorem moveFrom_eq (dst : ℕ) (src : Vm.Source) (off n : ℕ) (s : Vm) :
    Vm.moveFrom dst src off n s =
      .ok ((), { s with mem := s.mem.writeBytes dst (src.read s.mem off n) }) := by
  cases src with
  | buffer bytes => rfl
  | memory addr =>
    simp only [Vm.moveFrom, Vm.memmove, PanicM.update_apply, Mem.memmove_eq_writeBytes,
      Vm.Source.read]

theorem Vm.Source.length_read_le (src : Vm.Source) (m : Mem) (off n : ℕ) :
    (src.read m off n).length ≤ n := by
  cases src with
  | buffer bytes => exact (List.length_take_le _ _)
  | memory addr => simp [Vm.Source.read]

theorem Vm.Source.getElem?_read {src : Vm.Source} {off n len k : ℕ} (h : src.Outside m r len)
    (hlen : off + n ≤ len) (hk : k < n) :
    (src.read m off n)[k]? = some (src.byte m (off + k)) := by
  cases src with
  | buffer bytes =>
    have hb : off + k < bytes.length := by
      have : len ≤ bytes.length := h
      omega
    simp [Vm.Source.read, Vm.Source.byte, hk, hb]
  | memory addr =>
    rw [Vm.Source.read, Mem.getElem?_readBytes hk, Vm.Source.byte, Nat.add_assoc]

/-- What a copy of `len` bytes to the user address `dstva` has done: it wrote the first `n`
bytes, and all of them unless it met an address it could not store to. -/
structure Stored (r : ℕ) (src : Vm.Source) (dstva off len : ℕ) (m : Mem) (ok : Bool) (m' : Mem)
    (n : ℕ) : Prop where
  le : n ≤ len
  ok_iff : ok = true ↔ n = len
  stop : n < len → ¬m.Storable r (dstva + n)
  storable : ∀ k, k < n → m.Storable r (dstva + k)
  frame : ∀ a, (∀ k, k < n → a ≠ m.phys r (dstva + k)) → m' a = m a
  bytes : src.Outside m r (off + len) →
    ∀ k, k < n → m' (m.phys r (dstva + k)) = src.byte m (off + k)

theorem Stored.nothing {src : Vm.Source} {dstva off : ℕ} (m : Mem) :
    Stored r src dstva off 0 m true m 0 :=
  ⟨le_rfl, by simp, by omega, by omega, fun _ _ => rfl, by omega⟩

theorem Stored.refused {src : Vm.Source} {dstva off len : ℕ} (hlen : 0 < len)
    (hno : ¬m.Storable r dstva) : Stored r src dstva off len m false m 0 :=
  ⟨by omega, by simp; omega, fun _ => hno, by omega, fun _ _ => rfl, by omega⟩

/-- Everything a copy writes is in user pages. -/
theorem Stored.user {src : Vm.Source} {dstva off len n : ℕ} {ok : Bool}
    (h : Stored r src dstva off len m ok m' n) (a : ℕ)
    (ha : ∀ va, m.Loadable r va → a ≠ m.phys r va) : m' a = m a :=
  h.frame a fun k hk => ha _ (h.storable k hk).loadable

/-- What a round writes. -/
theorem Round.stored {src : Vm.Source} {dstva off len n next : ℕ} (h : Round dstva len n next)
    (hW : m.Storable r dstva) :
    Stored r src dstva off n m true (m.writeBytes
      (pte2pa (m.entry r (dstva / 4096)) + (dstva - pgRoundDown dstva)) (src.read m off n)) n := by
  have hread := src.length_read_le m off n
  refine ⟨le_rfl, by simp, by omega, fun k hk => hW.same_page (h.same_page hk), fun a ha => ?_,
    fun hsrc k hk => ?_⟩
  · rcases Nat.lt_or_ge a (pte2pa (m.entry r (dstva / 4096)) + (dstva - pgRoundDown dstva)) with
      hlt | hge
    · exact Mem.writeBytes_of_lt hlt
    · refine Mem.writeBytes_of_ge ?_
      by_contra hin
      have := ha (a - (pte2pa (m.entry r (dstva / 4096)) + (dstva - pgRoundDown dstva))) (by omega)
      rw [h.phys (by omega)] at this
      omega
  · rw [h.phys hk, Mem.writeBytes_add (Vm.Source.getElem?_read hsrc le_rfl hk)]

/-- A round and the rest of a copy. -/
theorem Stored.append {src : Vm.Source} {dstva off len n n' next : ℕ} {ok : Bool} {m'' : Mem}
    (h : UserTable m r) (hround : Round dstva len n next)
    (h₁ : Stored r src dstva off n m true m' n)
    (h₂ : Stored r src next (off + n) (len - n) m' ok m'' n') :
    Stored r src dstva off len m ok m'' (n + n') := by
  have hle := hround.le
  have hle' := h₂.le
  have hentry := (h.frame h₁.user).2
  -- an address of the rest, seen from the beginning
  have hva : ∀ k, n ≤ k → k < n + n' → dstva + k = next + (k - n) := fun k hlo hhi => by
    rw [hround.next_eq (by omega)]
    omega
  have hlater : ∀ k, n ≤ k → k < n + n' → m.Storable r (dstva + k) := by
    intro k hlo hhi
    rw [hva k hlo hhi]
    exact (Mem.storable_congr hentry).mp (h₂.storable (k - n) (by omega))
  have hstorable : ∀ k, k < n + n' → m.Storable r (dstva + k) := by
    intro k hk
    rcases Nat.lt_or_ge k n with hlt | hge
    · exact h₁.storable k hlt
    · exact hlater k hge hk
  have hphys : ∀ k, k < n' → m'.phys r (next + k) = m.phys r (dstva + (n + k)) := by
    intro k hk
    rw [Mem.phys_congr hentry (h₂.storable k hk).loadable.lt, hva (n + k) (by omega) (by omega),
      Nat.add_sub_cancel_left]
  -- no byte is written twice: different addresses have different places
  have hdisj : ∀ k j, k < n → j < n' → m.phys r (dstva + k) ≠ m'.phys r (next + j) := by
    intro k j hk hj heq
    rw [hphys j hj] at heq
    have := h.phys_inj (h₁.storable k hk).loadable (hstorable (n + j) (by omega)).loadable heq
    omega
  constructor
  case le => omega
  case ok_iff =>
    rw [h₂.ok_iff]
    omega
  case stop =>
    intro hlt hW
    refine h₂.stop (by omega) ((Mem.storable_congr hentry).mpr ?_)
    rwa [hround.next_eq (by omega), Nat.add_assoc]
  case storable => exact hstorable
  case frame =>
    intro a ha
    refine (h₂.frame a fun k hk heq => ?_).trans (h₁.frame a fun k hk => ha k (by omega))
    exact ha (n + k) (by omega) (heq.trans (hphys k hk))
  case bytes =>
    intro hsrc k hk
    rcases Nat.lt_or_ge k n with hlt | hge
    · rw [h₂.frame _ fun j hj => hdisj k j hlt hj]
      refine h₁.bytes ?_ k hlt
      cases src with
      | buffer bytes => exact le_trans (by omega) hsrc
      | memory addr => exact fun j hj => hsrc j (by omega)
    · have hsrc' : src.Outside m' r (off + n + (len - n)) := by
        rw [Nat.add_assoc, Nat.add_sub_cancel' hle]
        cases src with
        | buffer bytes => exact hsrc
        | memory addr =>
          intro j hj va hva
          rw [Mem.loadable_congr hentry] at hva
          rw [Mem.phys_congr hentry hva.lt]
          exact hsrc j hj va hva
      have hbyte := h₂.bytes hsrc' (k - n) (by omega)
      rw [hphys _ (by omega), show n + (k - n) = k by omega,
        show off + n + (k - n) = off + k by omega] at hbyte
      rw [hbyte]
      cases src with
      | buffer bytes => rfl
      | memory addr => exact h₁.user _ fun va hva => hsrc (off + k) (by omega) va hva

/-- The loop of `copyout`. -/
theorem UserTable.copyoutLoop_returns {src : Vm.Source} : ∀ fuel s dstva off len, len ≤ fuel →
    UserTable s.mem r → (Vm.copyoutLoop L r src fuel dstva off len).Returns s fun ok s' =>
      ∃ m' n, s' = { s with mem := m' } ∧ Stored r src dstva off len s.mem ok m' n := by
  intro fuel
  induction fuel with
  | zero =>
    intro s dstva off len hfuel h
    obtain rfl : len = 0 := by omega
    rw [Vm.copyoutLoop, if_neg (by omega), PanicM.returns_pure]
    exact ⟨s.mem, 0, rfl, .nothing _⟩
  | succ fuel ih =>
    intro s dstva off len hfuel h
    rw [Vm.copyoutLoop]
    by_cases hlen : 0 < len
    swap
    · obtain rfl : len = 0 := by omega
      rw [if_neg hlen, PanicM.returns_pure]
      exact ⟨s.mem, 0, rfl, .nothing _⟩
    have hstop : ¬s.mem.Storable r dstva → ∃ m' n, s = { s with mem := m' } ∧
        Stored r src dstva off len s.mem false m' n := fun hW => ⟨s.mem, 0, rfl, .refused hlen hW⟩
    rw [if_pos hlen]
    by_cases hmax : maxva ≤ pgRoundDown dstva
    · rw [if_pos hmax, PanicM.returns_pure]
      refine hstop fun hW => ?_
      have := hW.loadable.lt
      simp only [maxva, pgRoundDown, pgsize] at hmax
      omega
    rw [if_neg hmax, PanicM.returns_bind_of_ok h.walkaddr_round]
    by_cases hR : s.mem.Loadable r dstva
    swap
    · rw [if_neg hR, if_pos rfl, PanicM.returns_pure]
      exact hstop fun hW => hR hW.loadable
    rw [if_pos hR, if_neg (h.page hR.userPage)]
    -- the second walk finds the entry again
    have hlt : pgRoundDown dstva < 2 ^ 38 := by
      simp only [maxva] at hmax
      omega
    rcases h.walk_eq (L := L) hlt with ⟨-, h0⟩ | ⟨t, -, hw, hload⟩
    · rw [pgRoundDown_div] at h0
      exact absurd (by rw [h0, Nat.zero_and]) (Mem.loadable_iff.mp hR).2.1
    rw [pgRoundDown_div] at hload
    rw [PanicM.returns_bind_of_ok hw]
    simp only [Vm.load, PanicM.returns_read_bind, hload]
    by_cases hW : s.mem.entry r (dstva / 4096) &&& pteW = 0
    · rw [if_pos hW, PanicM.returns_pure]
      exact hstop fun hst => (Mem.storable_iff.mp hst).2 hW
    have hround := round_of_lt hR.lt hlen
    rw [if_neg hW, PanicM.returns_bind_of_ok (moveFrom_eq _ _ _ _ s)]
    revert hround
    generalize min (pgsize - (dstva - pgRoundDown dstva)) len = n
    generalize (pgRoundDown dstva + pgsize) % wordSize = next
    intro hround
    have hfirst : Stored r src dstva off n s.mem true _ n :=
      hround.stored (Mem.storable_iff.mpr ⟨hR, hW⟩)
    have hpos := hround.pos
    refine (ih { s with mem := _ } next (off + n) (len - n) (by omega)
      (h.frame hfirst.user).1).mono ?_
    rintro ok s₂ ⟨m₂, n₂, rfl, hrest⟩
    exact ⟨m₂, n + n₂, rfl, hfirst.append h hround hrest⟩

/-- **`copyout`** writes its source to the user addresses from `dstva` on, up to the first it
cannot store to. -/
theorem UserTable.copyout_returns (h : UserTable s.mem r) (src : Vm.Source) (dstva len : ℕ) :
    (Vm.copyout L r dstva src len).Returns s fun ok s' => ∃ m' n,
      s' = { s with mem := m' } ∧ Stored r src dstva 0 len s.mem ok m' n :=
  UserTable.copyoutLoop_returns len s dstva 0 len le_rfl h

/-! ### Copies as accesses byte by byte -/

theorem WellFormed.userTable (h : WellFormed m r)
    (hpage : ∀ w q fl, m.UserPage r w q fl → q ≠ 0)
    (hinj : ∀ w w' q fl fl', m.UserPage r w q fl → m.UserPage r w' q fl' → w = w') :
    UserTable m r := by
  refine ⟨⟨h.ne_zero, hpage _ _ _⟩, h.aligned, fun {w q fl} hw hq => h.data q hq ?_,
    hinj _ _ _ _ _⟩
  have hlt := hw.lt
  simp only [maxva, pgsize] at hlt
  exact Mem.dataPage_iff.mpr ⟨w, fl, by omega, hw.maps⟩

/-- What was stored is what is loaded afterwards. -/
theorem Stored.userBytes {src : Vm.Source} {dstva len : ℕ} (h : UserTable m r)
    (hst : Stored r src dstva 0 len m true m' len) (hsrc : src.Outside m r len) :
    m'.userBytes r dstva len = (List.range len).map (src.byte m) := by
  have hentry := (h.frame hst.user).2
  rw [Mem.userBytes, List.map_inj_left]
  intro k hk
  rw [List.mem_range] at hk
  rw [Mem.phys_congr hentry (hst.storable k hk).loadable.lt, hst.bytes (by rwa [Nat.zero_add]) k hk,
    Nat.zero_add]

/-- **`copyout` and `copyin` are accesses byte by byte.** On a well-formed page table whose user
pages are distinct pages of memory other than page 0, `copyout` of a kernel buffer outside the user
pages succeeds exactly if the user can store to all of the range, and then replaces its bytes and
no others; otherwise it has changed at most the bytes before the first it cannot store to. `copyin`
succeeds exactly if the user can load from all of the range, and then returns its bytes. So `copyin`
returns what a successful `copyout` has written. -/
theorem copies_are_bytewise (h : WellFormed s.mem r)
    (hpage : ∀ w q fl, s.mem.UserPage r w q fl → q ≠ 0)
    (hinj : ∀ w w' q fl fl', s.mem.UserPage r w q fl → s.mem.UserPage r w' q fl' → w = w') :
    (∀ a len src, src.Outside s.mem r len →
      (Vm.copyout L r a src len).Returns s fun ok s' => ∃ m', s' = { s with mem := m' } ∧
        (ok = true ↔ ∀ k, k < len → s.mem.Storable r (a + k)) ∧
        (ok = true → (∀ k, k < len → m' (s.mem.phys r (a + k)) = src.byte s.mem k) ∧
          ∀ x, (∀ k, k < len → x ≠ s.mem.phys r (a + k)) → m' x = s.mem x) ∧
        (ok = false → ∀ x, (∀ k, k < len → (∀ j, j ≤ k → s.mem.Storable r (a + j)) →
          x ≠ s.mem.phys r (a + k)) → m' x = s.mem x) ∧
        (ok = true → Vm.copyin L r a len s' =
          .ok (some ((List.range len).map (src.byte s.mem)), s'))) ∧
    (∀ a len, (Vm.copyin L r a len).Returns s fun dst s' => s' = s ∧
      (dst.isSome ↔ ∀ k, k < len → s.mem.Loadable r (a + k)) ∧
      ∀ bytes, dst = some bytes → bytes = s.mem.userBytes r a len) := by
  have htable := h.userTable hpage hinj
  constructor
  · intro a len src hsrc
    refine (htable.copyout_returns src a len).mono ?_
    rintro ok _ ⟨m', n, rfl, hst⟩
    refine ⟨m', rfl, ?_, fun hok => ⟨fun k hk => ?_, fun x hx => ?_⟩, fun hfail x hx => ?_,
      fun hok => ?_⟩
    · rw [hst.ok_iff]
      constructor
      · rintro rfl
        exact hst.storable
      · intro hall
        by_contra hne
        have hlt := lt_of_le_of_ne hst.le hne
        exact hst.stop hlt (hall n hlt)
    · obtain rfl := hst.ok_iff.mp hok
      rw [hst.bytes (by rwa [Nat.zero_add]) k hk, Nat.zero_add]
    · obtain rfl := hst.ok_iff.mp hok
      exact hst.frame x hx
    · refine hst.frame x fun k hk => hx k (lt_of_lt_of_le hk hst.le) fun j hj => ?_
      exact hst.storable j (by omega)
    · -- reading back what was written
      subst hok
      obtain rfl := hst.ok_iff.mp rfl
      obtain ⟨htable', hentry⟩ := htable.frame hst.user
      obtain ⟨res, s₁, hrun, rfl, hres⟩ := htable'.toNonNull.copyin_returns (L := L)
        (s := { s with mem := m' }) a n
      rcases hres with ⟨-, rfl⟩ | ⟨⟨k, hk, hno⟩, -⟩
      · rw [hrun, hst.userBytes htable hsrc]
      · exact absurd ((Mem.loadable_congr hentry).mpr (hst.storable k hk).loadable) hno
  · intro a len
    refine (htable.toNonNull.copyin_returns a len).mono ?_
    rintro dst s₁ ⟨hs₁, ⟨hall, rfl⟩ | ⟨⟨k, hk, hno⟩, rfl⟩⟩
    · exact ⟨hs₁, by simpa using hall, fun bytes hb => (Option.some.inj hb).symm⟩
    · refine ⟨hs₁, ?_, fun bytes hb => by cases hb⟩
      simp only [Option.isSome_none, Bool.false_eq_true, false_iff, not_forall]
      exact ⟨k, hk, hno⟩

theorem onePageVm_userPage {w q fl : ℕ} (h : onePageVm.mem.UserPage 0x80041000 w q fl) :
    w = 0 ∧ q = 0x80044000 := by
  have hlt := h.lt
  simp only [maxva, pgsize] at hlt
  have hmaps := h.maps
  rw [onePageVm_ok.2.2.2 w (by omega)] at hmaps
  split_ifs at hmaps with hw
  exact ⟨hw, (Prod.mk.inj (Option.some.inj hmaps)).1.symm⟩

theorem onePageVm_userTable : UserTable onePageVm.mem 0x80041000 :=
  onePageVm_ok.1.userTable (fun w q fl hw => by rw [(onePageVm_userPage hw).2]; decide)
    fun w w' q fl fl' hw hw' => by rw [(onePageVm_userPage hw).1, (onePageVm_userPage hw').1]

/-- The user can load from and store to the page at address 0. -/
theorem onePageVm_storable {va : ℕ} (hva : va < 4096) : onePageVm.mem.Storable 0x80041000 va := by
  refine ⟨0x80044000, pteR ||| pteW ||| pteU ||| pteV, ⟨?_, ?_, by decide⟩, by decide⟩
  · simp only [maxva, pgsize]
    omega
  · rw [show va / 4096 = 0 by omega, onePageVm_ok.2.2.2 0 (by decide), if_pos rfl]

theorem onePageVm_phys {va : ℕ} (hva : va < 4096) :
    onePageVm.mem.phys 0x80041000 va = 0x80044000 + va := by
  have hpage := (onePageVm_userPage (onePageVm_storable hva).loadable.userPage).2
  rw [Mem.phys, hpage]
  omega

/-- A byte goes to the page table with one page and comes back. -/
theorem copies_are_bytewise_onePage : WellFormed onePageVm.mem 0x80041000 ∧
    onePageVm.mem.Storable 0x80041000 5 ∧
    (Vm.copyout .virt 0x80041000 5 (.buffer [42]) 1).Returns onePageVm fun ok s' =>
      ok = true ∧ Vm.copyin .virt 0x80041000 5 1 s' = .ok (some [42], s') := by
  have hwf := onePageVm_ok.1
  have hst : onePageVm.mem.Storable 0x80041000 5 := onePageVm_storable (by decide)
  refine ⟨hwf, hst, ?_⟩
  refine ((copies_are_bytewise hwf (fun _ _ _ => onePageVm_userTable.page)
    (fun _ _ _ _ _ => onePageVm_userTable.inj)).1 5 1 (.buffer [42]) le_rfl).mono ?_
  rintro ok s' ⟨m', rfl, hok, -, -, hin⟩
  have hall : ok = true := hok.mpr fun k hk => by
    obtain rfl : k = 0 := by omega
    exact hst
  exact ⟨hall, hin hall⟩

end OsKernel
