import OsKernel.Exec.Kexec
import OsKernel.Proc.Spaces

/-!
# What `kexec` does to memory

`execLoad` builds a page table for the new image, fills it and swaps it for the old one. On
every path, whether `kalloc` fails or the binary cannot be copied, the pages taken on the way
are given back: `execLoad_spec` says that memory is in order again (`Spaces`), with the old
image of the process or with the new one.

One path does not return. The sizes in the program table are not checked, so a header with an
absurd size makes the clean-up walk beyond `MAXVA`, where `walk` panics. `TableOk` excludes it:
the table is a sequence of entries with binaries that lie below `PHYSTOP`.
-/

namespace OsKernel

/-! ### The program table -/

/-- **The program table is in order**: entries up to the terminator inside the image, and
behind every entry a binary that ends below `PHYSTOP`. -/
def TableOk (L : Layout) (image : Mem) : Prop :=
  ∃ (es : List Entry) (rest : List UInt8),
    image.readBytes L.uprogTable (L.heap - L.uprogTable) =
        es.flatMap Entry.bytes ++ (terminator ++ rest) ∧
      ∀ e ∈ es, e.start ≤ e.stop ∧ e.stop ≤ L.phystop

section Table

variable {m image : Mem} {L : Layout} {a n : ℕ}

/-- Where the parts of a block of memory lie. -/
theorem Mem.readBytes_of_append {xs ys zs : List UInt8}
    (h : m.readBytes a n = xs ++ (ys ++ zs)) : m.readBytes (a + xs.length) ys.length = ys := by
  have hn : n = xs.length + (ys.length + zs.length) := by
    have := congrArg List.length h
    simpa using this
  refine List.ext_getElem? fun i => ?_
  by_cases hi : i < ys.length
  · have hget := congrArg (fun l : List UInt8 => l[xs.length + i]?) h
    simp only [List.getElem?_append_right (Nat.le_add_right _ _), Nat.add_sub_cancel_left,
      List.getElem?_append_left hi] at hget
    rw [← hget, Mem.getElem?_readBytes hi, Mem.getElem?_readBytes (by omega), Nat.add_assoc]
  · rw [List.getElem?_eq_none (by simpa using hi), List.getElem?_eq_none (by simpa using hi)]

theorem Mem.readBytes_add (m : Mem) (a n k : ℕ) :
    m.readBytes a (n + k) = m.readBytes a n ++ m.readBytes (a + n) k := by
  simp [Mem.readBytes, List.range_add, Nat.add_assoc]

/-- The header of an entry in a block of memory. -/
theorem Mem.load64_entry {xs zs : List UInt8} {e : Entry}
    (h : m.readBytes a n = xs ++ (e.bytes ++ zs)) :
    m.load64 (a + xs.length) = e.start ∧ m.load64 (a + xs.length + 8) = e.stop := by
  rw [Entry.bytes, List.append_assoc, List.append_assoc] at h
  have hstart := Mem.readBytes_of_append h
  rw [← List.append_assoc] at h
  have hend := Mem.readBytes_of_append h
  rw [length_leBytes] at hstart hend
  rw [List.length_append, length_leBytes, ← Nat.add_assoc] at hend
  rw [Mem.load64, Mem.load64, hstart, hend, leValue_leBytes e.start_lt, leValue_leBytes e.stop_lt]
  exact ⟨rfl, rfl⟩

/-- The table read from a memory that still holds the image. -/
theorem TableOk.lookup (h : TableOk L image) (hm : ∀ a, a < L.heap → m a = image a)
    {name : List UInt8} (hname : (0 : UInt8) ∉ name) :
    findUprog L.uprogTable (m.readBytes L.uprogTable (L.phystop - L.uprogTable)) (asciz name) =
        .null ∨
      ∃ up, findUprog L.uprogTable (m.readBytes L.uprogTable (L.phystop - L.uprogTable))
          (asciz name) = .found up ∧
        m.load64 up ≤ m.load64 (up + 8) ∧ m.load64 (up + 8) ≤ L.phystop := by
  obtain ⟨es, rest, htable, hes⟩ := h
  have hlen : L.uprogTable + 16 ≤ L.heap := by
    have := congrArg List.length htable
    simp only [Mem.length_readBytes, List.length_append, length_terminator] at this
    omega
  have hstop := L.heap_le_phystop
  have hread : m.readBytes L.uprogTable (L.phystop - L.uprogTable) =
      es.flatMap
        Entry.bytes ++ (terminator ++ (rest ++ m.readBytes L.heap (L.phystop - L.heap))) := by
    rw [show L.phystop - L.uprogTable = (L.heap - L.uprogTable) + (L.phystop - L.heap) by omega,
      Mem.readBytes_add, show L.uprogTable + (L.heap - L.uprogTable) = L.heap by omega,
      Mem.AgreeOn.readBytes_eq fun i hi => hm (L.uprogTable + i) (by omega), htable]
    simp only [List.append_assoc]
  rw [hread, findUprog_entries hname]
  cases hfirst : firstNamed name L.uprogTable es with
  | none => exact .inl (findUprog_terminator _ _ _)
  | some up =>
    obtain ⟨pre, e, post, rfl, -, rfl⟩ := firstNamed_eq_some hfirst
    obtain ⟨hle, htop⟩ := hes e (by simp)
    rw [List.flatMap_append, List.flatMap_cons, List.append_assoc, List.append_assoc] at hread
    obtain ⟨hstart, hend⟩ := Mem.load64_entry hread
    refine .inr ⟨_, rfl, ?_⟩
    rw [hstart, hend]
    exact ⟨hle, htop⟩

/-- A memory with a program table and nothing else. -/
def Mem.ofTable (L : Layout) (es : List Entry) : Mem :=
  Mem.writeBytes (fun _ => 0) L.uprogTable (es.flatMap Entry.bytes)

/-- The zeros behind the entries end the table. -/
theorem Mem.readBytes_ofTable (L : Layout) (es : List Entry) {n : ℕ}
    (hn : (es.flatMap Entry.bytes).length + 16 ≤ n) : ∃ rest,
      (Mem.ofTable L es).readBytes L.uprogTable n =
        es.flatMap Entry.bytes ++ (terminator ++ rest) := by
  generalize hbs : es.flatMap Entry.bytes = bs at hn
  have hself : (Mem.ofTable L es).readBytes L.uprogTable bs.length = bs := by
    rw [Mem.ofTable, hbs, Mem.readBytes_writeBytes_self]
  have hzero : (Mem.ofTable L es).readBytes (L.uprogTable + bs.length) 16 = terminator := by
    refine (Mem.AgreeOn.readBytes_eq (m := fun _ => 0) fun i _ => ?_).trans rfl
    exact Mem.writeBytes_of_ge (by rw [hbs]; omega)
  rw [show n = bs.length + (16 + (n - bs.length - 16)) by omega, Mem.readBytes_add,
    Mem.readBytes_add, hself, hzero]
  exact ⟨_, rfl⟩

theorem tableOk_ofTable {es : List Entry}
    (hfits : L.uprogTable + (es.flatMap Entry.bytes).length + 16 ≤ L.heap)
    (hes : ∀ e ∈ es, e.start ≤ e.stop ∧ e.stop ≤ L.phystop) : TableOk L (.ofTable L es) := by
  obtain ⟨rest, hread⟩ := Mem.readBytes_ofTable L es (n := L.heap - L.uprogTable) (by omega)
  exact ⟨es, rest, hread, hes⟩

/-- The whole of memory from the table on. -/
theorem Mem.readBytes_table {es : List Entry}
    (hfits : L.uprogTable + (es.flatMap Entry.bytes).length + 16 ≤ L.heap)
    (hm : ∀ a, a < L.heap → m a = Mem.ofTable L es a) : ∃ rest,
      m.readBytes L.uprogTable (L.phystop - L.uprogTable) =
        es.flatMap Entry.bytes ++ (terminator ++ rest) := by
  have hstop := L.heap_le_phystop
  obtain ⟨rest, hread⟩ := Mem.readBytes_ofTable L es (n := L.heap - L.uprogTable) (by omega)
  have hagree : m.readBytes L.uprogTable (L.heap - L.uprogTable) =
      (Mem.ofTable L es).readBytes L.uprogTable (L.heap - L.uprogTable) :=
    Mem.AgreeOn.readBytes_eq fun i hi => hm _ (by omega)
  rw [show L.phystop - L.uprogTable = (L.heap - L.uprogTable) + (L.phystop - L.heap) by omega,
    Mem.readBytes_add, hagree, hread, List.append_assoc, List.append_assoc]
  exact ⟨_, rfl⟩

/-- The first program of the table is found at once. -/
theorem Core.findUprog_ofTable {c : Core} {e : Entry} {es : List Entry}
    (hfits : L.uprogTable + ((e :: es).flatMap Entry.bytes).length + 16 ≤ L.heap)
    (hm : ∀ a, a < L.heap → c.vm.mem a = Mem.ofTable L (e :: es) a) :
    c.findUprog L e.name = .found L.uprogTable ∧
      c.vm.mem.load64 L.uprogTable = e.start ∧ c.vm.mem.load64 (L.uprogTable + 8) = e.stop := by
  obtain ⟨rest, hread⟩ := Mem.readBytes_table hfits hm
  rw [List.flatMap_cons, List.append_assoc] at hread
  refine ⟨?_, Mem.load64_entry (hread.trans (List.nil_append _).symm)⟩
  rw [Core.findUprog, hread, findUprog_entry e.nul_free, if_pos rfl]

/-- A program that is not in the table is not found. -/
theorem Core.findUprog_ofTable_eq_null {c : Core} {es : List Entry} {name : List UInt8}
    (hfits : L.uprogTable + (es.flatMap Entry.bytes).length + 16 ≤ L.heap)
    (hm : ∀ a, a < L.heap → c.vm.mem a = Mem.ofTable L es a) (hname : (0 : UInt8) ∉ name)
    (hno : firstNamed name L.uprogTable es = none) : c.findUprog L name = .null := by
  obtain ⟨rest, hread⟩ := Mem.readBytes_table hfits hm
  rw [Core.findUprog, hread, findUprog_entries hname, hno]
  exact findUprog_terminator _ _ _

end Table

/-! ### The size of an image -/

theorem execTotal_dvd (size : ℕ) : 4096 ∣ execTotal size := by
  simp only [execTotal, pgRoundUp, pgsize, wordSize]
  omega

theorem execTotal_lt (size : ℕ) : execTotal size < 2 ^ 64 := by
  simp only [execTotal, wordSize]
  omega

theorem execTotal_le {L : Layout} {size : ℕ} (h : size ≤ L.phystop) : execTotal size ≤ 2 ^ 38 := by
  have := L.phystop_le
  simp only [execTotal, pgRoundUp, pgsize, wordSize]
  omega

/-- A size that the image it leads to can hold has not wrapped around. -/
theorem execTotal_eq {size : ℕ} (hlt : size < 2 ^ 64) (h : size ≤ execTotal size) :
    execTotal size = (size + 4095) / 4096 * 4096 + 3 * 4096 := by
  simp only [execTotal, pgRoundUp, pgsize, wordSize] at h ⊢
  omega

theorem execSize_lt (start stop : ℕ) : execSize start stop < 2 ^ 64 :=
  Nat.mod_lt _ (by decide)

theorem execSize_eq {start stop : ℕ} (h : start ≤ stop) (hlt : stop < 2 ^ 64) :
    execSize start stop = stop - start := by
  simp only [execSize, wordSize]
  omega

/-- There can be an image for a binary of this size: the size has not wrapped around, and there are
pages for a root, two tables for the pages at the top, the image and the tables over it. -/
def ExecFits (L : Layout) (s : Vm) (size : ℕ) : Prop :=
  size ≤ execTotal size ∧ Supply L s (3 + userPages (execTotal size / 4096))

theorem execTotal_div (size : ℕ) : (execTotal size + 4095) / 4096 = execTotal size / 4096 := by
  have := execTotal_dvd size
  omega

theorem execTotal_pos {size : ℕ} (h : size ≤ execTotal size) : execTotal size ≠ 0 := by
  intro h0
  obtain rfl : size = 0 := by omega
  exact absurd h0 (by decide)

/-! ### A page table in hand -/

/-- A page table that belongs to no process yet, with user pages up to `sz` and the trapframe in
page `tf`. -/
structure InHand (L : Layout) (image : Mem) (kpt : ℕ) (s : Vm) (pm : SpaceTable) (o : Owners)
    (r sz tf : ℕ) : Prop where
  spaces : Spaces L image kpt s pm o fun _ ρ => ρ.Under r
  root : o r = some (.table r 2 0)
  ne_kernel : r ≠ kpt
  fresh : ∀ j sp, pm j = some sp → sp.pagetable ≠ r
  shape : UserShape L s.mem r sz tf

section InHand

variable {L : Layout} {image : Mem} {kpt : ℕ} {s s' : Vm} {pm : SpaceTable} {o o' : Owners}
  {X Y : ℕ → Role → Prop} {i : Slot} {sp : Space} {r sz tf : ℕ}

/-- More pages may be said to be in hand. -/
theorem Spaces.weaken (h : Spaces L image kpt s pm o X) (hX : ∀ q ρ, X q ρ → Y q ρ) :
    Spaces L image kpt s pm o Y :=
  { h with exact := fun q ρ hq => (h.exact q ρ hq).imp_left (hX q ρ) }

/-- `proc_pagetable` for a process there is already. -/
theorem Spaces.newPagetable (h : Spaces L image kpt s pm o noRole) (hi : pm i = some sp) :
    (Vm.procPagetable L sp.trapframe).Returns s fun r s' => Kept pm s s' ∧ ∃ o',
      (r = 0 ∧ ¬Supply L s 3 ∧ Spaces L image kpt s' pm o' noRole ∨
        r ≠ 0 ∧ o r = none ∧ Took L 3 s s' ∧ o'.Covers r 0 ∧
          (∀ q ρ, o q = some ρ → o' q = some ρ) ∧
          InHand L image kpt s' pm o' r 0 sp.trapframe) := by
  refine (h.procPagetable (h.owned i sp hi).trapframe).mono ?_
  rintro r s' ⟨hkept, -, ⟨rfl, hpoor, o', -, hsp⟩ |
    ⟨hr0, hk, hfresh, hshape, hnone, htook, o', hold, hroot, hcov, hsp⟩⟩
  · exact ⟨hkept, o', .inl ⟨rfl, hpoor, hsp⟩⟩
  · exact ⟨hkept, o', .inr ⟨hr0, hnone, htook, hcov, hold,
      hsp.weaken fun _ _ => Or.rec False.elim id, hroot, hk, hfresh, hshape⟩⟩

namespace InHand

variable (h : InHand L image kpt s pm o r sz tf)

include h

/-- Work on the page table in hand. -/
theorem edit (he : Edit L r s o s' o') {n : ℕ} (hshape : UserShape L s'.mem r n tf) :
    InHand L image kpt s' pm o' r n tf ∧ Kept pm s s' := by
  obtain ⟨hsp, hkept⟩ := h.spaces.frame (Y := fun _ ρ => ρ.Under r) he.inv he.frame
    (Spaces.not_needed_under h.ne_kernel h.fresh) (fun _ _ _ ht => .inl ht) fun _ _ => id
  exact ⟨⟨hsp, he.root, h.ne_kernel, h.fresh, hshape⟩, hkept⟩

/-- Stores to its user pages. -/
theorem userWrite {m' : Mem} (hm : UserWrite o r s.mem m') :
    InHand L image kpt { s with mem := m' } pm o r sz tf ∧ Kept pm s { s with mem := m' } := by
  obtain ⟨hsp, hkept⟩ := h.spaces.userWrite h.fresh hm
  obtain ⟨-, -, hentry⟩ := h.spaces.inv.userWrite hm
  exact ⟨⟨hsp, h.root, h.ne_kernel, h.fresh, h.shape.congr fun w hw => hentry r w h.root hw⟩, hkept⟩

/-- The page table in hand is taken down. -/
theorem free {n : ℕ} (hle : sz ≤ n) (hn : n ≤ 2 ^ 38) :
    (Vm.procFreepagetable L r n).Returns s fun _ s' => Kept pm s s' ∧
      ∃ o', Spaces L image kpt s' pm o' noRole := by
  refine (h.spaces.procFreepagetable (Y := noRole) h.ne_kernel h.fresh
    (h.shape.free hle hn h.spaces.inv h.root) fun _ _ => .inl).mono ?_
  rintro _ s' ⟨hkept, o', -, hsp⟩
  exact ⟨hkept, o', hsp⟩

/-- The page table in hand takes the place of the one a process has, which is now in hand. -/
theorem swap (hi : pm i = some sp) (htf : sp.trapframe = tf) :
    InHand L image kpt s (Function.update pm i (some ⟨tf, r, sz⟩)) o sp.pagetable sp.sz tf := by
  have hown := h.spaces.owned i sp hi
  have hout := h.spaces.detach hi
  have hin : Spaces L image kpt s (Function.update pm i none) o fun q ρ =>
      ρ.Under sp.pagetable ∨ Spaces.Pages i ⟨tf, r, sz⟩ q ρ := by
    refine hout.weaken ?_
    rintro q ρ (hr | ⟨rfl, rfl⟩ | hold)
    · exact .inr (.inr hr)
    · exact .inr (.inl ⟨htf, rfl⟩)
    · exact .inl hold
  have hback := hin.attach (Function.update_self ..)
    ⟨htf ▸ hown.trapframe, h.root, h.ne_kernel, h.shape⟩
  rw [Function.update_idem] at hback
  refine ⟨hback, hown.root, hown.ne_kernel, fun j sp' hj heq => ?_, htf ▸ hown.shape⟩
  by_cases hji : j = i
  · rw [hji, Function.update_self, Option.some.injEq] at hj
    refine h.fresh i sp hi ?_
    rw [← heq, ← hj]
  · rw [Function.update_of_ne hji] at hj
    exact hji (h.spaces.pagetable_inj hj hi heq)

end InHand

/-- The permissions `kexec` gives to the pages of an image. -/
def execPerm : ℕ := pteR ||| pteU ||| (pteW ||| pteX)

/-- `uvmalloc` in an empty page table in hand. -/
theorem InHand.uvmalloc (h : InHand L image kpt s pm o r 0 tf) (hcov : o.Covers r 0) (total : ℕ) :
    (Vm.uvmalloc L r 0 total (pteW ||| pteX)).Returns s fun v s' => Kept pm s s' ∧
      ∃ o', (∀ q ρ, o q = some ρ → ¬ρ.Under r → o' q = some ρ) ∧
        (v = total ∧ total ≤ 2 ^ 38 ∧ Took L (userPages ((total + 4095) / 4096)) s s' ∧
            InHand L image kpt s' pm o' r total tf ∧
            (∀ w, w * 4096 < total → ZeroPage s'.mem r execPerm w) ∨
          v = 0 ∧ ¬Supply L s (userPages ((total + 4095) / 4096)) ∧
            InHand L image kpt s' pm o' r 0 tf) := by
  have hphys := L.phystop_le
  have hheap := L.lt_heap
  have hbelow : ∀ w, w < (0 + 4095) / 4096 + (L.phystop - L.heap) / 4096 →
      w < trapframeVpn := by
    intro w hw
    simp only [trapframeVpn]
    omega
  refine (uvmalloc_spec (by decide) (by decide) (by decide) h.spaces.inv h.root (Nat.zero_le _)
    (Nat.zero_le _) fun w _ _ hw => ?_).mono ?_
  · have hlt := hbelow w hw
    have hne : w ≠ trampolineVpn := by
      simp only [trapframeVpn, trampolineVpn] at hlt ⊢
      omega
    simp only [trapframeVpn] at hlt
    exact ⟨by omega, h.shape.empty w (by omega) (Nat.zero_le _) (by simp only [trapframeVpn]; omega)
      hne⟩
  rintro v s' (⟨rfl, hle, htook, ⟨o', hedit⟩, hpages⟩ | ⟨rfl, hpoor, ⟨o', hedit⟩, hsame⟩)
  · have htop : ∀ w, w = trapframeVpn ∨ w = trampolineVpn → ¬w * 4096 < v := by
      rintro w (rfl | rfl) <;> simp only [trapframeVpn, trampolineVpn] <;> omega
    have hzero : ∀ w, w * 4096 < v → ZeroPage s'.mem r execPerm w := fun w hw =>
      (hpages w (by omega)).1 (by omega) hw
    suffices hshape : UserShape L s'.mem r v tf by
      obtain ⟨hhand, hkept⟩ := h.edit hedit hshape
      exact ⟨hkept, o', hedit.frame.role, .inl ⟨rfl, by omega, htook rfl hcov, hhand, hzero⟩⟩
    constructor
    case size =>
      simp only [trapframeVa, trampolineVa, maxva, pgsize]
      omega
    case user =>
      intro w hw
      obtain ⟨p, hp, -⟩ := hzero w hw
      rw [hp, pteFlags_leafEntry (by decide)]
      decide
    case trapframe =>
      rw [(hpages _ (by decide)).2 fun hin => htop _ (.inl rfl) hin.2, h.shape.trapframe]
    case trampoline =>
      rw [(hpages _ (by decide)).2 fun hin => htop _ (.inr rfl) hin.2, h.shape.trampoline]
    case empty =>
      intro w hw hlo hne hne'
      rw [(hpages w hw).2 fun hin => by omega, h.shape.empty w hw (Nat.zero_le _) hne hne']
  · obtain ⟨hhand, hkept⟩ := h.edit hedit (h.shape.congr hsame)
    exact ⟨hkept, o', hedit.frame.role, .inr ⟨rfl, hpoor rfl hcov, hhand⟩⟩

/-! ### The new image -/

/-- **A loaded program**: the binary from `start` on, zeros behind it up to the size of the image,
in pages that no process had in `m`. -/
structure Loaded (L : Layout) (m m' : Mem) (pm : SpaceTable) (pt start size : ℕ) : Prop where
  total : execTotal size = (size + 4095) / 4096 * 4096 + 3 * 4096
  readable : ∀ k, k < execTotal size → m'.Readable pt k
  bytes : start + size ≤ L.heap → ∀ k, k < size → m' (m'.phys pt k) = m (start + k)
  zero : ∀ k, size ≤ k → k < execTotal size → m' (m'.phys pt k) = 0
  fresh : ∀ k, k < execTotal size → ∀ j sp va, pm j = some sp → m.Readable sp.pagetable va →
    pte2pa (m.entry sp.pagetable (va / 4096)) ≠ pte2pa (m'.entry pt (k / 4096))

theorem Loaded.same {m m' m'' : Mem} {start size : ℕ} (h : Loaded L m m' pm r start size)
    (hsame : SameSpace m' m'' r) : Loaded L m m'' pm r start size where
  total := h.total
  readable k hk := hsame.readable (h.readable k hk)
  bytes hle k hk := by
    have hk' : k < execTotal size := by have := h.total; omega
    rw [hsame.phys (h.readable k hk'), hsame.byte k (h.readable k hk'), h.bytes hle k hk]
  zero k hlo hk := by
    rw [hsame.phys (h.readable k hk), hsame.byte k (h.readable k hk), h.zero k hlo hk]
  fresh k hk j sp va hj hva := by
    rw [hsame.entry_page (h.readable k hk)]
    exact h.fresh k hk j sp va hj hva

/-- The first pages of a user page table can be read and written. -/
theorem UserShape.writable (h : UserShape L s.mem r sz tf) {va : ℕ} (hva : va / 4096 * 4096 < sz) :
    s.mem.Writable r va := by
  have hsz := h.size_le
  exact ⟨⟨by omega, h.user_ne_zero hva (by decide) (by decide)⟩,
    h.user_ne_zero hva (by decide) (by decide)⟩

/-- No other page is the user's. -/
theorem UserShape.lt_of_user (h : UserShape L s.mem r sz tf) {w : ℕ} (hw : w < 2 ^ 27)
    (hu : s.mem.entry r w &&& pteU ≠ 0) : w * 4096 < sz := by
  by_contra hlo
  by_cases htop : w = trapframeVpn ∨ w = trampolineVpn
  · exact hu (h.top_not_user htop)
  · rw [not_or] at htop
    refine hu ?_
    rw [h.empty w hw (by omega) htop.1 htop.2, Nat.zero_and]

theorem UserShape.of_readable (h : UserShape L s.mem r sz tf) {va : ℕ} (hva : s.mem.Readable r va) :
    va / 4096 * 4096 < sz := h.lt_of_user (by have := hva.1; omega) hva.2

/-- `copyout` of a whole binary into zeroed pages. -/
theorem InHand.load {s₀ : Vm} {o₀ : Owners} {start size n : ℕ} {m' : Mem}
    (h : InHand L image kpt s pm o r (execTotal size) tf)
    (hzero : ∀ w, w * 4096 < execTotal size → ZeroPage s.mem r execPerm w)
    (h₀ : Spaces L image kpt s₀ pm o₀ X) (hnone : o₀ r = none)
    (hold : ∀ q ρ, o₀ q = some ρ → o q = some ρ) (hlt : size < 2 ^ 64)
    (hc : CopiedOut o r (.memory start) 0 0 size s.mem true m' n) :
    Loaded L s₀.mem m' pm r start size := by
  obtain rfl : n = size := hc.ok_iff.mp rfl
  have hdvd := execTotal_dvd n
  -- the copy has gone through, so its range is inside the image
  have hle : n ≤ execTotal n := by
    by_contra hlo
    have hw := h.shape.of_readable (hc.writable (execTotal n) (by omega)).1
    omega
  have hread : ∀ k, k < execTotal n → s.mem.Readable r k := fun k hk =>
    (h.shape.writable (by omega)).1
  obtain ⟨-, -, hentry⟩ := h.spaces.inv.userWrite (hc.userWrite h.spaces.inv.tables h.root)
  have hentry' : ∀ k, k < execTotal n → m'.entry r (k / 4096) = s.mem.entry r (k / 4096) :=
    fun k hk => hentry r _ h.root (by have := (hread k hk).1; omega)
  have hphys : ∀ k, k < execTotal n → m'.phys r k = s.mem.phys r k := fun k hk => by
    rw [Mem.phys, Mem.phys, hentry' k hk]
  constructor
  case total => exact execTotal_eq hlt hle
  case readable =>
    exact fun k hk => ⟨(hread k hk).1, by rw [hentry' k hk]; exact (hread k hk).2⟩
  case bytes =>
    intro hheap k hk
    have happart : (Vm.Source.memory start).Apart o r (0 + n) := by
      intro k w hk hrole
      have := h.spaces.inv.heap_le_page hrole
      omega
    have hbyte := hc.bytes happart k hk
    rw [Nat.zero_add] at hbyte
    rw [hphys k (by omega), hbyte]
    show s.mem (start + k) = _
    rw [h.spaces.image _ (by omega), h₀.image _ (by omega)]
  case zero =>
    intro k hlo hk
    rw [hphys k hk, hc.frame _ fun k' hk' heq => ?_]
    · obtain ⟨p, hp, hd, hp64, hz⟩ := hzero (k / 4096) (by omega)
      rw [Mem.phys, hp, pte2pa_leafEntry hd hp64 (by decide)]
      exact hz _ (Nat.mod_lt _ (by decide))
    · have := Mem.Readable.phys_inj h.spaces.inv.tables h.root (hread k hk)
        (hread (0 + k') (by omega)) heq
      omega
  case fresh =>
    -- the frame would have an owner before the new root existed
    intro k hk j sp va hj hva heq
    have hown := hold _ _ (hva.owner h₀.inv.tables (h₀.owned j sp hj).root)
    rw [heq, hentry' k hk, (hread k hk).owner h.spaces.inv.tables h.root] at hown
    have hroot := (h₀.owned j sp hj).root
    simp only [Option.some.injEq, Role.user.injEq] at hown
    rw [← hown.1, hnone] at hroot
    cases hroot

/-! ### `kexec` -/

/-- The memory after the assignments to the trapframe of the new image. -/
def execFrame (m : Mem) (tf total : ℕ) : Mem :=
  (m.store64 (tf + tfEpc) 0).store64 (tf + Reg.sp.offset) (BitVec.ofNat 64 total).toNat

theorem execCommit_vm (p : Slot) (pt total : ℕ) (name : List UInt8) (c : Core) :
    (c.execCommit p pt total name).vm =
      { c.vm with mem := execFrame c.vm.mem (c.procs p).trapframe total } := by
  simp [Core.execCommit, Core.tfStore, Core.emit, Core.setMem, Core.setVm, Core.setProc, execFrame]

theorem execFrame_of_page_ne {m : Mem} {a : ℕ} (hd : 4096 ∣ tf) (ha : a / 4096 * 4096 ≠ tf)
    (total : ℕ) : execFrame m tf total a = m a := by
  have hout : ∀ {m : Mem} {off v : ℕ}, off + 8 ≤ 4096 → m.store64 (tf + off) v a = m a := by
    intro m off v hoff
    exact Mem.agreeOn_store64 (n := 1) (b := a) (by omega) 0 Nat.one_pos
  rw [execFrame, hout (by decide), hout (by decide)]

/-- What a failed `kexec` leaves: memory in order, and what every process had. -/
def ExecFailed (L : Layout) (image : Mem) (kpt : ℕ) (pm : SpaceTable) (c c' : Core) : Prop :=
  ∃ s' o', c' = c.setVm s' ∧ Kept pm c.vm s' ∧ Spaces L image kpt s' pm o' noRole

/-- The label `bad`, for a page table that is empty or of the full size. -/
theorem execBad_spec {c : Core} {total : ℕ} (h : InHand L image kpt c.vm pm o r sz tf)
    (hsz : sz = 0 ∧ 4096 ∣ total ∧ total < 2 ^ 64 ∨ sz = total ∧ total ≤ 2 ^ 38) :
    execBad L r total c = .error .walk ∧ 2 ^ 38 < total ∨
      (execBad L r total).Returns c fun v c' => v = -1 ∧ ExecFailed L image kpt pm c c' := by
  by_cases hmax : total ≤ 2 ^ 38
  · have hle : sz ≤ total := by omega
    obtain ⟨_, s', hx, hkept, o', hsp⟩ := h.free hle hmax
    right
    rw [execBad, PanicM.returns_bind_of_ok (liftVm_of_ok hx), PanicM.returns_pure]
    exact ⟨rfl, s', o', rfl, hkept, hsp⟩
  · obtain ⟨rfl, hd, hlt⟩ : sz = 0 ∧ 4096 ∣ total ∧ total < 2 ^ 64 :=
      hsz.resolve_right fun hr => hmax hr.2
    refine .inl ⟨PanicM.bind_of_error (liftVm_of_error ?_), by omega⟩
    exact h.shape.free_walk h.spaces.inv h.root (by omega) hd hlt

/-- What a successful `kexec` leaves: the process has the new image, and every other process what
it had. -/
def Execed (L : Layout) (image : Mem) (kpt : ℕ) (pm : SpaceTable) (p : Slot) (tf pt start size : ℕ)
    (name : List UInt8) (c c' : Core) : Prop :=
  ∃ s₁ s₂ o', c' = ((c.setVm s₁).execCommit p pt (execTotal size) name).setVm s₂ ∧
    Kept (Function.update pm p none) c.vm s₂ ∧
    Spaces L image kpt s₂ (Function.update pm p (some ⟨tf, pt, execTotal size⟩)) o' noRole ∧
    Loaded L c.vm.mem s₂.mem pm pt start size ∧
    Mem.AgreeOn (execFrame c.vm.mem tf (execTotal size)) s₂.mem tf 4096 ∧
    Took L (3 + userPages (execTotal size / 4096)) c.vm s₂

/-- Equal trapframes stay equal under the assignments of `kexec`. -/
theorem execFrame_congr {m m' : Mem} (h : Mem.AgreeOn m m' tf 4096) (total : ℕ) :
    Mem.AgreeOn (execFrame m tf total) (execFrame m' tf total) tf 4096 := by
  have hstore : ∀ {m m' : Mem} {a v : ℕ}, Mem.AgreeOn m m' tf 4096 →
      Mem.AgreeOn (m.store64 a v) (m'.store64 a v) tf 4096 := by
    intro m m' a v h i hi
    simp only [Mem.store64, Mem.writeBytes, h i hi]
  exact hstore (hstore h)

/-- The swap of the page tables, the assignments to the trapframe, and the end of the old image. -/
theorem InHand.commit (h : InHand L image kpt s pm o r sz tf) (hi : pm i = some sp)
    (htf : sp.trapframe = tf) :
    (Vm.procFreepagetable L sp.pagetable sp.sz).Returns { s with mem := execFrame s.mem tf sz }
      fun _ s' => Kept (Function.update pm i none) s s' ∧ SameSpace s.mem s'.mem r ∧
        Mem.AgreeOn (execFrame s.mem tf sz) s'.mem tf 4096 ∧
        (s'.freemem = s.freemem ∧ s'.fails = s.fails) ∧
        ∃ o', Spaces L image kpt s' (Function.update pm i (some ⟨tf, r, sz⟩)) o' noRole := by
  have hswap := h.swap hi htf
  have hnew : Function.update pm i (some ⟨tf, r, sz⟩) i = some ⟨tf, r, sz⟩ :=
    Function.update_self ..
  have hdvd := (hswap.spaces.trapframe_lt hnew).1
  obtain ⟨hsp, hkept, hsame⟩ := hswap.spaces.frameWrite hnew (n := execFrame s.mem tf sz)
    fun a ha => execFrame_of_page_ne hdvd ha _
  rw [Function.update_idem] at hkept
  have hhand : InHand L image kpt { s with mem := execFrame s.mem tf sz }
      (Function.update pm i (some ⟨tf, r, sz⟩)) o sp.pagetable sp.sz tf :=
    ⟨hsp, hswap.root, hswap.ne_kernel, hswap.fresh, hswap.shape.congr (hsame _ hswap.root).entry⟩
  obtain ⟨u, s', hfree, hkept', o', hsp'⟩ := hhand.free le_rfl hhand.shape.size_le
  have hfrugal := frugal_procFreepagetable (L := L) sp.pagetable sp.sz _ u s' hfree
  refine PanicM.returns_of_ok hfree ⟨hkept.trans (hkept'.mono_left fun j spj hj => ?_),
    (hsame r h.root).trans (hkept'.space i _ hnew), hkept'.frames i _ hnew, hfrugal, o', hsp'⟩
  obtain ⟨hji, hj⟩ := update_none_eq_some hj
  rw [Function.update_of_ne hji, hj]

/-- `kexec` from the new page table on; `c` is the state before it was made. -/
theorem execInto_spec {c : Core} {p : Slot} {pr : Proc} {s₁ : Vm} {o₁ : Owners} {start size : ℕ}
    (h : Spaces L image kpt c.vm pm o noRole) (hp : pm p = some sp)
    (hpr : pr.pagetable = sp.pagetable ∧ pr.sz = sp.sz)
    (htf : (c.procs p).trapframe = sp.trapframe) (hnone : o r = none)
    (htook : Took L 3 c.vm s₁) (hcov : o₁.Covers r 0)
    (hold : ∀ q ρ, o q = some ρ → o₁ q = some ρ) (hkept₁ : Kept pm c.vm s₁)
    (hhand₁ : InHand L image kpt s₁ pm o₁ r 0 sp.trapframe) (hlt : size < 2 ^ 64)
    (name : List UInt8) :
    execInto L p pr r start size name (c.setVm s₁) = .error .walk ∧ 2 ^ 38 < execTotal size ∨
      (execInto L p pr r start size name).Returns (c.setVm s₁) fun v c' =>
        v = -1 ∧ ExecFailed L image kpt pm c c' ∧ ¬ExecFits L c.vm size ∨
          v = 0 ∧ Execed L image kpt pm p sp.trapframe r start size name c c' ∧
            ExecFits L c.vm size := by
  obtain ⟨v, s₂, hx₂, hkept₂, o₂, hold₂, hres₂⟩ := hhand₁.uvmalloc hcov (execTotal size)
  rw [execTotal_div] at hres₂
  -- both failures take the new page table down, for the full size
  have hbad : ∀ {sz s₃ o₃}, InHand L image kpt s₃ pm o₃ r sz sp.trapframe → Kept pm c.vm s₃ →
      (sz = 0 ∨ sz = execTotal size ∧ execTotal size ≤ 2 ^ 38) →
      execBad L r (execTotal size) (c.setVm s₃) = .error .walk ∧ 2 ^ 38 < execTotal size ∨
        ∃ v c', execBad L r (execTotal size) (c.setVm s₃) = .ok (v, c') ∧ v = -1 ∧
          ExecFailed L image kpt pm c c' := by
    intro sz s₃ o₃ hhand hkept hsz
    refine (execBad_spec (c := c.setVm s₃) hhand (hsz.imp_left fun h0 =>
      ⟨h0, execTotal_dvd size, execTotal_lt size⟩)).imp_right ?_
    rintro ⟨v, c', hx, hv, s₄, o₄, rfl, hkept₄, hsp₄⟩
    exact ⟨v, _, hx, hv, s₄, o₄, rfl, hkept.trans hkept₄, hsp₄⟩
  rw [PanicM.Returns, execInto, PanicM.bind_of_ok (liftVm_of_ok (c := c.setVm s₁) hx₂),
    Core.setVm_setVm]
  by_cases hv : v = 0
  · rw [if_pos hv]
    obtain ⟨sz, hhand₂, hsz, hpoor⟩ : ∃ sz, InHand L image kpt s₂ pm o₂ r sz sp.trapframe ∧
        (sz = 0 ∨ sz = execTotal size ∧ execTotal size ≤ 2 ^ 38) ∧ ¬ExecFits L c.vm size := by
      rcases hres₂ with ⟨hv', hmax, -, hhand, -⟩ | ⟨-, hpoor, hhand⟩
      · exact ⟨_, hhand, .inr ⟨rfl, hmax⟩, fun hfits => execTotal_pos hfits.1 (hv'.symm.trans hv)⟩
      · exact ⟨0, hhand, .inl rfl, fun hfits => hpoor (htook.supply_iff.mpr hfits.2)⟩
    refine (hbad hhand₂ (hkept₁.trans hkept₂) hsz).imp_right ?_
    rintro ⟨v, c', hx, hv, hf⟩
    exact ⟨v, c', hx, .inl ⟨hv, hf, hpoor⟩⟩
  rw [if_neg hv]
  rcases hres₂ with ⟨-, hmax, htook₂, hhand₂, hzero⟩ | ⟨hv0, -⟩
  swap
  · exact absurd hv0 hv
  obtain ⟨ok, _, hx₃, m₃, n, rfl, hcopied⟩ := copyout_spec hhand₂.spaces.inv hhand₂.root
    (.memory start) 0 size
  obtain ⟨hhand₃, hkept₃⟩ := hhand₂.userWrite (hcopied.userWrite hhand₂.spaces.inv.tables
    hhand₂.root)
  have hkept := (hkept₁.trans hkept₂).trans hkept₃
  rw [PanicM.bind_of_ok (liftVm_of_ok (c := c.setVm s₂) hx₃), Core.setVm_setVm]
  cases ok with
  | false =>
    rw [if_pos rfl]
    -- the copy has met an address beyond the image
    have hbeyond : ¬size ≤ execTotal size := by
      intro hle
      have hne : n ≠ size := fun hn => absurd (hcopied.ok_iff.mpr hn) (by decide)
      have hn := hcopied.le
      refine hcopied.stop (by omega) (hhand₂.shape.writable ?_)
      have := execTotal_dvd size
      omega
    refine (hbad hhand₃ hkept (.inr ⟨rfl, hmax⟩)).imp_right ?_
    rintro ⟨v, c', hx, hv, hf⟩
    exact ⟨v, c', hx, .inl ⟨hv, hf, fun hfits => hbeyond hfits.1⟩⟩
  | true =>
    rw [if_neg (by decide), PanicM.update_bind_apply]
    have hloaded := hhand₂.load hzero h hnone (fun q ρ hq => hold₂ q ρ (hold q ρ hq)
      (h.inv.not_under hnone hq)) hlt hcopied
    obtain ⟨_, s₅, hx₅, hkept₅, hsame₅, hframe₅, ⟨hmem₅, hfails₅⟩, o₅, hsp₅⟩ :=
      hhand₃.commit hp rfl
    have hvm : ((c.setVm { s₂ with mem := m₃ }).execCommit p r (execTotal size) name).vm =
        { s₂ with mem := execFrame m₃ sp.trapframe (execTotal size) } := by
      rw [execCommit_vm, ← htf]
      rfl
    rw [hpr.1, hpr.2, PanicM.bind_of_ok (liftVm_of_ok (by rw [hvm]; exact hx₅))]
    refine .inr ⟨_, _, rfl, .inr ⟨rfl, ⟨_, s₅, o₅, rfl, (hkept.without p).trans hkept₅, hsp₅,
      hloaded.same hsame₅, ?_, ?_⟩, ?_, (htook.trans htook₂).supply⟩⟩
    · exact (execFrame_congr (hkept.frames p sp hp) _).trans hframe₅
    · exact (htook.trans htook₂).congr hmem₅ hfails₅
    · have := hloaded.total
      omega

/-- **`kexec` from a header on**: it fails and every process keeps what it had, or the process
has the new image, and in both cases memory is in order; or the image does not fit the address
space and `walk` panics. Which of them it is can be seen from the header and the free pages. -/
theorem execLoad_spec {c : Core} {p : Slot} (h : Spaces L image kpt c.vm pm o noRole)
    (hp : pm p = some ⟨(c.procs p).trapframe, (c.procs p).pagetable, (c.procs p).sz⟩)
    (up : ℕ) (name : List UInt8) {start size : ℕ} (hstart : start = c.vm.mem.load64 up)
    (hsize : size = execSize start (c.vm.mem.load64 (up + 8))) :
    execLoad L p up name c = .error .walk ∧ 2 ^ 38 < execTotal size ∨
      (execLoad L p up name).Returns c fun v c' =>
        v = -1 ∧ ExecFailed L image kpt pm c c' ∧ ¬ExecFits L c.vm size ∨
          v = 0 ∧ (∃ pt, Execed L image kpt pm p (c.procs p).trapframe pt start size name c c') ∧
            ExecFits L c.vm size := by
  have hload : ∀ a, liftVm (Vm.load a) c = .ok (c.vm.mem.load64 a, c) := fun _ => rfl
  obtain ⟨r, s₁, hx₁, hkept₁, o₁, hres₁⟩ := h.newPagetable hp
  rw [PanicM.Returns, execLoad, PanicM.bind_of_ok (hload up), PanicM.bind_of_ok (hload (up + 8)),
    PanicM.read_bind_apply, PanicM.bind_of_ok (liftVm_of_ok hx₁), ← hstart, ← hsize]
  rcases hres₁ with ⟨rfl, hpoor, hsp₁⟩ | ⟨hr0, hnone, htook, hcov, hold, hhand₁⟩
  · rw [if_pos rfl]
    exact .inr ⟨_, _, rfl, .inl ⟨rfl, ⟨s₁, o₁, rfl, hkept₁, hsp₁⟩, fun hfits =>
      hpoor (hfits.2.mono (Nat.le_add_right _ _))⟩⟩
  · rw [if_neg hr0]
    refine (execInto_spec h hp ⟨rfl, rfl⟩ rfl hnone htook hcov hold hkept₁ hhand₁
      (hsize ▸ execSize_lt _ _) name).imp_right ?_
    rintro ⟨v, c', hx, hres⟩
    refine ⟨v, c', hx, hres.imp_right ?_⟩
    rintro ⟨hv, he, hfits⟩
    exact ⟨hv, ⟨r, he⟩, hfits⟩

end InHand

end OsKernel
