import OsKernel.Trap.Usertrap

/-!
# The trampoline and user mode

`uservec` stores the registers of the process in its trapframe and takes the registers of the
kernel from there; `userret` goes the other way. Both run on the page table of the process, which
maps the trapframe at the same virtual address for every process, and stores to the trapframe do
not change that page table. Between the two is user mode, where the process writes to its own
pages until it traps.
-/

namespace OsKernel

variable {L : Layout} {S : Site} {N : Env} {h₀ : Hart} {b : Bool} {c c₀ c' : Core} {p : Slot}
  {s : K} {m m' : Mem} {satp : BitVec 64} {tf pt : ℕ}

/-! ### Translation -/

theorem satpOf_toNat (hlt : pt < 2 ^ 56) : (satpOf pt).toNat = 8 * 2 ^ 60 + pt / 4096 := by
  have hor : 8 <<< 60 ||| pt >>> 12 = 8 <<< 60 + pt >>> 12 := by
    refine (Nat.shiftLeft_add_eq_or_of_lt ?_ 8).symm
    rw [Nat.shiftRight_eq_div_pow]
    omega
  rw [satpOf, makeSatp, hor, Nat.shiftLeft_eq, Nat.shiftRight_eq_div_pow, BitVec.toNat_ofNat]
  omega

theorem satpRoot_satpOf (hd : 4096 ∣ pt) (hlt : pt < 2 ^ 56) : satpRoot (satpOf pt) = pt := by
  rw [satpRoot, satpOf_toNat hlt]
  omega

/-- A page of the kernel, mapped by a page table that user code runs on. -/
theorem translate_of_entry {va w q flags need : ℕ} (hd : 4096 ∣ pt) (hlt : pt < 2 ^ 56)
    (hva : va / 4096 = w) (hw : w < 2 ^ 26) (hq : 4096 ∣ q) (hqlt : q < 2 ^ 64)
    (hentry : m.entry pt w = pa2pte q ||| flags) (hflags : flags < 1024)
    (hv : flags &&& pteV ≠ 0) (hu : flags &&& pteU = 0) (hneed : flags &&& need ≠ 0)
    (hlow : need < 1024) :
    translate m (satpOf pt) va need = some (q + va % 4096) := by
  have hand : ∀ f, f < 1024 → (pa2pte q ||| flags) &&& f = flags &&& f := fun f hf => by
    rw [and_eq_pteFlags_and hf, pteFlags_pa2pte_or hflags]
  have hmode : (satpOf pt).toNat / 2 ^ 60 = 8 := by
    rw [satpOf_toNat hlt]
    omega
  have hmax : va < maxva := by
    simp only [maxva]
    omega
  rw [translate, satpRoot_satpOf hd hlt, show va / pgsize = w from hva, hentry]
  rw [if_pos ⟨hmode, hmax, by rwa [hand _ (by decide)], by rwa [hand _ (by decide)],
    by rwa [hand _ hlow]⟩, pte2pa_pa2pte_or hq hqlt hflags]
  rfl

/-- `satp` maps the page `tf` at `TRAPFRAME` for the kernel, and goes on to do so whatever is
written to that page. -/
def MapsFrame (satp : BitVec 64) (tf : ℕ) (m : Mem) : Prop :=
  ∀ m' : Mem, (∀ a, a / 4096 * 4096 ≠ tf → m' a = m a) → ∀ off, off < 4096 →
    translate m' satp (trapframeVa + off) pteR = some (tf + off) ∧
      translate m' satp (trapframeVa + off) pteW = some (tf + off)

theorem MapsFrame.write {n : Mem} (h : MapsFrame satp tf m)
    (hm : ∀ a, a / 4096 * 4096 ≠ tf → n a = m a) : MapsFrame satp tf n := fun m' hm' =>
  h m' fun a ha => (hm' a ha).trans (hm a ha)

/-- The page table of a process maps its trapframe. -/
theorem Good.mapsFrame (hg : Good L S c) (hp : c.cproc = some p) :
    MapsFrame (satpOf (c.procs p).pagetable) (c.procs p).trapframe c.vm.mem := by
  intro m' hm' off hoff
  obtain ⟨o, hsp⟩ := hg.spaces
  have hspace := hg.spaces_running hp
  have hown := hsp.owned p _ hspace
  obtain ⟨-, -, hsame⟩ := hsp.frameWrite hspace hm'
  have hentry : m'.entry (c.procs p).pagetable trapframeVpn =
      pa2pte (c.procs p).trapframe ||| (pteR ||| pteW ||| pteV) := by
    refine ((hsame _ hown.root).entry trapframeVpn (by decide)).trans ?_
    rw [← Nat.or_assoc]
    exact hown.shape.trapframe
  obtain ⟨hd, -, hlt⟩ := hsp.pagetable_lt hspace
  obtain ⟨hdt, -, hltt⟩ := hsp.trapframe_lt hspace
  have htop := L.phystop_le
  have hmod : (trapframeVa + off) % 4096 = off := by
    simp only [trapframeVa, trampolineVa, maxva, pgsize]
    omega
  have hdiv : (trapframeVa + off) / 4096 = trapframeVpn := by
    simp only [trapframeVa, trampolineVa, maxva, pgsize, trapframeVpn]
    omega
  constructor
  all_goals
    refine (translate_of_entry hd (hlt.trans_le (htop.trans (by decide))) hdiv (by decide) hdt
      (hltt.trans_le (htop.trans (by decide))) hentry (by decide) (by decide)
        (by decide) (by decide)
      (by decide)).trans ?_
    rw [hmod]
    rfl

/-- A page table with the trampoline in its place can be switched to. -/
theorem translate_trampoline (hd : 4096 ∣ pt) (hlt : pt < 2 ^ 56)
    (h : m.entry pt trampolineVpn = pa2pte L.trampoline ||| (pteR ||| pteX) ||| pteV) :
    translate m (satpOf pt) trampolineVa pteX = some L.trampoline := by
  have hlow : L.trampoline < 2 ^ 64 := by
    have := L.trampoline_lt_etext
    have := L.etext_le_kend
    have := L.kend_lt_phystop
    have := L.phystop_le
    omega
  rw [Nat.or_assoc] at h
  exact translate_of_entry hd hlt rfl (by decide) L.trampoline_aligned hlow h
    (by decide) (by decide)
    (by decide) (by decide) (by decide)

/-- The kernel and the running process have the trampoline mapped. -/
theorem Good.translate_kernel (hg : Good L S c) :
    translate c.vm.mem (satpOf S.kpt) trampolineVa pteX = some L.trampoline := by
  obtain ⟨o, hsp⟩ := hg.spaces
  have hpage := hsp.inv.tables.page hsp.kernel
  have hlt := hsp.inv.lt_phystop hsp.kernel
  have htop := L.phystop_le
  exact translate_trampoline hpage.1 (hlt.trans_le (htop.trans (by decide))) hsp.trampoline

theorem Good.translate_user (hg : Good L S c) (hp : c.cproc = some p) :
    translate c.vm.mem (satpOf (c.procs p).pagetable) trampolineVa pteX = some L.trampoline := by
  obtain ⟨o, hsp⟩ := hg.spaces
  have hspace := hg.spaces_running hp
  obtain ⟨hd, -, hlt⟩ := hsp.pagetable_lt hspace
  have htop := L.phystop_le
  exact translate_trampoline hd (hlt.trans_le (htop.trans (by decide)))
    (hsp.owned p _ hspace).shape.trampoline

/-! ### The instructions -/

theorem execAll_append (is js : List Instr) (s : K) :
    execAll L (is ++ js) s = execAll L is s >>= execAll L js := by
  induction is generalizing s with
  | nil => rfl
  | cons i is ih =>
    rw [List.cons_append, execAll, execAll]
    cases i.exec L s with
    | ok t => exact ih t
    | error e => rfl

theorem frameAddr {off : ℕ} (hoff : off < 4096) :
    (BitVec.ofNat 64 trapframeVa + BitVec.ofNat 64 off).toNat = trapframeVa + off := by
  rw [← BitVec.ofNat_add, BitVec.toNat_ofNat]
  refine Nat.mod_eq_of_lt ?_
  simp only [trapframeVa, trampolineVa, maxva, pgsize]
  omega

theorem exec_sd {rs : Reg} {off : ℕ} (hmap : MapsFrame s.hart.satp tf s.core.vm.mem)
    (ha0 : s.hart.regs .a0 = BitVec.ofNat 64 trapframeVa) (hoff : off < 4096) :
    (Instr.sd rs off .a0).exec L s = .ok { s with
      core := s.core.setMem (s.core.vm.mem.store64 (tf + off) (s.hart.regs rs).toNat) } := by
  rw [Instr.exec, ha0, frameAddr hoff, (hmap _ (fun _ _ => rfl) off hoff).2]

theorem exec_ld {rd : Reg} {off : ℕ} (hmap : MapsFrame s.hart.satp tf s.core.vm.mem)
    (ha0 : s.hart.regs .a0 = BitVec.ofNat 64 trapframeVa) (hoff : off < 4096) :
    (Instr.ld rd off .a0).exec L s = .ok { s with
      hart := s.hart.setReg rd (BitVec.ofNat 64 (s.core.vm.mem.load64 (tf + off))) } := by
  rw [Instr.exec, ha0, frameAddr hoff, (hmap _ (fun _ _ => rfl) off hoff).1]

@[simp] theorem Hart.setReg_self (h : Hart) (r : Reg) (v : BitVec 64) :
    (h.setReg r v).regs r = v := by simp [Hart.setReg]

theorem Hart.setReg_ne (h : Hart) {r q : Reg} (v : BitVec 64) (hq : q ≠ r) :
    (h.setReg r v).regs q = h.regs q := by simp [Hart.setReg, hq]

theorem exec_csrwSatp {rs : Reg} (hrs : s.hart.regs rs = satp)
    (htramp : translate s.core.vm.mem satp trampolineVa pteX = some L.trampoline) :
    (Instr.csrwSatp rs).exec L s = .ok { s with hart := { s.hart with satp := satp } } := by
  rw [Instr.exec, hrs, if_pos htramp]

/-- The registers but `a0`. -/
def savedRegs : List Reg :=
  [.ra, .sp, .gp, .tp, .t0, .t1, .t2, .s0, .s1, .a1, .a2, .a3, .a4, .a5, .a6, .a7, .s2,
    .s3, .s4, .s5, .s6, .s7, .s8, .s9, .s10, .s11, .t3, .t4, .t5, .t6]

theorem mem_savedRegs {r : Reg} (h : r ≠ .a0) : r ∈ savedRegs := by
  cases r <;> first
    | exact absurd rfl h
    | decide

/-- What a sequence of stores to the trapframe leaves in memory. -/
structure SavedRegs (rs : List Reg) (regs : Reg → BitVec 64) (tf : ℕ) (m m' : Mem) : Prop where
  regs : ∀ r ∈ rs, m'.load64 (tf + r.offset) = (regs r).toNat
  rest : ∀ r ∉ rs, m'.load64 (tf + r.offset) = m.load64 (tf + r.offset)
  header : Mem.AgreeOn m m' tf 40
  outside : ∀ a, a / 4096 * 4096 ≠ tf → m' a = m a

theorem SavedRegs.nil (regs : Reg → BitVec 64) (tf : ℕ) (m : Mem) : SavedRegs [] regs tf m m :=
  ⟨fun _ h => (by cases h), fun _ _ => rfl, .refl _ _ _, fun _ _ => rfl⟩

theorem SavedRegs.cons {rs : List Reg} {regs : Reg → BitVec 64} {r : Reg} (hd : 4096 ∣ tf)
    (hr : r ∉ rs) (h : SavedRegs rs regs tf (m.store64 (tf + r.offset) (regs r).toNat) m') :
    SavedRegs (r :: rs) regs tf m m' := by
  obtain ⟨hlo, hhi⟩ := r.offset_le
  simp only [tfSize] at hhi
  constructor
  case regs =>
    rintro q hq
    rcases List.mem_cons.mp hq with rfl | hq
    · rw [h.rest q hr, Mem.load64_store64 (regs q).isLt]
    · exact h.regs q hq
  case rest =>
    intro q hq
    rw [List.mem_cons, not_or] at hq
    have := Reg.offset_apart hq.1
    rw [h.rest q hq.2, Mem.load64_store64_of_disjoint (by omega)]
  case header => exact (Mem.agreeOn_store64 (by omega)).trans h.header
  case outside =>
    intro a ha
    rw [h.outside a ha, Mem.store64_of_page_ne hd (by omega) ha]

/-- The stores of `uservec`. -/
theorem execAll_saves (hd : 4096 ∣ tf) : ∀ (rs : List Reg) {s : K}, rs.Nodup →
    MapsFrame s.hart.satp tf s.core.vm.mem → s.hart.regs .a0 = BitVec.ofNat 64 trapframeVa →
    ∃ m', execAll L (rs.map fun r => Instr.sd r r.offset .a0) s =
        .ok { s with core := s.core.setMem m' } ∧ SavedRegs rs s.hart.regs tf s.core.vm.mem m'
  | [], s, _, _, _ => ⟨s.core.vm.mem, rfl, .nil _ _ _⟩
  | r :: rs, s, hnodup, hmap, ha0 => by
    obtain ⟨hr, hnodup⟩ := List.nodup_cons.mp hnodup
    have hhi := r.offset_le.2
    simp only [tfSize] at hhi
    have hmap' := hmap.write (n := s.core.vm.mem.store64 (tf + r.offset) (s.hart.regs r).toNat)
      fun a ha => Mem.store64_of_page_ne hd (by omega) ha
    obtain ⟨m', hx, hm'⟩ := execAll_saves hd rs hnodup (s := ⟨s.core.setMem (s.core.vm.mem.store64
      (tf + r.offset) (s.hart.regs r).toNat), s.hart⟩) hmap' ha0
    refine ⟨m', ?_, hm'.cons hd hr⟩
    rw [List.map_cons, execAll, exec_sd hmap ha0 (by omega)]
    exact hx

/-- Loads from the trapframe to registers other than the base. -/
theorem execAll_loads : ∀ (rs : List (Reg × ℕ)) {s : K}, (∀ x ∈ rs, x.1 ≠ .a0 ∧ x.2 < 4096) →
    (rs.map Prod.fst).Nodup → MapsFrame s.hart.satp tf s.core.vm.mem →
    s.hart.regs .a0 = BitVec.ofNat 64 trapframeVa →
    ∃ regs, execAll L (rs.map fun x => Instr.ld x.1 x.2 .a0) s =
        .ok { s with hart := { s.hart with regs := regs } } ∧
      (∀ r, r ∉ rs.map Prod.fst → regs r = s.hart.regs r) ∧
      ∀ x ∈ rs, regs x.1 = BitVec.ofNat 64 (s.core.vm.mem.load64 (tf + x.2))
  | [], s, _, _, _, _ => ⟨s.hart.regs, rfl, fun _ _ => rfl, fun _ h => (by cases h)⟩
  | (r, off) :: rs, s, hok, hnodup, hmap, ha0 => by
    rw [List.map_cons] at hnodup
    obtain ⟨hr, hnodup⟩ := List.nodup_cons.mp hnodup
    obtain ⟨hne, hoff⟩ := hok _ List.mem_cons_self
    obtain ⟨regs, hx, hrest, hregs⟩ := execAll_loads rs (s := ⟨s.core, s.hart.setReg r
      (BitVec.ofNat 64 (s.core.vm.mem.load64 (tf + off)))⟩)
      (fun x hx => hok x (List.mem_cons_of_mem _ hx)) hnodup hmap
      ((s.hart.setReg_ne _ hne.symm).trans ha0)
    refine ⟨regs, ?_, fun q hq => ?_, fun x hx => ?_⟩
    · rw [List.map_cons, execAll, exec_ld hmap ha0 hoff]
      exact hx
    · rw [List.map_cons, List.mem_cons, not_or] at hq
      exact (hrest q hq.2).trans (s.hart.setReg_ne _ hq.1)
    · rcases List.mem_cons.mp hx with rfl | hx
      · exact (hrest r hr).trans (s.hart.setReg_self _ _)
      · exact hregs x hx

/-! ### `uservec` -/

/-- The registers `uservec` loads for the kernel. -/
def kernelRegs : List (Reg × ℕ) :=
  [(.sp, tfKernelSp), (.tp, tfKernelHartid), (.t0, tfKernelTrap), (.t1, tfKernelSatp)]

/-- `uservec` in parts. -/
theorem uservec_eq : uservec = [.csrwSscratch .a0, .liTrapframe .a0] ++
    ((savedRegs.map fun r => .sd r r.offset .a0) ++ ([.csrrSscratch .t0,
      .sd .t0 Reg.a0.offset .a0] ++
    ((kernelRegs.map fun x => .ld x.1 x.2 .a0) ++ [.fence, .csrwSatp .t1, .fence]))) := rfl

/-- `userret` in parts. -/
theorem userret_eq : userret = [.fence, .fence, .csrwSatp .a0, .fence, .liTrapframe .a0] ++
    (((savedRegs.map fun r => (r, r.offset)).map fun x => .ld x.1 x.2 .a0) ++
      [.ld .a0 Reg.a0.offset .a0]) := rfl

theorem execAll_append_of_ok {is js : List Instr} {t : K} (h : execAll L is s = .ok t) :
    execAll L (is ++ js) s = execAll L js t := by
  rw [execAll_append, h]
  rfl

/-- **`uservec`** stores the registers of the process in its trapframe and enters the kernel. -/
theorem uservec_ok (hd : 4096 ∣ tf) (hmap : MapsFrame s.hart.satp tf s.core.vm.mem)
    (hsatp : BitVec.ofNat 64 (s.core.vm.mem.load64 (tf + tfKernelSatp)) = satp)
    (htramp : ∀ m' : Mem, (∀ a, a / 4096 * 4096 ≠ tf → m' a = s.core.vm.mem a) →
      translate m' satp trampolineVa pteX = some L.trampoline) :
    ∃ m' regs, execAll L uservec s = .ok ⟨s.core.setMem m',
        { s.hart with regs := regs, sscratch := s.hart.regs .a0, satp := satp }⟩ ∧
      (∀ r : Reg, m'.load64 (tf + r.offset) = (s.hart.regs r).toNat) ∧
      Mem.AgreeOn s.core.vm.mem m' tf 40 ∧
      (∀ a, a / 4096 * 4096 ≠ tf → m' a = s.core.vm.mem a) ∧
      ∀ x ∈ kernelRegs, regs x.1 = BitVec.ofNat 64 (m'.load64 (tf + x.2)) := by
  obtain ⟨h₁, hh₁⟩ : ∃ h₁ : Hart, h₁ = { s.hart with
    regs := Function.update s.hart.regs .a0 (BitVec.ofNat 64 trapframeVa),
    sscratch := s.hart.regs .a0 } := ⟨_, rfl⟩
  have ha0 : h₁.regs .a0 = BitVec.ofNat 64 trapframeVa := by
    rw [hh₁]
    exact Function.update_self Reg.a0 _ s.hart.regs
  have hne : ∀ r, r ≠ .a0 → h₁.regs r = s.hart.regs r := fun r hr => by
    rw [hh₁]
    exact Function.update_of_ne hr _ s.hart.regs
  have hsatp₁ : h₁.satp = s.hart.satp := by rw [hh₁]
  -- the registers but `a0`, which is in `sscratch`
  obtain ⟨m₁, hx₁, hm₁⟩ := execAll_saves (L := L) hd savedRegs (s := ⟨s.core, h₁⟩) (by decide)
    (hsatp₁ ▸ hmap) ha0
  have hmap₁ : MapsFrame h₁.satp tf m₁ := hsatp₁ ▸ hmap.write hm₁.outside
  -- `a0`
  obtain ⟨m₂, hm₂⟩ : ∃ m₂, m₂ = m₁.store64 (tf + Reg.a0.offset) (s.hart.regs .a0).toNat := ⟨_, rfl⟩
  have hout₂ : ∀ a, a / 4096 * 4096 ≠ tf → m₂ a = m₁ a := fun a ha => by
    rw [hm₂]
    exact Mem.store64_of_page_ne hd (by decide) ha
  have hout : ∀ a, a / 4096 * 4096 ≠ tf → m₂ a = s.core.vm.mem a := fun a ha =>
    (hout₂ a ha).trans (hm₁.outside a ha)
  have hhead : Mem.AgreeOn s.core.vm.mem m₂ tf 40 := by
    refine hm₁.header.trans ?_
    rw [hm₂]
    exact Mem.agreeOn_store64 (.inr (by simp only [Reg.offset]; omega))
  have hx₂ : execAll L [.csrrSscratch .t0, .sd .t0 Reg.a0.offset .a0] ⟨s.core.setMem m₁, h₁⟩ =
      .ok ⟨s.core.setMem m₂, h₁.setReg .t0 (s.hart.regs .a0)⟩ := by
    have hscratch : h₁.sscratch = s.hart.regs .a0 := by rw [hh₁]
    show execAll L [.sd .t0 Reg.a0.offset .a0] ⟨s.core.setMem m₁, h₁.setReg .t0 h₁.sscratch⟩ = _
    rw [hscratch, execAll, exec_sd (s := ⟨s.core.setMem m₁, h₁.setReg .t0 (s.hart.regs .a0)⟩) hmap₁
      ((h₁.setReg_ne _ (by decide)).trans ha0) (by decide), Hart.setReg_self]
    exact hm₂ ▸ rfl
  -- the registers of the kernel
  obtain ⟨regs, hx₃, -, hregs⟩ := execAll_loads (L := L) kernelRegs (s := ⟨s.core.setMem m₂,
    h₁.setReg .t0 (s.hart.regs .a0)⟩) (by decide) (by decide) (hmap₁.write hout₂)
    ((h₁.setReg_ne _ (by decide)).trans ha0)
  have ht1 : regs .t1 = satp := by
    rw [hregs (.t1, tfKernelSatp) (by decide), ← hsatp]
    exact congrArg (BitVec.ofNat 64)
      (hhead.mono (by omega) (by simp only [tfKernelSatp]; omega)).load64_eq
  refine ⟨m₂, regs, ?_, fun r => ?_, hhead, hout, hregs⟩
  · rw [uservec_eq, execAll_append_of_ok (t := ⟨s.core, h₁⟩) (by rw [hh₁]; rfl),
      execAll_append_of_ok hx₁, execAll_append_of_ok hx₂, execAll_append_of_ok hx₃]
    show execAll L [.csrwSatp .t1, .fence] _ = _
    rw [execAll, exec_csrwSatp (s := ⟨s.core.setMem m₂, { h₁.setReg .t0 (s.hart.regs .a0) with
      regs := regs }⟩) ht1 (htramp m₂ hout), hh₁]
    rfl
  · rw [hm₂]
    by_cases hr : r = .a0
    · rw [hr, Mem.load64_store64 (s.hart.regs .a0).isLt]
    · have := Reg.offset_apart hr
      rw [Mem.load64_store64_of_disjoint (by omega), hm₁.regs r (mem_savedRegs hr)]
      exact congrArg BitVec.toNat (hne r hr)

/-- **`userret`** takes the registers of the process from its trapframe. -/
theorem userret_ok (ha0 : s.hart.regs .a0 = satp) (hmap : MapsFrame satp tf s.core.vm.mem)
    (htramp : translate s.core.vm.mem satp trampolineVa pteX = some L.trampoline) :
    ∃ regs, execAll L userret s = .ok ⟨s.core, { s.hart with regs := regs, satp := satp }⟩ ∧
      ∀ r : Reg, regs r = BitVec.ofNat 64 (s.core.vm.mem.load64 (tf + r.offset)) := by
  obtain ⟨h₁, hh₁⟩ : ∃ h₁ : Hart, h₁ = Hart.setReg { s.hart with satp := satp } .a0
    (BitVec.ofNat 64 trapframeVa) := ⟨_, rfl⟩
  have ha0₁ : h₁.regs .a0 = BitVec.ofNat 64 trapframeVa := by rw [hh₁, Hart.setReg_self]
  have hsatp₁ : h₁.satp = satp := by rw [hh₁]; rfl
  have hx₁ : execAll L [.fence, .fence, .csrwSatp .a0, .fence, .liTrapframe .a0] s =
      .ok ⟨s.core, h₁⟩ := by
    show execAll L [.csrwSatp .a0, .fence, .liTrapframe .a0] s = _
    rw [execAll, exec_csrwSatp ha0 htramp, hh₁]
    rfl
  obtain ⟨regs, hx₂, hrest, hregs⟩ := execAll_loads (L := L) (savedRegs.map fun r => (r, r.offset))
    (s := ⟨s.core, h₁⟩) (by decide) (by decide) (hsatp₁ ▸ hmap) ha0₁
  have ha0₂ : regs .a0 = BitVec.ofNat 64 trapframeVa := (hrest .a0 (by decide)).trans ha0₁
  -- `a0` comes last, as it is the base of the loads
  refine ⟨Function.update regs .a0 (BitVec.ofNat 64 (s.core.vm.mem.load64 (tf + Reg.a0.offset))),
    ?_, fun r => ?_⟩
  · rw [userret_eq, execAll_append_of_ok hx₁, execAll_append_of_ok hx₂, execAll,
      exec_ld (s := ⟨s.core, { h₁ with regs := regs }⟩) (hsatp₁ ▸ hmap) ha0₂ (by decide), hh₁]
    rfl
  · by_cases hr : r = .a0
    · rw [hr, Function.update_self]
    · rw [Function.update_of_ne hr]
      exact hregs (r, r.offset) (List.mem_map_of_mem (mem_savedRegs hr))

/-! ### The labels around user mode -/

theorem Header.congr (h : Header L S c p) (hm : Mem.AgreeOn c.vm.mem m' (c.procs p).trapframe 40) :
    Header L S (c.setMem m') p := by
  have hload : ∀ off, off + 8 ≤ 40 → (c.setMem m').tfLoad p off = c.tfLoad p off := by
    intro off hoff
    show BitVec.ofNat 64 (m'.load64 ((c.procs p).trapframe + off)) = _
    rw [(hm.mono (by omega) (by omega)).load64_eq, Core.tfLoad]
  exact ⟨(hload _ (by decide)).trans h.satp, (hload _ (by decide)).trans h.sp,
    (hload _ (by decide)).trans h.trap, (hload _ (by decide)).trans h.hartid⟩

theorem Ready.setMem (h : Ready L S p c) (hm : Mem.AgreeOn c.vm.mem m' (c.procs p).trapframe 40) :
    Ready L S p (c.setMem m') :=
  ⟨h.cproc, h.chan, h.complete, h.killed, h.booted, h.header.congr hm⟩

theorem Ready.emit (h : Ready L S p c) (e : Event) : Ready L S p (c.emit e) :=
  ⟨h.cproc, h.chan, h.complete, h.killed, h.booted,
    ⟨h.header.satp, h.header.sp, h.header.trap, h.header.hartid⟩⟩

theorem Ready.devices {claim : BitVec 32} {rx input : List UInt8} (h : Ready L S p c) :
    Ready L S p { c with claim := claim, rx := rx, input := input } :=
  ⟨h.cproc, h.chan, h.complete, h.killed, h.booted,
    ⟨h.header.satp, h.header.sp, h.header.trap, h.header.hartid⟩⟩

/-- The hart in the kernel, with the registers it has taken from the trapframe. -/
def Hart.entering (h : Hart) (S : Site) (regs : Reg → BitVec 64) : Hart :=
  { h with regs := regs, sscratch := h.regs .a0, satp := satpOf S.kpt }

/-- The hart on the page table of the process, with the registers of the process. -/
def Hart.leaving (h : Hart) (pt : ℕ) (regs : Reg → BitVec 64) : Hart :=
  { h with regs := regs, satp := satpOf pt }

/-- `uservec` by a process that can trap. -/
theorem Ready.uservec (hr : Ready L S p s.core) (hg : Good L S s.core)
    (hsatp : s.hart.satp = satpOf (s.core.procs p).pagetable) :
    ∃ m' regs, trampolineCode L uservec s = .ok ((), ⟨s.core.setMem m', s.hart.entering S regs⟩) ∧
      Good L S (s.core.setMem m') ∧ Spares (· = p) s.core (s.core.setMem m') ∧
      Ready L S p (s.core.setMem m') ∧
      (∀ r : Reg, (s.core.setMem m').tfLoad p r.offset = s.hart.regs r) ∧
      regs .t0 = BitVec.ofNat 64 L.usertrap ∧
      regs .sp = BitVec.ofNat 64 ((s.core.procs p).kstack + pgsize) ∧ regs .tp = 0 := by
  have hcp := hr.cproc
  obtain ⟨m', regs, hx, hsaved, hhead, hout, hkernel⟩ := uservec_ok (L := L) (s := s)
    (hg.trapframe_lt hcp).1 (hsatp ▸ hg.mapsFrame hcp) hr.header.satp
    fun m' hm' => (hg.setFrame hcp hm').1.translate_kernel
  obtain ⟨hg', hsp⟩ := hg.setFrame hcp hout
  have hr' := hr.setMem hhead
  have hload : ∀ x ∈ kernelRegs, regs x.1 = (s.core.setMem m').tfLoad p x.2 := hkernel
  refine ⟨m', regs, by rw [trampolineCode, hx]; rfl, hg', hsp, hr', fun r => ?_, ?_, ?_, ?_⟩
  · refine (congrArg (BitVec.ofNat 64) (hsaved r)).trans ?_
    rw [BitVec.ofNat_toNat, BitVec.setWidth_eq]
  · exact (hload (.t0, tfKernelTrap) (by decide)).trans hr'.header.trap
  · rw [show (s.core.procs p).kstack = kstackVa p from (hg.slot p).kstack]
    exact (hload (.sp, tfKernelSp) (by decide)).trans hr'.header.sp
  · exact (hload (.tp, tfKernelHartid) (by decide)).trans hr'.header.hartid

/-- `userret` to a process that can trap. -/
theorem Ready.userret (hr : Ready L S p s.core) (hg : Good L S s.core) : ∃ regs,
    trampolineCode L userret ⟨s.core, s.hart.setReg .a0 (satpOf (s.core.procs p).pagetable)⟩ =
        .ok ((), ⟨s.core, s.hart.leaving (s.core.procs p).pagetable regs⟩) ∧
      ∀ r : Reg, regs r = s.core.tfLoad p r.offset := by
  have hcp := hr.cproc
  obtain ⟨regs, hx, hregs⟩ := userret_ok (L := L) (s := ⟨s.core, s.hart.setReg .a0
    (satpOf (s.core.procs p).pagetable)⟩) (s.hart.setReg_self _ _) (hg.mapsFrame hcp)
    (hg.translate_user hcp)
  exact ⟨regs, by rw [trampolineCode, hx]; rfl, hregs⟩

/-- **The trampoline on the way in.** -/
theorem vector_wp (hI : (N.discipline L S).Inv L s) (h : TrapOk L S .vector s) :
    (N.discipline L S).wp L (vector L) (Arrives L S (N.discipline L S) s) s := by
  obtain ⟨hborder, p, t, hready, htrapped, hsatp, hregs, htrap, hctx⟩ := h
  have hstill := Discipline.Still.of_inv hI htrapped.sie hborder.noff
  have hg : Good L S s.core := hstill.good
  refine Discipline.wp_bind (hstill.getHart ?_)
  rw [if_neg (not_not.mpr hborder.stvec)]
  obtain ⟨m', regs, hx, hg', hsp, hready', hsaved, ht0, hsp', htp⟩ := hready.uservec hg hsatp
  refine Discipline.wp_bind (hstill.atomic hx ((hstill.core hg').hart rfl rfl rfl rfl) ?_)
  replace hstill := (hstill.core hg').hart (x := s.hart.entering S regs) rfl rfl rfl rfl
  refine Discipline.wp_bind (hstill.getHart (Discipline.wp_bind (hstill.getCore ?_)))
  rw [show (s.core.setMem m').cproc = some p from hready.cproc]
  refine Discipline.wp_bind (Discipline.wp_pure hstill.inv (Discipline.wp_bind (hstill.getCore
    (Discipline.wp_bind (hstill.getCore ?_)))))
  rw [if_pos ⟨ht0, hsp', htp, congrArg satpOf hg.kernel.symm⟩]
  refine Discipline.wp_pure hstill.inv (.of_spares (.inr ⟨⟨hborder.noff, hborder.stvec⟩, p, t,
    hready', ⟨htrapped.supervisor, htrapped.sie, htrapped.spp, htrapped.sepc, htrapped.scause⟩, rfl,
    htp, fun r => ?_, htrap, hctx⟩) hready.cproc hsp)
  rw [hsaved, hregs]

/-- By itself the trampoline leads to `usertrap`. -/
theorem run_vector (hg : Good L S s.core) (h : TrapOk L S .vector s) :
    ∃ m' regs, (vector L).run s = .ok (.usertrap, ⟨s.core.setMem m', s.hart.entering S regs⟩) := by
  obtain ⟨hborder, p, t, hready, -, hsatp, -⟩ := h
  obtain ⟨m', regs, hx, -, -, -, -, ht0, hsp, htp⟩ := hready.uservec hg hsatp
  refine ⟨m', regs, ?_⟩
  rw [vector, getHart, Prog.run_read_bind, if_neg (not_not.mpr hborder.stvec),
    Prog.run_bind_of_ok ((Prog.run_atomic _).trans hx), getHart, Prog.run_read_bind, getCore,
    Prog.run_read_bind, show (s.core.setMem m').cproc = some p from hready.cproc]
  show (if _ then _ else _ : KernelM Label).run _ = _
  rw [if_pos ⟨ht0, hsp, htp, congrArg satpOf hg.kernel.symm⟩]
  rfl

/-- **The trampoline on the way out**: the process resumes with the registers it is owed. -/
theorem userretCode_wp (hq : ¬N.Quiet) (hI : (N.discipline L S).Inv L s)
    (h : TrapOk L S (.userret satp) s) :
    (N.discipline L S).wp L (userretCode L satp) (Arrives L S (N.discipline L S) s) s := by
  obtain ⟨hborder, hsup, hsie, -, hspp, p, hready, hw, hset, hsepc, rfl⟩ := h
  have hcp := hready.cproc
  have hstill := Discipline.Still.of_inv hI hsie hborder.noff
  have hg : Good L S s.core := hstill.good
  refine Discipline.wp_bind (hstill.modHart (hstill.hart rfl rfl rfl rfl) ?_)
  replace hstill := hstill.hart (x := s.hart.setReg .a0 (satpOf (s.core.procs p).pagetable)) rfl rfl
    rfl rfl
  obtain ⟨regs, hx, hregs⟩ := hready.userret hg
  refine Discipline.wp_bind (hstill.atomic hx (hstill.hart rfl rfl rfl rfl) ?_)
  replace hstill := hstill.hart (x := s.hart.leaving (s.core.procs p).pagetable regs)
    rfl rfl rfl rfl
  refine Discipline.wp_bind (hstill.getHart (Discipline.wp_bind (hstill.getCore ?_)))
  rw [hcp]
  refine Discipline.wp_bind (Discipline.wp_pure hstill.inv ?_)
  rw [if_neg (by rw [show (s.hart.leaving _ regs).spp = false from hspp]; decide)]
  have hself : history (.resume p regs s.hart.sepc :: s.core.log) p = history s.core.log p := rfl
  have hg' : Good L S (s.core.emit (.resume p regs s.hart.sepc)) := by
    refine hg.emit rfl trivial ⟨hset, fun x hxx => ?_⟩ (hg.slot p) (fun hf => hg.boot hf p)
    have hframe := hw.frame x hxx
    exact ⟨funext fun r => (hregs r).trans (hframe.regs r), hsepc.trans hframe.pc⟩
  have hinv : (N.discipline L S).Inv L ⟨s.core.emit (.resume p regs s.hart.sepc),
      (s.hart.leaving (s.core.procs p).pagetable regs).sret⟩ := by
    refine ⟨⟨?_, fun hp => ?_, fun hv => ?_, fun h => absurd h hq⟩, fun _ => hg'⟩
    · exact hI.1.count
    · exact absurd hp (by simp [Hart.sret, Hart.leaving, hborder.noff])
    · exact absurd hv (by simp [Hart.sret, Hart.leaving, hspp])
  refine Discipline.wp_bind (hstill.update hinv (Discipline.wp_pure hinv (.of_spares (.inr
    ⟨⟨hborder.noff, hborder.stvec⟩, hspp, p, hready.emit _, rfl⟩) hcp (.of_eq rfl rfl))))

/-- By itself the trampoline leads to user mode. -/
theorem run_userretCode (hg : Good L S s.core) (h : TrapOk L S (.userret satp) s)
    (hp : s.core.cproc = some p) : ∃ t regs, (userretCode L satp).run s = .ok (.user, t) ∧
      t.core = s.core.emit (.resume p regs s.hart.sepc) := by
  obtain ⟨-, -, -, -, hspp, q, hready, -, -, -, rfl⟩ := h
  obtain rfl : p = q := Option.some.inj (hp.symm.trans hready.cproc)
  obtain ⟨regs, hx, -⟩ := hready.userret hg
  refine ⟨⟨s.core.emit (.resume p regs s.hart.sepc),
    (s.hart.leaving (s.core.procs p).pagetable regs).sret⟩, regs, ?_, rfl⟩
  rw [userretCode, modHart, Prog.run_update_bind, Prog.run_bind_of_ok
    ((Prog.run_atomic _).trans hx),
    getHart, Prog.run_read_bind, getCore, Prog.run_read_bind, hready.cproc]
  show (if (s.hart.leaving _ regs).spp then _ else _ : KernelM Label).run _ = _
  rw [if_neg (by rw [show (s.hart.leaving _ regs).spp = false from hspp]; decide)]
  rfl

/-- What user code writes are its own pages. -/
theorem UserStores.userWrite {o : Owners} {v : Vm} (h : UserStores (satpOf pt) v.mem m')
    (ht : Tables v.mem o) (hd : 4096 ∣ pt) (hlt : pt < 2 ^ 56) (hr : o pt = some (.table pt 2 0)) :
    UserWrite o pt v.mem m' := by
  rw [UserStores, satpRoot_satpOf hd hlt] at h
  intro a ha
  refine h a fun va hva heq => ?_
  refine ha (va / 4096) ?_
  rw [heq, hva.1.page ht hr]

/-- An interrupt changes nothing else than what the devices hold. -/
theorem Irq.devices_eq (irq : Irq) (scause : BitVec 64) (c : Core) : ∃ claim rx input,
    irq.devices scause c = { c with claim := claim, rx := rx, input := input } := by
  cases irq with
  | timer => exact ⟨c.claim, c.rx, c.input, rfl⟩
  | external claim rx =>
    rw [Irq.devices]
    split_ifs
    · exact ⟨_, _, _, rfl⟩
    · exact ⟨_, _, _, rfl⟩

/-- **User mode.** -/
theorem userStep_ok {a b : Label} {t : K} (hq : ¬N.Quiet) (hI : (N.discipline L S).Inv L s)
    (hpre : Pre L S (N.discipline L S) a s) (h : UserStep (a, s) (b, t)) :
    (N.discipline L S).Inv L t ∧ Pre L S (N.discipline L S) b t := by
  cases h with
  | @compute _ m' regs pc hm =>
    obtain ⟨_, _, _, _, hfalse⟩ | ⟨hborder, hsup, p, hready, hsatp⟩ := hpre
    · exact absurd hfalse id
    have hcp := hready.cproc
    have hg : Good L S s.core := hI.2 hborder.noff
    obtain ⟨o, hsp⟩ := hg.spaces
    have hspace := hg.spaces_running hcp
    obtain ⟨hd, -, hlt⟩ := hsp.pagetable_lt hspace
    rw [hsatp] at hm
    obtain ⟨hsp', hkept, hframe⟩ := hsp.procWrite hspace (hm.userWrite hsp.inv.tables hd
      (hlt.trans_le (L.phystop_le.trans (by decide))) (hsp.owned p _ hspace).root)
    refine ⟨⟨⟨hI.1.count, hI.1.masked, hI.1.vector, fun h => absurd h hq⟩,
      fun _ => hg.setVm hcp hkept ⟨o, hsp'⟩⟩, .inr ⟨⟨hborder.noff, hborder.stvec⟩, hsup, p,
      hready.setMem (hframe.mono le_rfl (Nat.add_le_add_left (by decide) _)), hsatp⟩⟩
  | @trap _ i hi scause stval irq =>
    obtain ⟨_, _, _, _, hfalse⟩ | ⟨hborder, hsup, p, hready, hsatp⟩ := hpre
    · exact absurd hfalse id
    obtain rfl : p = i := Option.some.inj (hready.cproc.symm.trans hi)
    have hg : Good L S s.core := hI.2 hborder.noff
    have hself : history (.trap p s.hart.regs s.hart.pc scause :: s.core.log) p =
        { history s.core.log p with
          trap := some ⟨s.hart.regs, s.hart.pc, scause⟩
          returned := none
          ctx := some (Trap.resume ⟨s.hart.regs, s.hart.pc, scause⟩) } := Function.update_self ..
    have hg' : Good L S (s.core.emit (.trap p s.hart.regs s.hart.pc scause)) := by
      refine hg.emit rfl trivial trivial ?_ fun hf => ?_
      · rw [hself]
        exact (hg.slot p).observe (hg.state_running hi) (.inr hready.chan)
          (.inr hready.killed) rfl rfl
      · rw [hready.booted] at hf
        cases hf
    obtain ⟨claim, rx, input, hdev⟩ := irq.devices_eq scause
      (s.core.emit (.trap p s.hart.regs s.hart.pc scause))
    rw [hdev]
    refine ⟨⟨⟨hI.1.count, fun _ => rfl, fun _ => .inr ⟨rfl, hborder.noff⟩, fun h => absurd h hq⟩,
      fun _ => hg'.devices⟩, .inr ⟨⟨hborder.noff, hborder.stvec⟩, p,
      ⟨s.hart.regs, s.hart.pc, scause⟩, (hready.emit _).devices, ⟨rfl, rfl, hsup, rfl, rfl⟩,
      hsatp, rfl, ?_, ?_⟩⟩
    · exact congrArg History.trap hself
    · exact congrArg History.ctx hself

end OsKernel
