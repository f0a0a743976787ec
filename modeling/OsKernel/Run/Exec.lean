import OsKernel.Run.Calls

/-!
# `exec` in every run

`kexec` builds the new image in a page table of its own and commits to it at the end. Wherever it
fails, the page table is taken down again and the process has what it had. If it succeeds, every
byte of the image is known: the binary, as it lies in the image of the kernel, and zeros. So nothing
of the old image is left in the new one.

The results are about `kexec` by itself, from any reachable state of a process that holds no lock;
interrupt handlers do not touch memory.
-/

namespace OsKernel

variable {L : Layout} {image : Mem} {fails : ℕ → Bool} {d : System.Config K Panic Label}
  {S : Site} {c c' : Core} {m : Mem} {j p : Slot} {s t : K} {v : BitVec 32} {path : List UInt8}
  {start size : ℕ}

/-- The program under a path: where its binary begins, and how long it is. -/
def Core.Program (L : Layout) (c : Core) (path : List UInt8) (start size : ℕ) : Prop :=
  ∃ up, c.findUprog L (path.take (trimLen path path.length)) = .found up ∧
    start = c.vm.mem.load64 up ∧ size = execSize start (c.vm.mem.load64 (up + 8))

theorem Core.Program.unique {start' size' : ℕ} (h : c.Program L path start size)
    (h' : c.Program L path start' size') : start = start' ∧ size = size' := by
  obtain ⟨up, hup, hstart, hsize⟩ := h
  obtain ⟨up', hup', hstart', hsize'⟩ := h'
  obtain rfl : up = up' := Lookup.found.inj (hup.symm.trans hup')
  obtain rfl : start = start' := hstart.trans hstart'.symm
  exact ⟨rfl, hsize.trans hsize'.symm⟩

/-- The byte that the process `p` finds at a virtual address. -/
def Core.userByte (c : Core) (p : Slot) (va : ℕ) : UInt8 :=
  c.vm.mem (c.vm.mem.phys (c.procs p).pagetable va)

/-- **Nothing**: the process table is as it was, and every process has what it had. -/
structure ExecKept (c c' : Core) : Prop where
  procs : ∀ j, c'.procs j = c.procs j
  memory : ∀ j, (c.procs j).state ≠ .unused → c.Untouched c' j

/-- **All**: the process `p` has the image of the binary from `start` on, in fresh pages, and starts
at its beginning. -/
structure ExecLoads (L : Layout) (image : Mem) (p : Slot) (start size : ℕ) (c c' : Core) :
    Prop where
  sz : (c'.procs p).sz = pgRoundUp size + 3 * pgsize
  binary : start + size ≤ L.heap → ∀ k, k < size → c'.userByte p k = image (start + k)
  zero : ∀ k, size ≤ k → k < (c'.procs p).sz → c'.userByte p k = 0
  pages : ∀ w, w * 4096 < (c'.procs p).sz → ∃ q,
    c'.vm.mem.meaning (c'.procs p).pagetable w =
      some (q, pteV ||| pteR ||| pteW ||| pteX ||| pteU) ∧
    ∀ j w' q' fl, (c.procs j).state ≠ .unused → w' < 2 ^ 27 →
      c.vm.mem.meaning (c.procs j).pagetable w' = some (q', fl) → q' ≠ q
  trapframe : c'.vm.mem.meaning (c'.procs p).pagetable (trapframeVa / 4096) =
    some ((c.procs p).trapframe, pteR ||| pteW ||| pteV)
  trampoline : c'.vm.mem.meaning (c'.procs p).pagetable (trampolineVa / 4096) =
    some (L.trampoline, pteR ||| pteX ||| pteV)
  epc : c'.tfLoad p tfEpc = 0
  sp : c'.tfLoad p Reg.sp.offset = BitVec.ofNat 64 (c'.procs p).sz
  regs : ∀ r : Reg, r ≠ .sp → c'.tfLoad p r.offset = c.tfLoad p r.offset

/-! ### Failure -/

theorem ExecFailed.kept {kpt : ℕ} {o : Owners} (h : ExecFailed L image kpt c.spaces c c')
    (hsp : Spaces L image kpt c.vm c.spaces o noRole) : ExecKept c c' := by
  obtain ⟨s', o', rfl, hkept, -⟩ := h
  have hspares : Spares (fun _ => False) c (c.setVm s') :=
    ⟨fun _ _ _ h => h, fun i sp _ => hkept.frames i sp, fun i sp _ => hkept.space i sp⟩
  exact ⟨fun _ => rfl, fun j hj =>
    hspares.untouched (S := ⟨image, kpt, 0, False⟩) hsp hj id⟩

/-! ### Success -/

/-- The pages a user page table maps. -/
theorem UserMap.cases {r sz tf w q fl : ℕ} (h : UserMap L m r sz tf) (hw : w < 2 ^ 27)
    (hm : m.meaning r w = some (q, fl)) : fl &&& pteU ≠ 0 ∨ q = tf ∨ q = L.trampoline := by
  by_cases hsz : w * 4096 < pgRoundUp sz
  · obtain ⟨q', hq'⟩ := h.user w hsz
    rw [hm, Option.some.injEq, Prod.mk.injEq] at hq'
    rw [hq'.2]
    exact .inl (by decide)
  by_cases htf : w = trapframeVa / 4096
  · rw [htf, h.trapframe, Option.some.injEq, Prod.mk.injEq] at hm
    exact .inr (.inl hm.1.symm)
  by_cases htr : w = trampolineVa / 4096
  · rw [htr, h.trampoline, Option.some.injEq, Prod.mk.injEq] at hm
    exact .inr (.inr hm.1.symm)
  · rw [h.empty w hw (Nat.not_lt.mp hsz) htf htr] at hm
    cases hm

/-! The trapframe after the assignments of `kexec`. -/

section

variable {tf total : ℕ}

theorem execFrame_epc : (execFrame m tf total).load64 (tf + tfEpc) = 0 := by
  rw [execFrame, Mem.load64_store64_of_disjoint (by simp only [Reg.offset, tfEpc]; omega),
    Mem.load64_store64 (by decide)]

theorem execFrame_sp (h : total < 2 ^ 64) :
    (execFrame m tf total).load64 (tf + Reg.sp.offset) = total := by
  rw [execFrame, BitVec.toNat_ofNat, Nat.mod_eq_of_lt h, Mem.load64_store64 h]

theorem execFrame_of_apart {off : ℕ} (hepc : off + 8 ≤ tfEpc ∨ tfEpc + 8 ≤ off)
    (hsp : off + 8 ≤ Reg.sp.offset ∨ Reg.sp.offset + 8 ≤ off) :
    (execFrame m tf total).load64 (tf + off) = m.load64 (tf + off) := by
  rw [execFrame, Mem.load64_store64_of_disjoint (by omega),
    Mem.load64_store64_of_disjoint (by omega)]

end

/-- The page tables there were map none of the pages of the new image. -/
theorem Loaded.fresh_page {kpt pt w q w' q' fl : ℕ} {o o' : Owners} {m' : Vm} {total : ℕ}
    (h : Loaded L c.vm.mem m'.mem c.spaces pt start size)
    (hsp : Spaces L image kpt c.vm c.spaces o noRole)
    (hsp' : Spaces L image kpt m'
      (Function.update c.spaces p (some ⟨(c.procs p).trapframe, pt, total⟩)) o' noRole)
    (hw : w * 4096 < execTotal size) (hq : o' q = some (.user pt w))
    (hpa : pte2pa (m'.mem.entry pt w) = q) (hj : (c.procs j).state ≠ .unused) (hw' : w' < 2 ^ 27)
    (hm : c.vm.mem.meaning (c.procs j).pagetable w' = some (q', fl)) : q' ≠ q := by
  rintro rfl
  have hown := hsp.owned j _ (Core.spaces_of_ne hj)
  obtain ⟨hdvd, -, hlt⟩ := hsp.inv.tables.page hown.trapframe
  rcases (hown.shape.userMap hdvd hlt).cases hw' hm with hu | htf | htr
  · obtain ⟨-, hpa', hfl⟩ := leafMeaning_eq_some.mp hm
    rw [← hfl, ← and_eq_pteFlags_and (by decide)] at hu
    have hread : c.vm.mem.Readable (c.procs j).pagetable (w' * 4096) := by
      have hsz := hown.shape.lt_of_user hw' hu
      have hle := hown.shape.size_le
      exact ⟨hsz.trans_le hle, by rw [Nat.mul_div_cancel _ (Nat.succ_pos _)]; exact hu⟩
    have hne := h.fresh _ hw j _ _ (Core.spaces_of_ne hj) hread
    rw [Nat.mul_div_cancel _ (Nat.succ_pos _), Nat.mul_div_cancel _ (Nat.succ_pos _)] at hne
    exact hne (hpa'.trans hpa.symm)
  · -- trapframes stay
    have hframe : o' (c.procs j).trapframe = some (.trapframe j) := by
      by_cases hjp : j = p
      · subst hjp
        exact (hsp'.owned j _ (Function.update_self ..)).trapframe
      · exact (hsp'.owned j (c.procs j).space (by
          rw [Function.update_of_ne hjp, Core.spaces_of_ne hj])).trapframe
    rw [htf] at hq
    exact absurd (hq.symm.trans hframe) (by simp)
  · -- the trampoline is no page of the heap
    have hheap := hsp'.inv.heap_le_page hq
    have := L.trampoline_lt_etext
    have := L.etext_le_kend
    have := L.kend_le_heap
    omega

theorem Execed.loads {kpt pt : ℕ} {o : Owners} {name : List UInt8}
    (h : Execed L image kpt c.spaces p (c.procs p).trapframe pt start size name c c')
    (hsp : Spaces L image kpt c.vm c.spaces o noRole) : ExecLoads L image p start size c c' := by
  obtain ⟨s₁, s₂, o', hc', -, hsp', hloaded, hframe, -⟩ := h
  have hvm : c'.vm = s₂ := by rw [hc']; rfl
  have hproc : c'.procs p = Proc.withImage pt (execTotal size)
      (safestrcpy (c.procs p).name name 16) (c.procs p) := by
    rw [hc', execCommit_setVm]
    exact (c.emit (.execed p)).setProc_self p _
  have hpt : (c'.procs p).pagetable = pt := by rw [hproc]; rfl
  have hsz : (c'.procs p).sz = execTotal size := by rw [hproc]; rfl
  have htf : (c'.procs p).trapframe = (c.procs p).trapframe := by rw [hproc]; rfl
  have hbyte : ∀ k, c'.userByte p k = s₂.mem (s₂.mem.phys pt k) := fun k => by
    rw [Core.userByte, hvm, hpt]
  have hload : ∀ off, off + 8 ≤ 4096 → c'.tfLoad p off = BitVec.ofNat 64
      ((execFrame c.vm.mem (c.procs p).trapframe (execTotal size)).load64
        ((c.procs p).trapframe + off)) := fun off hoff => by
    rw [Core.tfLoad, hvm, htf, (hframe.mono (by omega) (by omega)).load64_eq]
  have hown := hsp'.owned p _ (Function.update_self ..)
  obtain ⟨hdvd, -, hlt⟩ := hsp'.inv.tables.page hown.trapframe
  have hmap := hown.shape.userMap hdvd hlt
  have htotal := execTotal_lt size
  have hsize := hloaded.total
  have hle := hown.shape.size_le
  constructor
  case sz =>
    rw [hsize] at hle
    rw [hsz, hsize, pgRoundUp, pgsize, wordSize, Nat.mod_eq_of_lt (by omega)]
    omega
  case binary =>
    intro hheap k hk
    rw [hbyte, hloaded.bytes hheap k hk]
    exact hsp.image _ (by omega)
  case zero =>
    intro k hlo hk
    rw [hsz] at hk
    rw [hbyte, hloaded.zero k hlo hk]
  case pages =>
    intro w hw
    rw [hsz] at hw
    obtain ⟨q, hq⟩ := hmap.user w (hown.shape.lt_pgRoundUp_iff.mpr hw)
    have hw' : w < 2 ^ 27 := by
      have := hw.trans_le hle
      omega
    obtain ⟨-, hpa, hfl⟩ := leafMeaning_eq_some.mp hq
    have hrole : o' q = some (.user pt w) := by
      refine (hsp'.inv.tables.user_iff hown.root hw').mpr ⟨?_, hpa⟩
      rw [and_eq_pteFlags_and (by decide), hfl]
      decide
    refine ⟨q, by rw [hvm, hpt]; exact hq, fun j w' q' fl hj hwj hm => ?_⟩
    exact hloaded.fresh_page hsp hsp' hw hrole hpa hj hwj hm
  case trapframe =>
    rw [hvm, hpt]
    exact hmap.trapframe
  case trampoline =>
    rw [hvm, hpt]
    exact hmap.trampoline
  case epc =>
    rw [hload _ (by decide), execFrame_epc]
    rfl
  case sp => rw [hload _ (by decide), execFrame_sp htotal, hsz]
  case regs =>
    intro r hr
    have hoff := r.offset_le
    rw [hload _ (hoff.2.trans (by decide)),
      execFrame_of_apart (.inr (by simp only [tfEpc]; omega)) (Reg.offset_apart hr), Core.tfLoad]

/-! ### `kexec` -/

/-- What `kexec` returns by itself. -/
theorem kexec_post (hp : s.core.cproc = some p) (path : List UInt8) :
    (kexec L path).Post s fun v t => v = -1 ∧ t.core = s.core ∨
      ∃ up, s.core.findUprog L (path.take (trimLen path path.length)) = .found up ∧
        execLoad L p up (path.take (trimLen path path.length)) s.core = .ok (v, t.core) := by
  refine Prog.post_ite (fun _ => Prog.post_pure (.inl ⟨rfl, rfl⟩)) fun _ => ?_
  refine .bind (Prog.post_read ?_)
  cases hup : s.core.findUprog L (path.take (trimLen path path.length)) with
  | fault => exact Prog.post_panic
  | null => exact Prog.post_pure (.inl ⟨rfl, rfl⟩)
  | found up =>
    refine myproc_bind_post hp fun t ht => coreAtomic_post fun v c hx => .inr ⟨up, rfl, ?_⟩
    rw [← ht]
    exact hx

/-- What `kexec` has done when it returns. -/
def ExecDone (L : Layout) (image : Mem) (p : Slot) (path : List UInt8) (v : BitVec 32)
    (c c' : Core) : Prop :=
  v = -1 ∧ ExecKept c c' ∨
    v = 0 ∧ ∃ start size, c.Program L path start size ∧ ExecLoads L image p start size c c'

theorem Good.kexec_ends {S : Site} (hg : Good L S s.core) (hp : s.core.cproc = some p)
    (hrun : (kexec L path).run s = .ok (v, t)) : ExecDone L S.image p path v s.core t.core := by
  obtain ⟨o, hsp⟩ := hg.spaces
  rcases kexec_post hp path v t hrun with ⟨hv, hcore⟩ | ⟨up, hup, hx⟩
  · refine .inl ⟨hv, fun j => by rw [hcore], fun j hj => ?_⟩
    rw [hcore]
    exact (Spares.refl _ (X := fun _ => False)).untouched hsp hj id
  · rcases execLoad_spec hsp (hg.spaces_running hp) up _ rfl rfl with
      ⟨herr, -⟩ | ⟨v', c', hx', hres⟩
    · exact absurd (hx.symm.trans herr) nofun
    · obtain ⟨rfl, rfl⟩ := Prod.mk.inj (Except.ok.inj (hx.symm.trans hx'))
      rcases hres with ⟨hv, hfailed, -⟩ | ⟨hv, ⟨pt, hexeced⟩, -⟩
      · exact .inl ⟨hv, hfailed.kept hsp⟩
      · exact .inr ⟨hv, _, _, ⟨up, hup, rfl, rfl⟩, hexeced.loads hsp⟩

/-- **`exec` is all or nothing**: if `kexec` returns −1, every process has what it had; if it
returns 0, the process has the new image and nothing of the old one. -/
theorem exec_all_or_nothing (hd : Reachable L image fails d) (hnoff : d.state.hart.noff = 0)
    (hp : d.state.core.cproc = some p) (path : List UInt8)
    (hrun : (kexec L path).run d.state = .ok (v, t)) :
    v = -1 ∧ ExecKept d.state.core t.core ∨
    v = 0 ∧ ∃ start size, d.state.core.Program L path start size ∧
      ExecLoads L image p start size d.state.core t.core ∧
      (start + size ≤ L.heap → ∀ fails' d' p' t', Reachable L image fails' d' →
        d'.state.hart.noff = 0 → d'.state.core.cproc = some p' →
        d'.state.core.Program L path start size → (kexec L path).run d'.state = .ok (0, t') →
        ∀ k, k < (t.core.procs p).sz → t'.core.userByte p' k = t.core.userByte p k) := by
  have hends : ∀ {fails d p v t}, Reachable L image fails d → d.state.hart.noff = 0 →
      d.state.core.cproc = some p → (kexec L path).run d.state = .ok (v, t) →
      ExecDone L image p path v d.state.core t.core := by
    intro fails d p v t hd hnoff hp hrun
    obtain ⟨kpt, hg⟩ := hd.good hnoff
    exact hg.kexec_ends hp hrun
  rcases hends hd hnoff hp hrun with hkept | ⟨hv, start, size, hprog, hloads⟩
  · exact .inl hkept
  refine .inr ⟨hv, start, size, hprog, hloads, ?_⟩
  intro hheap fails' d' p' t' hd' hnoff' hp' hprog' hrun' k hk
  rcases hends hd' hnoff' hp' hrun' with ⟨hv', -⟩ | ⟨-, start', size', hprog'', hloads'⟩
  · exact absurd hv' (by decide)
  obtain ⟨rfl, rfl⟩ := hprog'.unique hprog''
  by_cases hlt : k < size
  · rw [hloads.binary hheap k hlt, hloads'.binary hheap k hlt]
  · have hk' : k < (t'.core.procs p').sz := by
      rw [hloads'.sz, ← hloads.sz]
      exact hk
    rw [hloads.zero k (Nat.not_lt.mp hlt) hk, hloads'.zero k (Nat.not_lt.mp hlt) hk']

/-- `kexec` of a program that can be loaded returns 0. -/
theorem Good.run_kexec (hg : Good L S s.core) (hp : s.core.cproc = some p) (path : List UInt8)
    (hne : path.rdropWhile isBlank ≠ []) (hload : s.core.Loadable L (path.rdropWhile isBlank)) :
    ∃ t, (kexec L path).run s = .ok (0, t) := by
  obtain ⟨o, hsp⟩ := hg.spaces
  obtain ⟨up, hup, hfits⟩ := hload
  obtain ⟨h, hrun⟩ := (OsKernel.run_kexec hp path).2 up hne hup
  rcases execLoad_spec hsp (hg.spaces_running hp) up (path.rdropWhile isBlank) rfl rfl with
    ⟨-, hbig⟩ | ⟨v, c', hx, ⟨-, -, hpoor⟩ | ⟨rfl, -⟩⟩
  · exact absurd hbig hfits.le.not_gt
  · exact absurd hfits hpoor
  · exact ⟨_, hrun.trans (run_coreAtomic hx)⟩

/-- A process with memory tries a program that is not there, and loads one that is. -/
theorem exec_all_or_nothing_virt : ∃ s : K,
    Reachable .virt shImage (fun _ => false) ⟨s, .ret .usertrap, []⟩ ∧ s.hart.noff = 0 ∧
    s.core.cproc = some 0 ∧ (s.core.procs 0).sz = 16384 ∧
    (∃ t, (kexec .virt (cstr "ls")).run s = .ok (-1, t) ∧ ExecKept s.core t.core) ∧
    ∃ t start size, (kexec .virt (cstr "sh")).run s = .ok (0, t) ∧
      s.core.Program .virt (cstr "sh") start size ∧
      ExecLoads .virt shImage 0 start size s.core t.core := by
  obtain ⟨r, hr, hsingle, hroom⟩ := exists_single_virt
  obtain ⟨s, m, hs, hcore, -⟩ := hr.traps hsingle.cproc (Sysno.exec.regs 16 0 0)
  have hcp : s.core.cproc = some 0 := by rw [hcore]; exact hsingle.cproc
  have hprocs : s.core.procs = r.core.procs := by rw [hcore]; rfl
  obtain ⟨kpt, hI, ⟨_, _, -, -, hno⟩ | htrap⟩ := hs.pre
  · exact absurd hno id
  have hg : Good .virt (bootSite shImage (fun _ => false) kpt) s.core := hI.2 htrap.1.noff
  obtain ⟨o, hsp⟩ := hg.spaces
  refine ⟨s, hs, htrap.1.noff, hcp, by rw [hprocs]; exact hsingle.size, ?_, ?_⟩
  · have hnull : s.core.findUprog .virt (cstr "ls") = .null :=
      Core.findUprog_ofTable_eq_null (by decide) hsp.image (by decide) (by decide)
    have hrun := (run_kexec (L := .virt) hcp (cstr "ls")).1 (.inr hnull)
    rcases exec_all_or_nothing hs htrap.1.noff hcp (cstr "ls") hrun with ⟨-, hkept⟩ | ⟨hv, -⟩
    · exact ⟨s, hrun, hkept⟩
    · exact absurd hv (by decide)
  · have hsupply : Supply .virt s.core.vm (3 + userPages 4) := by
      rw [hsingle.size] at hroom
      rw [hcore]
      exact ⟨(hroom.mono (by decide)).1, (hroom.mono (by decide)).2⟩
    obtain ⟨t, hrun⟩ := hg.run_kexec hcp (cstr "sh") (by decide)
      (Core.loadable_ofTable (e := shEntry) (by decide) hsp.image (by decide) ⟨by decide, hsupply⟩)
    rcases exec_all_or_nothing hs htrap.1.noff hcp (cstr "sh") hrun with
      ⟨hv, -⟩ | ⟨-, start, size, hprogram, hloads, -⟩
    · exact absurd hv (by decide)
    · exact ⟨t, start, size, hrun, hprogram, hloads⟩

end OsKernel
