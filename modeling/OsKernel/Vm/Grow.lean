import OsKernel.Vm.Free
import OsKernel.Vm.Meaning

/-!
# Growing and shrinking user memory

`uvmalloc` and `uvmdealloc` on any well-formed page table, in terms of its meaning. `uvmalloc`
takes page after page from `kalloc` and maps each of them; either call can fail at any page, and
then the pages mapped so far are unmapped by `uvmdealloc`, whose arguments are rounded up once
more. `Grown` is what holds between two rounds: the meaning is the old one with new pages from
`lo` to `hi`, each handed out by `kalloc` and still full of zeros. A failure at `hi` unmaps
exactly these pages.

The pages stay zero because the later stores go to tables, and a page that `kalloc` has handed
out does not become a table.
-/

namespace OsKernel

variable {L : Layout} {s s₀ s₁ s' : Vm} {r lo hi perm : ℕ} {pg : ℕ → ℕ}

/-- A page table that can grow: `kalloc` hands out neither its tables nor the pages it maps. -/
structure Growable (L : Layout) (s : Vm) (r : ℕ) : Prop where
  wf : WellFormed s.mem r
  room : Room L s r
  fresh : ∀ q, s.FreePage L q → ¬s.mem.DataPage r q

/-- A page handed out by `kalloc` and filled with anything leaves the page table alone. -/
theorem Growable.grant {m : Mem} (h : Growable L s r) (hfit : s.freemem + 4096 ≤ L.phystop)
    (hm : ∀ q, 4096 ∣ q → s.freemem ≠ q → Mem.AgreeOn s.mem m q 4096) :
    Growable L { s.grant with mem := m } r ∧
      (∀ w, w < 2 ^ 27 → m.meaning r w = s.mem.meaning r w) ∧ ¬m.TablePage r s.freemem := by
  have hnot := h.room.apart s.freemem le_rfl hfit
  have hpte : ∀ q, s.mem.TablePage r q → ∀ j : Fin 512, m.pte q j = s.mem.pte q j :=
    fun q hq j => (hm q (h.wf.page_aligned hq) fun heq => hnot (heq ▸ hq)).pte_eq j.isLt
  obtain ⟨hfollow, htable, hentry⟩ := Mem.tables_congr hpte
  have hmeaning : ∀ w, w < 2 ^ 27 → m.meaning r w = s.mem.meaning r w := fun w hw => by
    rw [Mem.meaning, Mem.meaning, hentry w hw]
  have hdata : ∀ q, m.DataPage r q → s.mem.DataPage r q := by
    intro q hq
    obtain ⟨w, fl, hw, hmw⟩ := Mem.dataPage_iff.mp hq
    exact Mem.dataPage_iff.mpr ⟨w, fl, hw, (hmeaning w hw).symm.trans hmw⟩
  have hfree : ∀ {q}, s.freemem + 4096 ≤ q → s.freemem ≤ q := fun hq => by omega
  refine ⟨⟨⟨⟨h.wf.aligned, fun q hq => h.wf.ne_zero q ((htable q).mp hq), h.wf.tree.congr hfollow⟩,
      fun q hq hdq => h.wf.data q ((htable q).mp hq) (hdata q hdq)⟩, ⟨?_, fun q hq hq' hqt => ?_⟩,
    fun q hq hdq => ?_⟩, hmeaning, fun hq => hnot ((htable _).mp hq)⟩
  · exact (Nat.dvd_add_right h.room.aligned).mpr dvd_rfl
  · exact h.room.apart q (hfree hq) hq' ((htable q).mp hqt)
  · exact h.fresh q ⟨hfree hq.1, hq.2⟩ (hdata q hdq)

/-! ### `uvmdealloc` -/

theorem unmapPages_zero (f : ℕ → Option (ℕ × ℕ)) (vpn : ℕ) : unmapPages f vpn 0 = f := by
  funext w
  rw [unmapPages, if_neg (by omega)]

theorem pgRoundUp_div {sz : ℕ} (hsz : sz ≤ 2 ^ 38) : pgRoundUp sz / 4096 = (sz + 4095) / 4096 := by
  rw [pgRoundUp_eq (by omega)]
  omega

/-- **`uvmdealloc`** restricts the meaning to the pages outside of what is given back. -/
theorem uvmdealloc_unmaps {oldsz newsz : ℕ} (h : TableTree s.mem r) (hle : newsz ≤ oldsz)
    (hsz : oldsz ≤ 2 ^ 38) : (Vm.uvmdealloc L r oldsz newsz).Returns s fun v s' => v = newsz ∧
      Unmaps r ((newsz + 4095) / 4096) ((oldsz + 4095) / 4096 - (newsz + 4095) / 4096) s s' := by
  have hsame : (oldsz + 4095) / 4096 = (newsz + 4095) / 4096 →
      Unmaps r ((newsz + 4095) / 4096) ((oldsz + 4095) / 4096 - (newsz + 4095) / 4096) s s := by
    intro heq
    refine ⟨h, fun _ => Iff.rfl, fun w _ => ?_⟩
    rw [heq, Nat.sub_self, unmapPages_zero]
  rw [Vm.uvmdealloc]
  by_cases heq : oldsz ≤ newsz
  · obtain rfl : oldsz = newsz := by omega
    rw [if_pos heq, PanicM.returns_pure]
    exact ⟨rfl, hsame rfl⟩
  rw [if_neg heq, pgRoundUp_eq (by omega), pgRoundUp_eq (by omega)]
  by_cases hlt : (newsz + 4095) / 4096 * 4096 < (oldsz + 4095) / 4096 * 4096
  · have hpages : ((oldsz + 4095) / 4096 * 4096 - (newsz + 4095) / 4096 * 4096) / pgsize =
        (oldsz + 4095) / 4096 - (newsz + 4095) / 4096 := by
      simp only [pgsize]
      omega
    rw [if_pos hlt, hpages, throughInt_of_lt (by omega)]
    refine (uvmunmap_unmaps h (Nat.dvd_mul_left _ _) (by omega)).bind fun _ s₁ h₁ => ?_
    rw [Nat.mul_div_cancel _ (by decide)] at h₁
    rw [PanicM.returns_pure]
    exact ⟨rfl, h₁⟩
  · rw [if_neg hlt, PanicM.returns_pure]
    exact ⟨rfl, hsame (by omega)⟩

/-! ### `uvmalloc` -/

/-- The finite map `f` with the virtual pages from `lo` to `hi` mapped to the pages `pg`. -/
def growPages (f : ℕ → Option (ℕ × ℕ)) (lo hi perm : ℕ) (pg : ℕ → ℕ) : ℕ → Option (ℕ × ℕ) :=
  fun w =>
  if lo ≤ w ∧ w < hi then some (pg w, perm ||| pteV) else f w

/-- Between two rounds of `uvmalloc`, which began in the state `s₀`: the virtual pages from `lo`
to `hi` are mapped to pages of zeros that `kalloc` has handed out one after another. -/
structure Grown (L : Layout) (r lo hi perm : ℕ) (pg : ℕ → ℕ) (s₀ s : Vm) : Prop where
  growable : Growable L s r
  meaning : ∀ w, w < 2 ^ 27 → s.mem.meaning r w = growPages (s₀.mem.meaning r) lo hi perm pg w
  aligned : ∀ w, lo ≤ w → w < hi → 4096 ∣ pg w
  free : ∀ w, lo ≤ w → w < hi → s₀.FreePage L (pg w)
  given : ∀ w, lo ≤ w → w < hi → pg w + 4096 ≤ s.freemem
  inj : ∀ w w', lo ≤ w → w < w' → w' < hi → pg w ≠ pg w'
  zero : ∀ w, lo ≤ w → w < hi → ∀ i, i < 4096 → s.mem (pg w + i) = 0
  mono : s₀.freemem ≤ s.freemem

theorem Growable.grown (h : Growable L s r) (lo perm : ℕ) (pg : ℕ → ℕ) :
    Grown L r lo lo perm pg s s where
  growable := h
  meaning w _ := by rw [growPages, if_neg (by omega)]
  aligned := by omega
  free := by omega
  given := by omega
  inj := by omega
  zero := by omega
  mono := le_rfl

/-- The state after `kalloc` and the `memset` that follows it. -/
def Vm.blank (s : Vm) : Vm := { s.grant with mem := s.grant.mem.memset s.freemem 0 4096 }

theorem Vm.blank_agree {q : ℕ} (h : Growable L s r) (hq : 4096 ∣ q) (hne : s.freemem ≠ q) :
    Mem.AgreeOn s.mem s.blank.mem q 4096 :=
  (Mem.agreeOn_memset h.room.aligned hq hne 0).trans (Mem.agreeOn_memset h.room.aligned hq hne 0)

theorem Vm.blank_zero (s : Vm) {i : ℕ} (hi : i < 4096) : s.blank.mem (s.freemem + i) = 0 := by
  show (s.grant.mem.memset s.freemem 0 4096) (s.freemem + i) = 0
  rw [Mem.memset_apply, if_pos (by omega)]

/-- What holds of the pages up to `hi` and of the next one. -/
theorem forall_update {P : ℕ → ℕ → Prop} {x : ℕ} (h : ∀ w, lo ≤ w → w < hi → P w (pg w))
    (hx : P hi x) : ∀ w, lo ≤ w → w < hi + 1 → P w (Function.update pg hi x w) := by
  intro w hlo hlt
  by_cases hw : w = hi
  · rwa [hw, Function.update_self]
  · rw [Function.update_of_ne hw]
    exact h w hlo (by omega)

/-- A round that maps a page. -/
theorem Grown.round (h : Grown L r lo hi perm pg s₀ s) (hfit : s.freemem + 4096 ≤ L.phystop)
    (hle : lo ≤ hi) (hhi : hi < 2 ^ 27) (hext : Extends L r s.blank s')
    (hm : ∀ w, w < 2 ^ 27 →
      s'.mem.meaning r w = mapPages (s.blank.mem.meaning r) hi 1 s.freemem perm w) :
    Grown L r lo (hi + 1) perm (Function.update pg hi s.freemem) s₀ s' := by
  obtain ⟨hgrow, hmeaning, hnot⟩ := h.growable.grant hfit fun q hq => Vm.blank_agree h.growable hq
  have hword : s.freemem % wordSize = s.freemem := by
    have := L.phystop_le
    exact Nat.mod_eq_of_lt (by simp only [wordSize]; omega)
  have hmono : s.freemem + 4096 ≤ s'.freemem := hext.mono
  have hmono₀ := h.mono
  have hgiven : ∀ q, q ≤ s.freemem → ¬s.blank.FreePage L q := fun q hq hfree => by
    have : s.freemem + 4096 ≤ q := hfree.1
    omega
  have hm' : ∀ w, w < 2 ^ 27 → s'.mem.meaning r w =
      if w = hi then some (s.freemem, perm ||| pteV) else s.mem.meaning r w := by
    intro w hw
    rw [hm w hw, mapPages]
    by_cases hwh : w = hi
    · rw [if_pos (by omega), if_pos hwh, hwh, Nat.sub_self, Nat.zero_mul, Nat.add_zero, hword]
    · rw [if_neg (by omega), if_neg hwh]
      exact hmeaning w hw
  -- a page of an earlier round is neither a table nor a page of the allocator
  have hkeep : ∀ w, lo ≤ w → w < hi → Mem.AgreeOn s.mem s'.mem (pg w) 4096 := by
    intro w hlo hlt
    have hpg := h.given w hlo hlt
    have hd := h.aligned w hlo hlt
    have hne : s.freemem ≠ pg w := by omega
    refine (Vm.blank_agree h.growable hd hne).trans
      (hext.frame _ hd (fun hq => ?_) (hgiven _ (by omega)))
    have hdata : s.blank.mem.DataPage r (pg w) := by
      refine Mem.dataPage_iff.mpr ⟨w, perm ||| pteV, by omega, ?_⟩
      rw [show s.blank.mem.meaning r w = _ from hmeaning w (by omega),
        h.meaning w (by omega), growPages, if_pos ⟨hlo, hlt⟩]
    exact hgrow.wf.data _ hq hdata
  constructor
  case growable =>
    refine ⟨hext.wellFormed hgrow.wf hm hgrow.fresh fun j hj => ?_, hext.room, fun q hq hdq => ?_⟩
    · obtain rfl : j = 0 := by omega
      rw [Nat.zero_mul, Nat.add_zero, hword]
      exact ⟨hnot, hgiven _ le_rfl⟩
    · have hq₁ : s'.freemem ≤ q := hq.1
      obtain ⟨w, fl, hw, hmw⟩ := Mem.dataPage_iff.mp hdq
      rw [hm' w hw] at hmw
      split_ifs at hmw
      · obtain ⟨rfl, -⟩ := Prod.mk.inj (Option.some.inj hmw)
        omega
      · exact h.growable.fresh q ⟨by omega, hq.2⟩ (Mem.dataPage_iff.mpr ⟨w, fl, hw, hmw⟩)
  case meaning =>
    intro w hw
    rw [hm' w hw, growPages]
    by_cases hwh : w = hi
    · rw [if_pos hwh, if_pos (by omega), hwh, Function.update_self]
    · rw [if_neg hwh, Function.update_of_ne hwh, h.meaning w hw, growPages]
      exact if_congr (by omega) rfl rfl
  case aligned => exact forall_update h.aligned h.growable.room.aligned
  case free => exact forall_update h.free ⟨hmono₀, hfit⟩
  case given =>
    refine forall_update (P := fun _ q => q + 4096 ≤ s'.freemem) (fun w hlo hlt => ?_) hmono
    exact (h.given w hlo hlt).trans (by omega)
  case inj =>
    intro w w' hlo hww hlt
    rw [Function.update_of_ne (show w ≠ hi by omega)]
    by_cases hw' : w' = hi
    · have := h.given w hlo (by omega)
      rw [hw', Function.update_self]
      omega
    · rw [Function.update_of_ne hw']
      exact h.inj w w' hlo hww (by omega)
  case zero =>
    refine forall_update (P := fun _ q => ∀ i, i < 4096 → s'.mem (q + i) = 0)
      (fun w hlo hlt i hi => ?_)
      fun i hi => ?_
    · rw [hkeep w hlo hlt i hi]
      exact h.zero w hlo hlt i hi
    · rw [hext.frame _ h.growable.room.aligned hnot (hgiven _ le_rfl) i hi]
      exact s.blank_zero hi
  case mono => omega

/-- The cleanup of `uvmalloc`: unmapping the pages mapped so far. -/
theorem uvmdealloc_undo (h : WellFormed s.mem r) (hle : lo ≤ hi) (hhi : hi ≤ 2 ^ 26)
    (hm : ∀ w, w < 2 ^ 27 → s.mem.meaning r w = growPages (s₀.mem.meaning r) lo hi perm pg w)
    (hnone : ∀ w, lo ≤ w → w < hi → s₀.mem.meaning r w = none) :
    (do let _ ← Vm.uvmdealloc L r (hi * 4096) (lo * 4096); return 0 : VmM ℕ).Returns s fun v s' =>
      v = 0 ∧ WellFormed s'.mem r ∧ ∀ w, w < 2 ^ 27 → s'.mem.meaning r w = s₀.mem.meaning r w := by
  refine (uvmdealloc_unmaps h.toTableTree (by omega) (by omega)).bind fun _ s' h' => ?_
  obtain ⟨-, hun⟩ := h'
  rw [PanicM.returns_pure]
  refine ⟨rfl, hun.wellFormed h, fun w hw => ?_⟩
  rw [hun.meaning w hw, unmapPages, hm w hw, growPages]
  split_ifs with hin
  · exact (hnone w (by omega) (by omega)).symm
  · omega
  · rfl

/-- **The loop of `uvmalloc`** after some rounds: it maps the rest, or undoes what was done. -/
theorem uvmallocLoop_grows {newsz xperm : ℕ} (hperm : pteR ||| pteU ||| xperm < 1024)
    (hnew : newsz ≤ 2 ^ 38)
    (hnone : ∀ w, lo ≤ w → w < (newsz + 4095) / 4096 → s₀.mem.meaning r w = none) :
    ∀ fuel s hi pg, (newsz + 4095) / 4096 ≤ hi + fuel → lo ≤ hi → hi ≤ (newsz + 4095) / 4096 →
    Grown L r lo hi (pteR ||| pteU ||| xperm) pg s₀ s →
    (Vm.uvmallocLoop L r (lo * 4096) newsz xperm fuel (hi * 4096)).Returns s fun v s' =>
      v = newsz ∧ (∃ pg, Grown L r lo ((newsz + 4095) / 4096) (pteR ||| pteU ||| xperm) pg s₀ s') ∨
      v = 0 ∧ WellFormed s'.mem r ∧ ∀ w, w < 2 ^ 27 → s'.mem.meaning r w = s₀.mem.meaning r w := by
  intro fuel
  induction fuel with
  | zero =>
    intro s hi pg hfuel _ hhi h
    obtain rfl : hi = (newsz + 4095) / 4096 := by omega
    rw [Vm.uvmallocLoop, if_neg (by omega), PanicM.returns_pure]
    exact .inl ⟨rfl, pg, h⟩
  | succ fuel ih =>
    intro s hi pg hfuel hlo hhi h
    have hnone' : ∀ w, lo ≤ w → w < hi → s₀.mem.meaning r w = none := fun w hw hw' =>
      hnone w hw (by omega)
    rw [Vm.uvmallocLoop]
    by_cases ha : hi * 4096 < newsz
    swap
    · obtain rfl : hi = (newsz + 4095) / 4096 := by omega
      rw [if_neg ha, PanicM.returns_pure]
      exact .inl ⟨rfl, pg, h⟩
    rw [if_pos ha]
    rcases kalloc_cases L s with ⟨hk, -⟩ | ⟨hk, hpos, hfit, -⟩
    · rw [PanicM.returns_bind_of_ok hk, if_pos rfl]
      exact (uvmdealloc_undo (s := s.deny) h.growable.wf hlo (by omega) h.meaning hnone').mono
        fun v s' hs => .inr hs
    rw [PanicM.returns_bind_of_ok hk, if_neg hpos]
    simp only [Vm.memset, PanicM.returns_update_bind]
    obtain ⟨hgrow, hmeaning, -⟩ := h.growable.grant hfit fun q hq => Vm.blank_agree h.growable hq
    have hlt : s.freemem < 2 ^ 64 := by
      have := L.phystop_le
      omega
    have hpage : hi * 4096 / 4096 = hi := Nat.mul_div_cancel _ (by decide)
    have hfree : ∀ w, hi * 4096 / 4096 ≤ w → w < (hi * 4096 + 4096) / 4096 →
        s.blank.mem.meaning r w = none := by
      intro w hw hw'
      obtain rfl : w = hi := by omega
      rw [show s.blank.mem.meaning r w = _ from hmeaning w (by omega), h.meaning w (by omega),
        growPages, if_neg (by omega)]
      exact hnone w hlo (by omega)
    have hmap := mappages_extends (s := s.blank) hgrow.wf.toTableTree hgrow.room hperm
      (Nat.dvd_mul_left _ _) dvd_rfl (by decide) (by omega) h.growable.room.aligned hlt hfree
    rw [hpage] at hmap
    refine PanicM.Returns.bind hmap ?_
    rintro ok s₁ ⟨hext, k, ⟨rfl, rfl⟩ | ⟨rfl, hk0, -⟩, hm⟩
    · rw [if_pos rfl, show (hi * 4096 + pgsize) % wordSize = (hi + 1) * 4096 by
        simp only [pgsize, wordSize]; omega]
      exact ih s₁ (hi + 1) _ (by omega) (by omega) (by omega) (h.round hfit hlo (by omega) hext hm)
    · -- the new page is not mapped, and the meaning is that of the last round
      obtain rfl : k = 0 := by omega
      simp only [mapPages_zero] at hm
      simp only [Bool.false_eq_true, if_false, Vm.kfree, PanicM.returns_update_bind]
      have hmap : ∀ w, w < 2 ^ 27 →
          s₁.mem.meaning r w = mapPages (s.blank.mem.meaning r) 0 0 0 0 w := by
        simpa only [mapPages_zero] using hm
      have hwf : WellFormed s₁.mem r := hext.wellFormed hgrow.wf hmap hgrow.fresh (by omega)
      have hgrown : ∀ w, w < 2 ^ 27 → s₁.mem.meaning r w =
          growPages (s₀.mem.meaning r) lo hi (pteR ||| pteU ||| xperm) pg w := by
        intro w hw
        rw [← h.meaning w hw, ← hmeaning w hw]
        exact hm w hw
      exact PanicM.Returns.mono (uvmdealloc_undo (s := { s₁ with freed := s.freemem :: s₁.freed })
        hwf hlo (by omega) hgrown hnone') fun v s' hs => .inr hs

/-- **`uvmalloc` is all or nothing, and `uvmdealloc` inverts it.** On a page table that maps nothing
from `PGROUNDUP(oldsz)` to `TRAPFRAME`, and whatever calls of `kalloc` fail, `uvmalloc` returns
`newsz` and has mapped exactly the pages from `PGROUNDUP(oldsz)` to `PGROUNDUP(newsz)`, to
different pages of zeros that were free, or it returns 0 and has changed no translation. In the
first case `uvmdealloc` gives the old translations back. -/
theorem uvmalloc_all_or_nothing (h : WellFormed s.mem r) (hroom : Room L s r)
    (hfresh : ∀ q, s.FreePage L q → ¬s.mem.DataPage r q) {oldsz newsz xperm : ℕ}
    (hperm : xperm < 1024) (hle : oldsz ≤ newsz) (htop : newsz ≤ trapframeVa)
    (hnone : ∀ w, pgRoundUp oldsz / 4096 ≤ w → w < trapframeVa / 4096 → s.mem.meaning r w = none) :
    let lo := pgRoundUp oldsz / 4096
    let hi := pgRoundUp newsz / 4096
    (Vm.uvmalloc L r oldsz newsz xperm).Returns s fun v s' => WellFormed s'.mem r ∧
      (v = newsz ∧
        (∃ pg : ℕ → ℕ, (∀ w, w < maxva / 4096 → s'.mem.meaning r w =
            if lo ≤ w ∧ w < hi then some (pg w, pteR ||| pteU ||| xperm ||| pteV)
            else s.mem.meaning r w) ∧
          (∀ w, lo ≤ w → w < hi → s.FreePage L (pg w) ∧ ∀ i, i < 4096 → s'.mem (pg w + i) = 0) ∧
          ∀ w w', lo ≤ w → w < w' → w' < hi → pg w ≠ pg w') ∧
        ((Vm.uvmdealloc L r newsz oldsz).Returns s' fun v' s'' => v' = oldsz ∧
          WellFormed s''.mem r ∧ ∀ w, w < maxva / 4096 → s''.mem.meaning r w = s.mem.meaning r w) ∨
      v = 0 ∧ ∀ w, w < maxva / 4096 → s'.mem.meaning r w = s.mem.meaning r w) := by
  intro lo hi
  simp only [trapframeVa, trampolineVa, maxva, pgsize] at htop hnone
  have hlo : lo = (oldsz + 4095) / 4096 := pgRoundUp_div (by omega)
  have hhi : hi = (newsz + 4095) / 4096 := pgRoundUp_div (by omega)
  have hbits : pteR ||| pteU ||| xperm < 1024 :=
    Nat.or_lt_two_pow (n := 10) (by decide) hperm
  have hmax : ∀ {w}, w < maxva / 4096 → w < 2 ^ 27 := fun hw => by
    simp only [maxva] at hw
    omega
  rw [Vm.uvmalloc, if_neg (by omega), pgRoundUp_eq (by omega), ← hlo]
  have hnone' : ∀ w, lo ≤ w → w < (newsz + 4095) / 4096 → s.mem.meaning r w = none :=
    fun w hw hw' => hnone w hw (by omega)
  refine (uvmallocLoop_grows hbits (by omega) hnone' _ s lo id (by simp only [pgsize]; omega) le_rfl
    (by omega) (Growable.grown ⟨h, hroom, hfresh⟩ _ _ _)).mono ?_
  rw [← hhi]
  rintro v s' (⟨rfl, pg, hg⟩ | ⟨rfl, hwf, hm⟩)
  · refine ⟨hg.growable.wf, .inl ⟨rfl, ⟨pg, fun w hw => hg.meaning w (hmax hw),
      fun w hw hw' => ⟨hg.free w hw hw', hg.zero w hw hw'⟩, hg.inj⟩, ?_⟩⟩
    refine (uvmdealloc_unmaps hg.growable.wf.toTableTree hle (by omega)).mono ?_
    rintro v' s'' ⟨rfl, hun⟩
    refine ⟨rfl, hun.wellFormed hg.growable.wf, fun w hw => ?_⟩
    rw [hun.meaning w (hmax hw), unmapPages, hg.meaning w (hmax hw), growPages]
    split_ifs with hin
    · exact (hnone w (by omega) (by omega)).symm
    · omega
    · rfl
  · exact ⟨hwf, .inr ⟨rfl, fun w hw => hm w (hmax hw)⟩⟩

/-- A page table with one page grows to a size in the middle of its third page. -/
theorem uvmalloc_all_or_nothing_onePage : WellFormed onePageVm.mem 0x80041000 ∧
    (Vm.uvmalloc .virt 0x80041000 4096 8200 pteW).Returns onePageVm fun v s' =>
      WellFormed s'.mem 0x80041000 ∧ (v = 8200 ∨ v = 0) := by
  obtain ⟨hwf, hroom, hfresh, hmeaning⟩ := onePageVm_ok
  refine ⟨hwf, (uvmalloc_all_or_nothing hwf hroom hfresh (by decide) (by decide) (by decide)
    fun w hw hw' => ?_).mono fun v s' hs => ⟨hs.1, hs.2.imp And.left And.left⟩⟩
  have hlow : pgRoundUp 4096 / 4096 = 1 := by decide
  simp only [trapframeVa, trampolineVa, maxva, pgsize] at hw'
  rw [hmeaning w (by omega), if_neg (by omega)]

end OsKernel
