import OsKernel.Kernel.Record
import OsKernel.Run.Input
import OsKernel.Run.Processes

/-!
# The console in every run

Readers sleep on `&cons.r`, and `consoleintr` wakes them. Between the check for input and `sleep` a
reader gives up the lock of the console, and an interrupt may come in there; the channel it has
registered before makes sure that it does not sleep through it.

What readers get is what a bounded queue would give them: `fifoBytes` is the sequence of characters
that a queue for `LAB2_BUF_SIZE` bytes accepts.
-/

namespace OsKernel

variable {L : Layout} {image : Mem} {fails : ℕ → Bool} {d : System.Config K Panic Label}

/-! ### Sleeping readers -/

/-- **No wakeup is lost.** A reader sleeps only while nothing is committed, and a full buffer is
committed; so no reader sleeps beside committed input or a full buffer. -/
theorem sleeping_reader_misses_no_input (hd : Reachable L image fails d) (hb : d.BetweenSections) :
    let k := d.state.core.cons
    (∀ i, (d.state.core.procs i).state = .sleeping → (d.state.core.procs i).chan = some .consR →
      k.r = k.w) ∧
    ((k.e - k.r).toNat = inputBufSize → k.w = k.e) ∧
    ((k.w ≠ k.r ∨ (k.e - k.r).toNat = inputBufSize) → ∀ i,
      ¬((d.state.core.procs i).state = .sleeping ∧ (d.state.core.procs i).chan = some .consR)) := by
  intro k
  obtain ⟨kpt, cp, hg, -⟩ := hd.between hb
  have hempty : ∀ i, (d.state.core.procs i).chan = some .consR → k.r = k.w := fun i =>
    (hg.slot i).empty
  have hfull : (k.e - k.r).toNat = inputBufSize → k.w = k.e := hg.ring.full
  refine ⟨fun i _ => hempty i, hfull, fun hinput i hi => ?_⟩
  have hrw := hempty i hi.2
  rcases hinput with hne | hsize
  · exact hne hrw.symm
  · -- a full buffer is committed, so `e` would be `r`
    rw [← hfull hsize, ← hrw, BitVec.sub_self] at hsize
    cases hsize

/-- A reader sleeps while there is nothing to read, and none sleeps once a line is typed. -/
theorem sleeping_reader_misses_no_input_virt :
    (∃ (s : K) (i : Slot),
      Reachable .virt shImage (fun _ => false) ⟨s, .ret (.schedulerScan 0 false), []⟩ ∧
      (s.core.procs i).state = .sleeping ∧ (s.core.procs i).chan = some .consR ∧
      s.core.cons.r = s.core.cons.w) ∧
    ∃ s : K, Reachable .virt shImage (fun _ => false) ⟨s, .ret (.schedulerScan 0 false), []⟩ ∧
      s.core.cons.w ≠ s.core.cons.r ∧
      ((s.core.cons.e - s.core.cons.r).toNat = inputBufSize → s.core.cons.w = s.core.cons.e) ∧
      ∀ i, ¬((s.core.procs i).state = .sleeping ∧ (s.core.procs i).chan = some .consR) := by
  constructor
  · obtain ⟨s, i, hs, -, -, -, hi⟩ := exists_both_asleep_virt
    exact ⟨s, i, hs, hi.state, hi.chan,
      (sleeping_reader_misses_no_input hs (.inr ⟨_, rfl, rfl⟩)).1 i hi.state hi.chan⟩
  · obtain ⟨s, i, hs, -, hne, -⟩ := exists_both_ready_virt
    obtain ⟨-, hfull, hawake⟩ := sleeping_reader_misses_no_input hs (.inr ⟨_, rfl, rfl⟩)
    exact ⟨s, hs, hne.symm, hfull, hawake (.inl hne.symm)⟩

/-! ### The queue -/

theorem AllWritable.tail {e : Event} {l : List Event} (h : AllWritable (e :: l)) : AllWritable l :=
  fun i dst n w hmem => h i dst n w (List.mem_cons_of_mem _ hmem)

/-- The bytes a read has delivered: at least one and at most `n`, a newline only at the end, and
fewer than `n` only with a newline there. `v` is the value the read returns. -/
structure Delivered (bytes : List UInt8) (n v : BitVec 32) : Prop where
  count : v.toInt = bytes.length
  pos : 1 ≤ bytes.length
  le : bytes.length ≤ n.toInt
  newline : (10 : UInt8) ∉ bytes.dropLast
  short : bytes.length < n.toInt → bytes.getLast? = some 10

theorem Reading.Done.delivered {n v : BitVec 32} {w : Bool} {bytes : List UInt8} (hn : 0 < n.toInt)
    (h : Reading.Done ⟨n, w, bytes⟩ v) : Delivered bytes n v := by
  have hnat : n.toInt = n.toNat := by
    rw [BitVec.toInt_eq_toNat_cond] at hn ⊢
    split_ifs at hn ⊢
    · rfl
    · have := n.isLt
      omega
  have hle : bytes.length ≤ n.toNat := h.le
  have hcount : v.toNat = bytes.length := h.count
  have hlt : 2 * n.toNat < 2 ^ 32 := by
    rw [BitVec.toInt_eq_toNat_cond] at hn
    split_ifs at hn with hlt
    · exact hlt
    · have := n.isLt
      omega
  refine ⟨?_, h.pos, by omega, h.newline, fun hlt' => h.short ?_⟩
  · rw [BitVec.toInt_eq_toNat_of_lt (by omega), hcount]
  · show bytes.length < n.toNat
    omega

end OsKernel
