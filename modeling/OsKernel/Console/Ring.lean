import OsKernel.Kernel.Invariant

/-!
# The console ring as a bounded queue

The ring between its indices `r` and `e` is the queue of the bytes that were accepted and not
taken. Its three indices run freely through the 32-bit words; only differences of them and
residues modulo the size of the buffer matter, and the size divides `2 ^ 32`, so that an index
that wraps around still leads to the right place.
-/

namespace OsKernel

variable {k : Cons} {l : List Event} {c : UInt8} {i : Slot}

namespace Cons

theorem length_unread (k : Cons) : k.unread.length = (k.e - k.r).toNat := by
  simp [unread]

/-- The place of a byte of the queue. -/
theorem index_eq (r : BitVec 32) (j : ℕ) :
    (r + BitVec.ofNat 32 j).toNat % inputBufSize = (r.toNat + j) % 128 := by
  simp only [inputBufSize, BitVec.toNat_add, BitVec.toNat_ofNat]
  omega

/-- A byte is appended at the end of the queue. -/
theorem unread_push (h : (k.e - k.r).toNat < inputBufSize) :
    (k.push c).unread = k.unread ++ [c] := by
  have hn : ((k.push c).e - (k.push c).r).toNat = (k.e - k.r).toNat + 1 := by
    simp only [push, inputBufSize] at h ⊢
    bv_omega
  have hend : k.e.toNat % 128 = (k.r.toNat + (k.e - k.r).toNat) % 128 := by
    simp only [inputBufSize] at h
    bv_omega
  rw [unread, hn, List.range_succ, List.map_append]
  simp only [inputBufSize] at h
  congr 1
  · refine List.map_congr_left fun j hj => ?_
    rw [List.mem_range] at hj
    simp only [get, push, index_eq]
    refine Function.update_of_ne ?_ _ _
    simp only [inputBufSize]
    omega
  · simp only [List.map_cons, List.map_nil, get, push, index_eq, List.cons.injEq, and_true]
    rw [← hend]
    exact Function.update_self ..

/-- The byte at `r` is the head of the queue. -/
theorem unread_pop (h : 0 < (k.e - k.r).toNat) :
    k.unread = k.get k.r :: k.pop.unread := by
  have hn : (k.e - k.r).toNat = (k.pop.e - k.pop.r).toNat + 1 := by
    simp only [pop]
    bv_omega
  rw [unread, hn, List.range_succ_eq_map, List.map_cons, List.map_map]
  congr 1
  · simp
  · refine List.map_congr_left fun j _ => ?_
    show k.get (k.r + BitVec.ofNat 32 (j + 1)) = k.get (k.r + 1#32 + BitVec.ofNat 32 j)
    rw [BitVec.ofNat_add, BitVec.add_assoc, BitVec.add_comm (BitVec.ofNat 32 j)]

end Cons

namespace RingOk

variable (h : RingOk k l)

include h

theorem length_accepted :
    (acceptedBytes l).length = (takenBytes l).length + (k.e - k.r).toNat := by
  rw [h.content, List.length_append, k.length_unread]

/-- The queue accepts what the ring has room for. -/
theorem accepted_arrived (c : UInt8) : acceptedBytes (.arrived c :: l) =
    if c ≠ 0 ∧ (k.e - k.r).toNat < inputBufSize then acceptedBytes l ++ [normalize c]
    else acceptedBytes l := by
  rw [acceptedBytes, h.length_accepted]
  simp only [Nat.add_lt_add_iff_left]

/-- A character that is not accepted changes nothing. -/
theorem reject (hc : ¬(c ≠ 0 ∧ (k.e - k.r).toNat < inputBufSize)) : RingOk k (.arrived c :: l) where
  fits := h.fits
  committed := h.committed
  full := h.full
  content := by
    rw [h.accepted_arrived, if_neg hc]
    exact h.content
  echo := by
    rw [h.accepted_arrived, if_neg hc]
    exact h.echo

/-- A character that is accepted and echoed, up to the commitment. -/
theorem push (hc : c ≠ 0) (hroom : (k.e - k.r).toNat < inputBufSize) {d : Cons}
    (hr : d.r = k.r) (he : d.e = k.e + 1) (hbuf : d.buf = (k.push (normalize c)).buf)
    (hw : d.w = k.w ∧ (d.e - d.r).toNat ≠ inputBufSize ∨ d.w = d.e) :
    RingOk d (.echoed (normalize c) :: .arrived c :: l) := by
  have hunread : d.unread = k.unread ++ [normalize c] := by
    rw [← Cons.unread_push hroom]
    simp [Cons.unread, Cons.get, hr, he, hbuf, Cons.push]
  have hacc : acceptedBytes (.echoed (normalize c) :: .arrived c :: l) =
      acceptedBytes l ++ [normalize c] := by
    rw [show acceptedBytes (.echoed (normalize c) :: .arrived c :: l) =
      acceptedBytes (.arrived c :: l) from rfl, h.accepted_arrived, if_pos ⟨hc, hroom⟩]
  have hcommitted := h.committed
  constructor
  case fits =>
    simp only [hr, he, inputBufSize] at hroom ⊢
    bv_omega
  case committed =>
    rcases hw with ⟨hw, -⟩ | hw
    · simp only [hr, he, hw, inputBufSize] at hroom ⊢
      bv_omega
    · rw [hw]
  case full => exact fun hfull => hw.elim (fun hne => absurd hfull hne.2) id
  case content =>
    rw [hacc, h.content, hunread, List.append_assoc]
    rfl
  case echo =>
    rw [hacc, ← h.echo]
    rfl

/-- A byte is taken. -/
theorem pop (hne : k.r ≠ k.w) {e : Event}
    (he : e = .handed i (k.get k.r) ∨ e = .lost i (k.get k.r)) :
    RingOk k.pop (e :: l) := by
  have hpos : 0 < (k.w - k.r).toNat := by bv_omega
  have hcommitted := h.committed
  have hfits := h.fits
  have htaken : takenBytes (e :: l) = takenBytes l ++ [k.get k.r] := by
    rcases he with rfl | rfl <;> rfl
  have hacc : acceptedBytes (e :: l) = acceptedBytes l ∧ echoedBytes (e :: l) = echoedBytes l := by
    rcases he with rfl | rfl <;> exact ⟨rfl, rfl⟩
  constructor
  case fits =>
    simp only [Cons.pop, inputBufSize] at hfits ⊢
    bv_omega
  case committed =>
    simp only [Cons.pop]
    bv_omega
  case full =>
    simp only [Cons.pop, inputBufSize] at hfits ⊢
    bv_omega
  case content =>
    rw [hacc.1, htaken, h.content, Cons.unread_pop (by omega), List.append_assoc]
    rfl
  case echo => rw [hacc.1, hacc.2, h.echo]

end RingOk

end OsKernel
