import Mathlib.Data.List.TakeWhile
import OsKernel.Lib.ByteMemory

/-!
# `string.c` on byte memory

The loops of `memset`, `memmove` and `safestrcpy` as the source has them, and the closed
form of the first two: `memset` fills a range with one byte, and `memmove` puts at its
destination the bytes that were at its source, whichever way the two ranges overlap.
-/

namespace OsKernel

namespace Mem

/-- `memset(dst, c, n)`. -/
def memset (m : Mem) (dst : ℕ) (c : UInt8) : ℕ → Mem
  | 0 => m
  | n + 1 => Function.update (memset m dst c n) (dst + n) c

/-- The descending loop of `memmove`, with both pointers `n` bytes above `dst` and `src`. -/
def moveDown (m : Mem) (dst src : ℕ) : ℕ → Mem
  | 0 => m
  | n + 1 => moveDown (Function.update m (dst + n) (m (src + n))) dst src n

/-- The ascending loop of `memmove`. -/
def moveUp (m : Mem) : (dst src n : ℕ) → Mem
  | _, _, 0 => m
  | dst, src, n + 1 => moveUp (Function.update m dst (m src)) (dst + 1) (src + 1) n

/-- `memmove(dst, src, n)`. -/
def memmove (m : Mem) (dst src n : ℕ) : Mem :=
  if n = 0 then m
  else if src < dst ∧ src + n > dst then m.moveDown dst src n
  else m.moveUp dst src n

variable {m : Mem} {dst src n x : ℕ}

theorem memset_apply (c : UInt8) :
    m.memset dst c n x = if dst ≤ x ∧ x < dst + n then c else m x := by
  induction n with
  | zero => simp [memset, show ¬(dst ≤ x ∧ x < dst) by omega]
  | succ n ih =>
    rw [memset, Function.update_apply, ih]
    split_ifs <;> first | rfl | omega

theorem moveDown_apply (h : src < dst ∧ dst < src + n) :
    ∀ k, k ≤ n → ∀ m x, moveDown m dst src k x =
      if dst ≤ x ∧ x < dst + k then m (src + (x - dst)) else m x := by
  intro k
  induction k with
  | zero => intro _ m x; simp [moveDown, show ¬(dst ≤ x ∧ x < dst) by omega]
  | succ k ih =>
    intro hk m x
    rw [moveDown, ih (by omega)]
    -- the byte just written lies above everything the rest of the loop reads
    by_cases hx : x = dst + k
    · subst hx
      simp
    · rw [Function.update_of_ne hx]
      split_ifs with h₁ h₂
      · rw [Function.update_of_ne (by omega)]
      · omega
      · omega
      · rfl

theorem moveUp_apply : ∀ n m dst src x, ¬(src < dst ∧ dst < src + n) →
    moveUp m dst src n x = if dst ≤ x ∧ x < dst + n then m (src + (x - dst)) else m x := by
  intro n
  induction n with
  | zero => intro m dst src x _; simp [moveUp, show ¬(dst ≤ x ∧ x < dst) by omega]
  | succ n ih =>
    intro m dst src x h
    rw [moveUp, ih _ _ _ _ (by omega)]
    by_cases hx : x = dst
    · subst hx
      simp
    · rw [Function.update_of_ne hx]
      split_ifs with h₁ h₂ h₃
      · rw [Function.update_of_ne (by omega)]
        congr 1
        omega
      · omega
      · omega
      · rfl

/-- **`memmove` copies.** The destination holds the bytes the source held before the call and
nothing else changes, for every overlap of the two ranges. -/
theorem memmove_apply :
    m.memmove dst src n x = if dst ≤ x ∧ x < dst + n then m (src + (x - dst)) else m x := by
  rw [memmove]
  by_cases hn : n = 0
  · rw [if_pos hn, if_neg (by omega)]
  · rw [if_neg hn]
    by_cases hover : src < dst ∧ src + n > dst
    · rw [if_pos hover, moveDown_apply ⟨hover.1, hover.2⟩ n le_rfl]
    · rw [if_neg hover, moveUp_apply _ _ _ _ _ hover]

theorem memmove_eq_writeBytes : m.memmove dst src n = m.writeBytes dst (m.readBytes src n) := by
  funext x
  rw [memmove_apply]
  split_ifs with h
  · obtain ⟨i, rfl⟩ : ∃ i, x = dst + i := ⟨x - dst, by omega⟩
    rw [writeBytes_add (getElem?_readBytes (by omega)), Nat.add_sub_cancel_left]
  · rcases Nat.lt_or_ge x dst with hlt | hge
    · rw [writeBytes_of_lt hlt]
    · rw [writeBytes_of_ge (by simp only [length_readBytes]; omega)]

/-! ### `memmove` on pointers -/

/-- The descending loop of `memmove` on its pointers `d` and `s`, with `n` rounds to go. -/
def moveDownPtr (m : Mem) (d s : BitVec 64) : (n : ℕ) → Mem
  | 0 => m
  | n + 1 => moveDownPtr (Function.update m (d - 1).toNat (m (s - 1).toNat)) (d - 1) (s - 1) n

/-- The ascending loop of `memmove` on its pointers. -/
def moveUpPtr (m : Mem) (d s : BitVec 64) : (n : ℕ) → Mem
  | 0 => m
  | n + 1 => moveUpPtr (Function.update m d.toNat (m s.toNat)) (d + 1) (s + 1) n

/-- `memmove(dst, src, n)` on 64-bit pointers with a 32-bit count: the memory it leaves. -/
def memmovePtr (m : Mem) (dst src : BitVec 64) (n : BitVec 32) : Mem :=
  if n = 0 then m
  else if src < dst ∧ src + n.setWidth 64 > dst then
    m.moveDownPtr (dst + n.setWidth 64) (src + n.setWidth 64) n.toNat
  else m.moveUpPtr dst src n.toNat

/-- The descending loop begins at the ends of the ranges, which may be `2 ^ 64`. -/
theorem moveDownPtr_eq : ∀ (n : ℕ) (m : Mem) (d s : BitVec 64) (dst src : ℕ), dst + n ≤ 2 ^ 64 →
    src + n ≤ 2 ^ 64 → d.toNat = (dst + n) % 2 ^ 64 → s.toNat = (src + n) % 2 ^ 64 →
    m.moveDownPtr d s n = m.moveDown dst src n := by
  intro n
  induction n with
  | zero => exact fun _ _ _ _ _ _ _ _ _ => rfl
  | succ n ih =>
    intro m d s dst src hdst hsrc hd hs
    have hd' : (d - 1).toNat = dst + n := by bv_omega
    have hs' : (s - 1).toNat = src + n := by bv_omega
    rw [moveDownPtr, moveDown, ih _ _ _ dst src (by omega) (by omega) (by omega)
      (by omega), hd', hs']

/-- A pointer may wrap around at the end of the last round, when it is not used any more. -/
theorem moveUpPtr_eq : ∀ (n : ℕ) (m : Mem) (d s : BitVec 64), d.toNat + n ≤ 2 ^ 64 →
    s.toNat + n ≤ 2 ^ 64 → m.moveUpPtr d s n = m.moveUp d.toNat s.toNat n := by
  intro n
  induction n with
  | zero => exact fun _ _ _ _ _ => rfl
  | succ n ih =>
    intro m d s hd hs
    rw [moveUpPtr, moveUp]
    cases n with
    | zero => rfl
    | succ n =>
      have hd' : (d + 1).toNat = d.toNat + 1 := by bv_omega
      have hs' : (s + 1).toNat = s.toNat + 1 := by bv_omega
      rw [ih _ _ _ (by omega) (by omega), hd', hs']

/-- On ranges that do not wrap around, `memmove` on pointers is `memmove` on addresses. -/
theorem memmovePtr_eq {dst src : BitVec 64} {n : BitVec 32} (hdst : dst.toNat + n.toNat ≤ 2 ^ 64)
    (hsrc : src.toNat + n.toNat ≤ 2 ^ 64) :
    m.memmovePtr dst src n = m.memmove dst.toNat src.toNat n.toNat := by
  have hn : (n.setWidth 64).toNat = n.toNat := BitVec.toNat_setWidth_of_le (by decide)
  have hzero : n = 0 ↔ n.toNat = 0 := BitVec.toNat_eq
  -- a source below the destination ends below `2 ^ 64`, so the test compares the true end
  have htest : src < dst ∧ src + n.setWidth 64 > dst ↔
      src.toNat < dst.toNat ∧ src.toNat + n.toNat > dst.toNat := by
    rw [BitVec.lt_def, gt_iff_lt, BitVec.lt_def, BitVec.toNat_add, hn]
    refine and_congr_right fun hlt => ?_
    rw [Nat.mod_eq_of_lt (by omega)]
  rw [memmovePtr, memmove]
  simp only [hzero, htest]
  refine if_congr Iff.rfl rfl ?_
  split_ifs with hover
  · refine moveDownPtr_eq _ _ _ _ _ _ hdst hsrc ?_ ?_
    · rw [BitVec.toNat_add, hn]
    · rw [BitVec.toNat_add, hn]
  · exact moveUpPtr_eq _ _ _ _ hdst hsrc

/-- **`memmove` is correct for every overlap** of two ranges that do not wrap around. -/
theorem memmovePtr_copies (m : Mem) (dst src : BitVec 64) (n : BitVec 32)
    (hdst : dst.toNat + n.toNat ≤ 2 ^ 64) (hsrc : src.toNat + n.toNat ≤ 2 ^ 64) :
    (∀ k, k < n.toNat → m.memmovePtr dst src n (dst.toNat + k) = m (src.toNat + k)) ∧
    ∀ x, ¬(dst.toNat ≤ x ∧ x < dst.toNat + n.toNat) → m.memmovePtr dst src n x = m x := by
  rw [memmovePtr_eq hdst hsrc]
  refine ⟨fun k hk => ?_, fun x hx => ?_⟩
  · rw [memmove_apply, if_pos (by omega), Nat.add_sub_cancel_left]
  · rw [memmove_apply, if_neg hx]

/-- Four bytes move up by two, to the end of the address space: the last one arrives, and the one
before the target stays. -/
theorem memmovePtr_copies_end :
    memmovePtr (fun a => UInt8.ofNat a) 0xfffffffffffffffc 0xfffffffffffffffa 4
      0xffffffffffffffff = 0xfd ∧
    memmovePtr (fun a => UInt8.ofNat a) 0xfffffffffffffffc 0xfffffffffffffffa 4
      0xfffffffffffffffb = 0xfb := by
  obtain ⟨hin, hout⟩ := memmovePtr_copies (fun a => UInt8.ofNat a) 0xfffffffffffffffc
    0xfffffffffffffffa 4 (by decide) (by decide)
  exact ⟨(hin 3 (by decide)).trans (by decide),
    (hout 0xfffffffffffffffb (by decide)).trans (by decide)⟩

end Mem

/-! ### `safestrcpy` -/

/-- The loop of `safestrcpy` with room for `n` more bytes before the last one. The copied NUL
is followed by the NUL that ends every copy. -/
def safestrcpyLoop : (s t : List UInt8) → ℕ → List UInt8
  | s, _, 0 => 0 :: s.tail
  | s, t, n + 1 =>
    if t.headD 0 = 0 then 0 :: 0 :: s.tail.tail
    else t.headD 0 :: safestrcpyLoop s.tail t.tail n

/-- `safestrcpy(s, t, n)` on the bytes of the buffer `s` and of the string `t`. -/
def safestrcpy (s t : List UInt8) (n : ℕ) : List UInt8 :=
  if n = 0 then s else safestrcpyLoop s t (n - 1)

/-- The string a buffer holds. -/
def strOf (s : List UInt8) : List UInt8 := s.takeWhile (· ≠ 0)

/-- A buffer of 16 bytes with a string in it. -/
def IsName (s : List UInt8) : Prop := s.length = 16 ∧ (0 : UInt8) ∈ s

theorem length_safestrcpyLoop : ∀ (n : ℕ) (s t : List UInt8), n < s.length →
    (safestrcpyLoop s t n).length = s.length
  | 0, s, t, h => by
    simp only [safestrcpyLoop, List.length_cons, List.length_tail]
    omega
  | n + 1, s, t, h => by
    rw [safestrcpyLoop]
    split_ifs
    · simp only [List.length_cons, List.length_tail]
      omega
    · rw [List.length_cons, length_safestrcpyLoop n _ _ (by rw [List.length_tail]; omega),
        List.length_tail]
      omega

theorem zero_mem_safestrcpyLoop : ∀ (n : ℕ) (s t : List UInt8), 0 ∈ safestrcpyLoop s t n
  | 0, s, t => by simp [safestrcpyLoop]
  | n + 1, s, t => by
    rw [safestrcpyLoop]
    split_ifs
    · exact List.mem_cons_self
    · exact List.mem_cons_of_mem _ (zero_mem_safestrcpyLoop n _ _)

theorem strOf_safestrcpyLoop : ∀ (n : ℕ) (s t : List UInt8),
    strOf (safestrcpyLoop s t n) = (strOf t).take n
  | 0, s, t => by simp [safestrcpyLoop, strOf]
  | n + 1, s, [] => by simp [safestrcpyLoop, strOf]
  | n + 1, s, x :: t => by
    rw [safestrcpyLoop]
    by_cases hx : x = 0
    · simp [hx, strOf]
    · have ih := strOf_safestrcpyLoop n s.tail t
      simpa [hx, strOf] using ih

/-- A copied name is a name. -/
theorem IsName.safestrcpy {s : List UInt8} (h : IsName s) (t : List UInt8) :
    IsName (safestrcpy s t 16) :=
  ⟨(length_safestrcpyLoop 15 s t (by rw [h.1]; decide)).trans h.1, zero_mem_safestrcpyLoop 15 s t⟩

/-- **`safestrcpy` copies names** unchanged. -/
theorem strOf_safestrcpy (s : List UInt8) {t : List UInt8} (h : IsName t) :
    strOf (safestrcpy s t 16) = strOf t := by
  refine (strOf_safestrcpyLoop 15 s t).trans (List.take_of_length_le ?_)
  -- the terminating NUL is one of the 16 bytes
  have hlt : (strOf t).length < t.length := by
    refine lt_of_le_of_ne (List.takeWhile_prefix _).length_le fun heq => ?_
    have hall : strOf t = t := (List.takeWhile_prefix _).eq_of_length heq
    have hmem : (0 : UInt8) ∈ strOf t := hall.symm ▸ h.2
    simpa using List.mem_takeWhile_imp hmem
  have := h.1
  omega

end OsKernel
