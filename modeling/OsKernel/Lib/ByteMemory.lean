import Mathlib.Data.List.Range
import OsKernel.Lib.LittleEndian

/-!
# Byte memory

A memory is a function from addresses to bytes. Everything is expressed through two
operations: `readBytes`, the list of bytes from an address on, and `writeBytes`, which puts
a list of bytes at an address. A word access (`load64`, `store64`) reads or writes eight of
them. The laws are the usual three: a read sees the last write to the same place, a read
next to a write does not see it, and a read depends on the bytes it covers only.
-/

namespace OsKernel

/-- A byte-addressed memory. -/
abbrev Mem := ℕ → UInt8

namespace Mem

/-- The `n` bytes from address `a` on. -/
def readBytes (m : Mem) (a n : ℕ) : List UInt8 := (List.range n).map fun i => m (a + i)

/-- The memory with the bytes `bs` at address `a`. -/
def writeBytes (m : Mem) (a : ℕ) (bs : List UInt8) : Mem := fun x =>
  if a ≤ x then (bs[x - a]?).getD (m x) else m x

/-- The 64-bit word at address `a`. -/
def load64 (m : Mem) (a : ℕ) : ℕ := leValue (m.readBytes a 8)

/-- The memory with the 64-bit word `v` at address `a`. -/
def store64 (m : Mem) (a v : ℕ) : Mem := m.writeBytes a (leBytes 8 v)

/-- Two memories agree on the `n` bytes from `a` on. -/
def AgreeOn (m m' : Mem) (a n : ℕ) : Prop := ∀ i, i < n → m' (a + i) = m (a + i)

variable {m m' m'' : Mem} {a b n : ℕ}

@[simp] theorem length_readBytes : (m.readBytes a n).length = n := by simp [readBytes]

theorem getElem?_readBytes {i : ℕ} (h : i < n) : (m.readBytes a n)[i]? = some (m (a + i)) := by
  simp [readBytes, h]

theorem writeBytes_of_lt {bs : List UInt8} {x : ℕ} (h : x < a) : m.writeBytes a bs x = m x := by
  simp [writeBytes, Nat.not_le.mpr h]

theorem writeBytes_of_ge {bs : List UInt8} {x : ℕ} (h : a + bs.length ≤ x) :
    m.writeBytes a bs x = m x := by
  have hnone : bs[x - a]? = none := by
    rw [List.getElem?_eq_none_iff]
    omega
  simp [writeBytes, hnone]

theorem writeBytes_add {bs : List UInt8} {i : ℕ} {c : UInt8} (h : bs[i]? = some c) :
    m.writeBytes a bs (a + i) = c := by
  simp [writeBytes, h]

/-- A write does the same to memories that agree. -/
theorem writeBytes_congr {bs : List UInt8} {x : ℕ} (h : m' x = m x) :
    m'.writeBytes a bs x = m.writeBytes a bs x := by
  simp [writeBytes, h]

@[simp] theorem writeBytes_nil : m.writeBytes a [] = m := by
  funext x
  simp [writeBytes]

/-- Writing a list is writing its first byte and then the rest. -/
theorem writeBytes_cons (c : UInt8) (bs : List UInt8) :
    m.writeBytes a (c :: bs) = writeBytes (Function.update m a c) (a + 1) bs := by
  funext x
  rcases Nat.lt_trichotomy x a with h | rfl | h
  · rw [writeBytes_of_lt h, writeBytes_of_lt (by omega), Function.update_of_ne (by omega)]
  · rw [writeBytes_of_lt (Nat.lt_succ_self x), Function.update_self]
    exact writeBytes_add (a := x) (i := 0) rfl
  · obtain ⟨k, rfl⟩ : ∃ k, x = a + 1 + k := ⟨x - (a + 1), by omega⟩
    have hsub : a + 1 + k - a = k + 1 := by omega
    have hne : a + 1 + k ≠ a := by omega
    simp [writeBytes, hsub, Function.update_of_ne hne, show a ≤ a + 1 + k by omega]

/-- A read sees the bytes just written. -/
theorem readBytes_writeBytes_self (bs : List UInt8) :
    (m.writeBytes a bs).readBytes a bs.length = bs := by
  apply List.ext_getElem? fun i => ?_
  by_cases h : i < bs.length
  · rw [getElem?_readBytes h, writeBytes_add (List.getElem?_eq_getElem h),
      List.getElem?_eq_getElem h]
  · rw [List.getElem?_eq_none_iff.mpr (by simpa using h),
      List.getElem?_eq_none_iff.mpr (by omega)]

namespace AgreeOn

theorem refl (m : Mem) (a n : ℕ) : AgreeOn m m a n := fun _ _ => rfl

theorem trans (h : AgreeOn m m' a n) (h' : AgreeOn m' m'' a n) : AgreeOn m m'' a n :=
  fun i hi => (h' i hi).trans (h i hi)

theorem mono (h : AgreeOn m m' a n) {k : ℕ} (hk : a ≤ b) (hle : b + k ≤ a + n) :
    AgreeOn m m' b k := fun i hi => by
  have := h (b + i - a) (by omega)
  rwa [show a + (b + i - a) = b + i by omega] at this

/-- A read depends on the bytes it covers only. -/
theorem readBytes_eq (h : AgreeOn m m' a n) : m'.readBytes a n = m.readBytes a n := by
  rw [readBytes, readBytes, List.map_inj_left]
  intro i hi
  exact h i (List.mem_range.mp hi)

theorem load64_eq (h : AgreeOn m m' a 8) : m'.load64 a = m.load64 a := by
  rw [load64, load64, h.readBytes_eq]

end AgreeOn

/-- A write leaves everything beside it alone. -/
theorem agreeOn_writeBytes {bs : List UInt8} (h : a + bs.length ≤ b ∨ b + n ≤ a) :
    AgreeOn m (m.writeBytes a bs) b n := fun i hi => by
  rcases h with h | h
  · exact writeBytes_of_ge (by omega)
  · exact writeBytes_of_lt (by omega)

theorem agreeOn_store64 {v : ℕ} (h : a + 8 ≤ b ∨ b + n ≤ a) :
    AgreeOn m (m.store64 a v) b n := agreeOn_writeBytes (by simpa using h)

theorem load64_store64_mod (v : ℕ) : (m.store64 a v).load64 a = v % 2 ^ 64 := by
  have h := readBytes_writeBytes_self (m := m) (a := a) (leBytes 8 v)
  rw [length_leBytes] at h
  rw [load64, store64, h, leValue_leBytes_mod]
  rfl

theorem load64_store64 {v : ℕ} (hv : v < 2 ^ 64) : (m.store64 a v).load64 a = v := by
  rw [load64_store64_mod, Nat.mod_eq_of_lt hv]

theorem load64_store64_of_disjoint {v : ℕ} (h : a + 8 ≤ b ∨ b + 8 ≤ a) :
    (m.store64 a v).load64 b = m.load64 b := (agreeOn_store64 h).load64_eq

/-- A word of zero bytes is zero. -/
theorem load64_eq_zero (h : ∀ i, i < 8 → m (a + i) = 0) : m.load64 a = 0 := by
  have hzero : m.readBytes a 8 = List.replicate 8 0 := by
    rw [List.eq_replicate_iff]
    refine ⟨length_readBytes, fun b hb => ?_⟩
    obtain ⟨i, hi, rfl⟩ := List.mem_map.mp hb
    exact h i (List.mem_range.mp hi)
  rw [load64, hzero]
  rfl

end Mem

end OsKernel
