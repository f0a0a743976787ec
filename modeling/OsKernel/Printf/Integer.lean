import Mathlib.Data.Nat.Digits.Lemmas
import OsKernel.Printf.Format

/-!
# `printint`

`printintTo` is `printint` of `printf.c` with the array it works on: the digits are stored in
`buf[24]` from the lowest on, a minus sign after them, and then the array is emitted from the top.
A store or a load outside the array has no result. The text it emits is `printint`, of which the
formatter is built.

The text is canonical, and it can be read back: `readInteger` is how a number is read, and it gives
the value that was printed. So no two values have the same text.
-/

namespace OsKernel

/-! ### The code -/

/-- `buf` and `i` of `printint`. -/
structure IntBuf where
  buf : Fin 24 → UInt8
  i : ℕ

/-- `buf[i++] = c`. -/
def IntBuf.push (b : IntBuf) (c : UInt8) : Option IntBuf :=
  if h : b.i < 24 then some ⟨Function.update b.buf ⟨b.i, h⟩ c, b.i + 1⟩ else none

/-- The `do` loop of `printint`, for as many rounds as there is fuel. -/
def printintLoop (base : ℕ) : (fuel x : ℕ) → IntBuf → Option IntBuf
  | 0, _, _ => none
  | fuel + 1, x, b => do
    let b ← b.push (digit (x % base))
    if x / base = 0 then return b else printintLoop base fuel (x / base) b

variable {σ : Type}

/-- The `while` loop of `printint`. -/
def printintEmit (emit : UInt8 → σ → σ) (buf : Fin 24 → UInt8) : (i : ℕ) → σ → Option σ
  | 0, ctx => some ctx
  | i + 1, ctx => if h : i < 24 then printintEmit emit buf i (emit (buf ⟨i, h⟩) ctx) else none

/-- `printint`, with what the array holds at its start. -/
def printintTo (emit : UInt8 → σ → σ) (buf : Fin 24 → UInt8) (xx : BitVec 64) (base : ℕ)
    (sign : Bool) (ctx : σ) : Option σ := do
  let neg := sign && xx.toInt < 0
  let x := if neg then (-xx).toNat else xx.toNat
  let b ← printintLoop base 64 x ⟨buf, 0⟩
  let b ← (if neg then b.push 45 else some b)
  printintEmit emit b.buf b.i ctx

/-! ### The array -/

/-- The first bytes of the array are `bs`. -/
structure IntBuf.Holds (b : IntBuf) (bs : List UInt8) : Prop where
  i : b.i = bs.length
  get : ∀ k (h : k < 24), k < bs.length → bs[k]? = some (b.buf ⟨k, h⟩)

theorem IntBuf.Holds.push {b : IntBuf} {bs : List UInt8} (h : b.Holds bs) (hlt : bs.length < 24)
    (c : UInt8) : ∃ b', b.push c = some b' ∧ b'.Holds (bs ++ [c]) := by
  have hi : b.i < 24 := h.i ▸ hlt
  refine ⟨_, dif_pos hi, by rw [List.length_append, ← h.i]; rfl, fun k hk hlen => ?_⟩
  show (bs ++ [c])[k]? = some (Function.update b.buf ⟨b.i, hi⟩ c ⟨k, hk⟩)
  rw [List.length_append, List.length_singleton, ← h.i] at hlen
  rcases Nat.lt_succ_iff_lt_or_eq.mp hlen with hk' | rfl
  · rw [List.getElem?_append_left (h.i ▸ hk'), Function.update_of_ne (by simpa using hk'.ne)]
    exact h.get k hk (h.i ▸ hk')
  · rw [Function.update_self, h.i, List.getElem?_concat_length]

/-- The loop stores the digits, if there is room for them. -/
theorem printintLoop_eq {base : ℕ} :
    ∀ (fuel : ℕ) {x : ℕ} {b : IntBuf} {bs : List UInt8}, b.Holds bs →
    x < base ^ fuel → 0 < fuel → bs.length + (printintDigits base fuel x).length ≤ 24 →
    ∃ b', printintLoop base fuel x b = some b' ∧ b'.Holds (bs ++ printintDigits base fuel x) := by
  intro fuel
  induction fuel with
  | zero => exact fun _ _ h _ => absurd h (Nat.lt_irrefl 0)
  | succ fuel ih =>
    intro x b bs hb hx _ hlen
    rw [printintDigits] at hlen ⊢
    have hroom : bs.length < 24 := by
      split_ifs at hlen <;> simp only [List.length_cons] at hlen <;> omega
    obtain ⟨b₁, hpush, hb₁⟩ := hb.push hroom (digit (x % base))
    rw [printintLoop, hpush, Option.bind_eq_bind, Option.bind_some]
    split_ifs at hlen ⊢ with hzero
    · exact ⟨b₁, rfl, hb₁⟩
    · have hdiv : x / base < base ^ fuel := Nat.div_lt_of_lt_mul (by rwa [pow_succ'] at hx)
      have hfuel : 0 < fuel := by
        refine Nat.pos_of_ne_zero fun h0 => hzero ?_
        rw [h0, pow_zero] at hdiv
        exact Nat.lt_one_iff.mp hdiv
      rw [List.length_cons] at hlen
      obtain ⟨b', hloop, hb'⟩ := ih hb₁ hdiv hfuel (by
        rw [List.length_append, List.length_singleton]
        omega)
      rw [List.append_assoc] at hb'
      exact ⟨b', hloop, hb'⟩

/-- The array is emitted from the top. -/
theorem IntBuf.Holds.emit {b : IntBuf} {bs : List UInt8} (h : b.Holds bs) (hlen : bs.length ≤ 24)
    (emit : UInt8 → σ → σ) (ctx : σ) :
    printintEmit emit b.buf b.i ctx = some (emitAll emit bs.reverse ctx) := by
  have hloop : ∀ k ctx, k ≤ bs.length →
      printintEmit emit b.buf k ctx = some (emitAll emit (bs.take k).reverse ctx) := by
    intro k
    induction k with
    | zero => exact fun ctx _ => rfl
    | succ k ih =>
      intro ctx hk
      have hget := h.get k (by omega) hk
      rw [printintEmit, dif_pos (by omega), ih _ (by omega), List.take_add_one, hget,
        Option.toList_some, List.reverse_append, List.reverse_singleton, List.singleton_append,
        emitAll_cons]
  rw [h.i, hloop _ _ le_rfl, List.take_length]

/-! ### The digits -/

/-- The digits of a number, the lowest first; zero has one. -/
def intDigits (base x : ℕ) : List ℕ := if x = 0 then [0] else Nat.digits base x

theorem printintDigits_eq {base : ℕ} (hbase : 1 < base) :
    ∀ {fuel x : ℕ}, x < base ^ fuel → 0 < fuel →
    printintDigits base fuel x = (intDigits base x).map digit := by
  intro fuel
  induction fuel with
  | zero => exact fun _ h => absurd h (Nat.lt_irrefl 0)
  | succ fuel ih =>
    intro x hx _
    rw [printintDigits, intDigits]
    have hdiv : x / base < base ^ fuel := Nat.div_lt_of_lt_mul (by rwa [pow_succ'] at hx)
    split_ifs with hzero h0 h0
    · rw [h0, Nat.zero_mod]
      rfl
    · rw [Nat.digits_def' hbase (Nat.pos_of_ne_zero h0), hzero, Nat.digits_zero]
      rfl
    · rw [h0, Nat.zero_div] at hzero
      exact absurd rfl hzero
    · have hfuel : 0 < fuel := by
        refine Nat.pos_of_ne_zero fun hf => hzero ?_
        rw [hf, pow_zero] at hdiv
        exact Nat.lt_one_iff.mp hdiv
      rw [ih hdiv hfuel, intDigits, if_neg hzero, Nat.digits_def' hbase (Nat.pos_of_ne_zero h0),
        List.map_cons]

section IntDigits

variable {base x : ℕ}

theorem intDigits_ne_nil : intDigits base x ≠ [] := by
  rw [intDigits]
  split_ifs with h0
  · exact List.cons_ne_nil _ _
  · exact Nat.digits_ne_nil_iff_ne_zero.mpr h0

theorem intDigits_lt (hbase : 1 < base) {d : ℕ} (hd : d ∈ intDigits base x) : d < base := by
  rw [intDigits] at hd
  split_ifs at hd with h0
  · rw [List.mem_singleton.mp hd]
    omega
  · exact Nat.digits_lt_base hbase hd

theorem ofDigits_intDigits : Nat.ofDigits base (intDigits base x) = x := by
  rw [intDigits]
  split_ifs with h0
  · rw [h0, Nat.ofDigits_singleton]
  · exact Nat.ofDigits_digits base x

theorem length_intDigits_le {k : ℕ} (hbase : 1 < base) (hk : 0 < k) (hx : x < base ^ k) :
    (intDigits base x).length ≤ k := by
  rw [intDigits]
  split_ifs
  · exact hk
  · exact (Nat.digits_length_le_iff hbase x).mpr hx

/-- The highest digit is not zero, but for the number zero. -/
theorem getLast?_intDigits (h : (intDigits base x).getLast? = some 0) : intDigits base x = [0] := by
  rw [intDigits] at h ⊢
  split_ifs at h ⊢ with h0
  · rfl
  · rw [List.getLast?_eq_getLast_of_ne_nil (Nat.digits_ne_nil_iff_ne_zero.mpr h0),
      Option.some.injEq] at h
    exact absurd h (Nat.getLast_digit_ne_zero base h0)

end IntDigits

/-! ### Reading -/

/-- The value of a digit of the base. -/
def digitValue (base : ℕ) (c : UInt8) : Option ℕ := (List.range base).find? (digit · = c)

/-- The natural number that a text in the base stands for. -/
def readNatural (base : ℕ) (text : List UInt8) : Option ℕ :=
  if text = [] then none else (text.mapM (digitValue base)).map fun ds =>
    Nat.ofDigits base ds.reverse

/-- The integer that a text in the base stands for. -/
def readInteger (base : ℕ) (text : List UInt8) : Option ℤ :=
  if text.head? = some 45 then (readNatural base text.tail).map fun n : ℕ => -(n : ℤ)
  else (readNatural base text).map fun n : ℕ => (n : ℤ)

/-- The digits of a base, in lower case. -/
def baseDigits (base : ℕ) : List UInt8 := (cstr "0123456789abcdef").take base

/-- A natural number as it should be printed: digits of the base, at least one, and no leading zero
but in the text of zero. -/
structure IsNumeral (base : ℕ) (text : List UInt8) : Prop where
  ne_nil : text ≠ []
  digits : ∀ c ∈ text, c ∈ baseDigits base
  leading : text.head? = some 48 → text = [48]

section Base

variable {base x d : ℕ} (hbase : base = 10 ∨ base = 16)

include hbase

theorem one_lt_base : 1 < base := by
  rcases hbase with rfl | rfl <;> decide

theorem digit_mem_baseDigits (hd : d < base) : digit d ∈ baseDigits base := by
  rcases hbase with rfl | rfl <;> revert d <;> decide

theorem digitValue_digit (hd : d < base) : digitValue base (digit d) = some d := by
  rcases hbase with rfl | rfl <;> revert d <;> decide

theorem eq_zero_of_digit (hd : d < base) : digit d = 48 → d = 0 := by
  rcases hbase with rfl | rfl <;> revert d <;> decide

theorem minus_notMem_baseDigits : (45 : UInt8) ∉ baseDigits base := by
  rcases hbase with rfl | rfl <;> decide

/-- A 64-bit number has at most twenty digits. -/
theorem lt_base_pow (hx : x < 2 ^ 64) : x < base ^ 20 := by
  rcases hbase with rfl | rfl
  · exact hx.trans (by decide)
  · exact hx.trans (by decide)

theorem mapM_digitValue {ds : List ℕ} (hds : ∀ d ∈ ds, d < base) :
    (ds.map digit).mapM (digitValue base) = some ds := by
  induction ds with
  | nil => rfl
  | cons d ds ih =>
    rw [List.forall_mem_cons] at hds
    rw [List.map_cons, List.mapM_cons, digitValue_digit hbase hds.1, ih hds.2]
    rfl

/-- What the digits of a number look like in print, and what they are read as. -/
theorem isNumeral_intDigits : IsNumeral base ((intDigits base x).map digit).reverse where
  ne_nil := by
    rw [ne_eq, List.reverse_eq_nil_iff, List.map_eq_nil_iff]
    exact intDigits_ne_nil
  digits c hc := by
    rw [List.mem_reverse, List.mem_map] at hc
    obtain ⟨d, hd, rfl⟩ := hc
    exact digit_mem_baseDigits hbase (intDigits_lt (one_lt_base hbase) hd)
  leading h := by
    rw [List.head?_reverse, List.getLast?_map, Option.map_eq_some_iff] at h
    obtain ⟨d, hlast, hd⟩ := h
    have hmem : d ∈ intDigits base x := List.mem_of_getLast? hlast
    rw [eq_zero_of_digit hbase (intDigits_lt (one_lt_base hbase) hmem) hd] at hlast
    rw [getLast?_intDigits hlast]
    rfl

theorem readNatural_intDigits :
    readNatural base ((intDigits base x).map digit).reverse = some x := by
  have hmap : (intDigits base x).reverse.map digit = ((intDigits base x).map digit).reverse :=
    List.map_reverse
  rw [readNatural, if_neg (isNumeral_intDigits hbase).ne_nil, ← hmap, mapM_digitValue hbase,
    Option.map_some, List.reverse_reverse, ofDigits_intDigits]
  intro d hd
  exact intDigits_lt (one_lt_base hbase) (List.mem_reverse.mp hd)

theorem IsNumeral.head?_ne_minus {text : List UInt8} (h : IsNumeral base text) :
    text.head? ≠ some 45 :=
  fun hhead => minus_notMem_baseDigits hbase (h.digits _ (List.mem_of_head? hhead))

end Base

/-! ### `printint` -/

/-- `neg` of `printint`. -/
def isNegative (xx : BitVec 64) (sign : Bool) : Bool := sign && xx.toInt < 0

/-- The absolute value that `printint` prints. -/
def magnitude (xx : BitVec 64) (sign : Bool) : ℕ :=
  if isNegative xx sign then (-xx).toNat else xx.toNat

theorem magnitude_lt (xx : BitVec 64) (sign : Bool) : magnitude xx sign < 2 ^ 64 := by
  rw [magnitude]
  split_ifs
  · exact (-xx).isLt
  · exact xx.isLt

/-- Sign and absolute value make up the value, for the least number as well. -/
theorem value_eq (xx : BitVec 64) (sign : Bool) :
    (if isNegative xx sign then -(magnitude xx sign : ℤ) else (magnitude xx sign : ℤ)) =
      if sign then xx.toInt else (xx.toNat : ℤ) := by
  have hlt := xx.isLt
  have htoInt := BitVec.toInt_eq_toNat_cond xx
  have hneg := BitVec.toNat_neg xx
  cases sign with
  | false => rfl
  | true =>
    by_cases h : xx.toInt < 0
    · have hnegative : isNegative xx true = true := by simpa [isNegative] using h
      rw [magnitude, hnegative, if_pos rfl, if_pos rfl, if_pos rfl, hneg]
      omega
    · have hnegative : isNegative xx true = false := by simpa [isNegative] using h
      rw [magnitude, hnegative, if_neg (by decide), if_neg (by decide), if_pos rfl]
      omega

section Printint

variable {base : ℕ} (hbase : base = 10 ∨ base = 16) (xx : BitVec 64) (sign : Bool)

include hbase

theorem printintDigits_magnitude :
    printintDigits base 64 (magnitude xx sign) =
      (intDigits base (magnitude xx sign)).map digit := by
  refine printintDigits_eq (one_lt_base hbase) ?_ (by decide)
  exact (lt_base_pow hbase (magnitude_lt xx sign)).trans_le
    (Nat.pow_le_pow_right (one_lt_base hbase).le (by decide))

/-- The text of a number: a minus sign if it is negative, and its digits. -/
theorem printint_eq : printint xx base sign = (if isNegative xx sign then [45] else []) ++
    ((intDigits base (magnitude xx sign)).map digit).reverse := by
  have hdigits := printintDigits_magnitude hbase xx sign
  show (if isNegative xx sign then printintDigits base 64 (magnitude xx sign) ++ cstr "-"
    else printintDigits base 64 (magnitude xx sign)).reverse = _
  rw [hdigits]
  split_ifs
  · rw [List.reverse_append]
    rfl
  · rw [List.nil_append]

/-- **The array is large enough**: at most twenty digits and a sign. -/
theorem printintTo_eq {σ : Type} (emit : UInt8 → σ → σ) (buf : Fin 24 → UInt8) (ctx : σ) :
    printintTo emit buf xx base sign ctx = some (emitAll emit (printint xx base sign) ctx) := by
  have hlt := lt_base_pow hbase (magnitude_lt xx sign)
  have hlen : (printintDigits base 64 (magnitude xx sign)).length ≤ 20 := by
    rw [printintDigits_magnitude hbase, List.length_map]
    exact length_intDigits_le (one_lt_base hbase) (by decide) hlt
  have hempty : IntBuf.Holds ⟨buf, 0⟩ [] := ⟨rfl, fun _ _ h => absurd h (Nat.not_lt_zero _)⟩
  obtain ⟨b, hloop, hb⟩ := printintLoop_eq 64 hempty
    (hlt.trans_le (Nat.pow_le_pow_right (one_lt_base hbase).le (by decide))) (by decide)
    ((Nat.zero_add _).trans_le (hlen.trans (by decide)))
  rw [List.nil_append] at hb
  show ((printintLoop base 64 (magnitude xx sign) ⟨buf, 0⟩).bind fun b =>
    (if isNegative xx sign then b.push 45 else some b).bind fun b =>
      printintEmit emit b.buf b.i ctx) = some (emitAll emit (if isNegative xx sign then
        printintDigits base 64 (magnitude xx sign) ++ cstr "-"
        else printintDigits base 64 (magnitude xx sign)).reverse ctx)
  rw [hloop, Option.bind_some]
  split_ifs
  · obtain ⟨b', hpush, hb'⟩ := hb.push (by omega) 45
    rw [hpush, Option.bind_some]
    exact hb'.emit (by rw [List.length_append, List.length_singleton]; omega) emit ctx
  · rw [Option.bind_some]
    exact hb.emit (by omega) emit ctx

theorem head?_printint : (printint xx base sign).head? = some 45 ↔ sign = true ∧ xx.toInt < 0 := by
  have hnumeral := isNumeral_intDigits (x := magnitude xx sign) hbase
  have hiff : isNegative xx sign = true ↔ sign = true ∧ xx.toInt < 0 := by simp [isNegative]
  rw [printint_eq hbase, ← hiff]
  cases isNegative xx sign with
  | false => exact ⟨fun h => absurd h (hnumeral.head?_ne_minus hbase), nofun⟩
  | true => exact ⟨fun _ => rfl, fun _ => rfl⟩

theorem readInteger_printint : readInteger base (printint xx base sign) =
    some (if sign then xx.toInt else (xx.toNat : ℤ)) := by
  have hnumeral := isNumeral_intDigits (x := magnitude xx sign) hbase
  have hread := readNatural_intDigits (x := magnitude xx sign) hbase
  rw [← value_eq xx sign, printint_eq hbase, readInteger]
  cases isNegative xx sign with
  | false =>
    show (if ((intDigits base (magnitude xx sign)).map digit).reverse.head? =
      some 45 then _ else _) = _
    rw [if_neg (hnumeral.head?_ne_minus hbase)]
    exact congrArg (Option.map fun n : ℕ => (n : ℤ)) hread
  | true => exact congrArg (Option.map fun n : ℕ => -(n : ℤ)) hread

/-- **Integers are printed in canonical form**, within the array, and can be read back. -/
theorem printint_canonical :
    (∀ (σ : Type) (emit : UInt8 → σ → σ) (buf : Fin 24 → UInt8) (ctx : σ),
      printintTo emit buf xx base sign ctx = some (emitAll emit (printint xx base sign) ctx)) ∧
    (∃ text, IsNumeral base text ∧
      printint xx base sign = (if sign = true ∧ xx.toInt < 0 then [45] else []) ++ text) ∧
    ((printint xx base sign).head? = some 45 ↔ sign = true ∧ xx.toInt < 0) ∧
    readInteger base (printint xx base sign) = some (if sign then xx.toInt else (xx.toNat : ℤ)) ∧
    ∀ yy, printint yy base sign = printint xx base sign → yy = xx := by
  refine ⟨fun σ emit buf ctx => printintTo_eq hbase xx sign emit buf ctx,
    ⟨_, isNumeral_intDigits (x := magnitude xx sign) hbase, ?_⟩, head?_printint hbase xx sign,
    readInteger_printint hbase xx sign, fun yy hyy => ?_⟩
  · rw [printint_eq hbase]
    simp only [isNegative, Bool.and_eq_true, decide_eq_true_eq]
  · have hvalue := readInteger_printint hbase yy sign
    rw [hyy, readInteger_printint hbase xx sign, Option.some.injEq] at hvalue
    cases sign with
    | false => exact (BitVec.eq_of_toNat_eq (Int.ofNat.inj hvalue)).symm
    | true => exact (BitVec.eq_of_toInt_eq hvalue).symm

end Printint

/-- The least number, whose absolute value is not a number of its type. -/
theorem printint_canonical_least :
    readInteger 10 (printint (BitVec.intMin 64) 10 true) = some (-2 ^ 63) :=
  (printint_canonical (.inl rfl) (BitVec.intMin 64) true).2.2.2.1

end OsKernel
