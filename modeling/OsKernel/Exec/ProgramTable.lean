import OsKernel.Lib.LittleEndian

/-!
# `find_uprog`: the reader of the embedded program table

`exec.c` looks a program up by walking `_uprog_table`, a run of entries
`{u64 start; u64 end; char name[]}` that ends with the entry `{0, 0}`. A pointer into the
table is the pair of its address and the bytes from there to the end of the table, so that
a read past the table is visible: it has no byte to return, and the walk ends in
`Lookup.fault`.

`Entry` carries what makes a run of bytes an entry (it is not the terminator, its name holds
no NUL, it is padded to 8 bytes), and the rules of the walk are stated on it:
`findUprog_entry` steps over one entry, `findUprog_entries` over a run of them, and
`findUprog_terminator` stops at `{0, 0}`. `exists_entries_of_findUprogLoop_eq_null` is the
converse: a walk that comes back empty-handed
has read a run of entries and then the terminator.
-/

namespace OsKernel

/-- The bytes of a C string: the characters, then the NUL. -/
def asciz (s : List UInt8) : List UInt8 := s ++ [0]

/-- `strlen` on the bytes from a pointer on; `none` when it leaves them without meeting a NUL. -/
def strlen : List UInt8 → Option ℕ
  | [] => none
  | c :: s => if c = 0 then some 0 else (strlen s).map (· + 1)

/-- `strncmp`: the difference of the first bytes that differ, `0` when the first `n` agree or
both strings end. -/
def strncmp : List UInt8 → List UInt8 → ℕ → Option ℤ
  | _, _, 0 => some 0
  | p :: ps, q :: qs, n + 1 =>
    if p ≠ 0 ∧ p = q then strncmp ps qs n else some ((p.toNat : ℤ) - q.toNat)
  | _, _, _ + 1 => none

theorem strlen_asciz_append {s : List UInt8} (hs : (0 : UInt8) ∉ s) (t : List UInt8) :
    strlen (s ++ 0 :: t) = some s.length := by
  induction s with
  | nil => simp [strlen]
  | cons c s ih =>
    simp only [List.mem_cons, not_or] at hs
    simp [strlen, Ne.symm hs.1, ih hs.2]

/-- Where `strlen` succeeds the bytes are a NUL-free string, the NUL, and a rest. -/
theorem eq_append_of_strlen {t : List UInt8} {n : ℕ} (h : strlen t = some n) :
    ∃ s u, t = s ++ 0 :: u ∧ (0 : UInt8) ∉ s ∧ s.length = n := by
  induction t generalizing n with
  | nil => simp [strlen] at h
  | cons c t ih =>
    by_cases hc : c = 0
    · subst hc
      simp only [strlen, if_true, Option.some.injEq] at h
      exact ⟨[], t, by simp, by simp, by simpa using h⟩
    · simp only [strlen, hc, if_false, Option.map_eq_some_iff] at h
      obtain ⟨m, hm, rfl⟩ := h
      obtain ⟨s, u, rfl, hs, rfl⟩ := ih hm
      exact ⟨c :: s, u, by simp, by simp [hs, Ne.symm hc], by simp⟩

/-- Comparing one more byte than a name has compares the NUL as well, so the bounded
comparison decides equality of the two strings. -/
theorem strncmp_asciz_append {s name : List UInt8} (hs : (0 : UInt8) ∉ s)
    (hname : (0 : UInt8) ∉ name) (t : List UInt8) :
    ∃ d, strncmp (s ++ 0 :: t) (asciz name) (name.length + 1) = some d ∧ (d = 0 ↔ s = name) := by
  induction name generalizing s with
  | nil =>
    cases s with
    | nil => exact ⟨0, by simp [strncmp, asciz], by simp⟩
    | cons c s =>
      simp only [List.mem_cons, not_or] at hs
      have hc : c ≠ 0 := fun h => hs.1 h.symm
      refine ⟨c.toNat, by simp [strncmp, asciz, hc], ?_⟩
      have : c.toNat ≠ 0 := fun h => hc (UInt8.toNat_inj.mp (by simpa using h))
      simp [this]
  | cons b name ih =>
    simp only [List.mem_cons, not_or] at hname
    cases s with
    | nil =>
      refine ⟨-(b.toNat : ℤ), by simp [strncmp, asciz], ?_⟩
      have : b.toNat ≠ 0 := fun h => hname.1 (UInt8.toNat_inj.mp (by simpa using h.symm))
      simp [this]
    | cons c s =>
      simp only [List.mem_cons, not_or] at hs
      by_cases hcb : c = b
      · subst hcb
        obtain ⟨d, hd, hiff⟩ := ih hs.2 hname.2
        refine ⟨d, ?_, by simp [hiff]⟩
        simpa [strncmp, asciz, Ne.symm hs.1] using hd
      · refine ⟨(c.toNat : ℤ) - b.toNat, by simp [strncmp, asciz, hcb], ?_⟩
        have : c.toNat ≠ b.toNat := fun h => hcb (UInt8.toNat_inj.mp h)
        simp only [List.cons.injEq, hcb, false_and, iff_false]
        omega

/-! ### The walk -/

/-- What `find_uprog` comes to: the address of a header, the null pointer at the end of the
table, or a read outside the table. -/
inductive Lookup where
  | found (header : ℕ)
  | null
  | fault
  deriving DecidableEq, Repr

/-- `p[0]` for a `uint64 *p`. -/
def readU64 (t : List UInt8) : Option ℕ :=
  if 8 ≤ t.length then some (leValue (t.take 8)) else none

/-- `(sz + 7) & ~7`. -/
def roundUp8 (n : ℕ) : ℕ := (n + 7) / 8 * 8

/-- The loop of `find_uprog` at address `p`, where the bytes `t` lie. The pointer moves up
by at least 24 bytes a round, so the loop needs no more rounds than there are bytes. -/
def findUprogLoop (name : List UInt8) : (fuel p : ℕ) → List UInt8 → Lookup
  | 0, _, _ => .fault
  | fuel + 1, p, t =>
    match readU64 t, readU64 (t.drop 8) with
    | some start, some stop =>
      if start = 0 ∧ stop = 0 then .null
      else
        match strlen name with
        | none => .fault
        | some nlen =>
          match strncmp (t.drop 16) name (nlen + 1) with
          | none => .fault
          | some d =>
            if d = 0 then .found p
            else
              match strlen (t.drop 16) with
              | none => .fault
              | some len =>
                let sz := roundUp8 (16 + len + 1)
                findUprogLoop name fuel (p + sz) (t.drop sz)
    | _, _ => .fault

/-- `find_uprog(name)` on a table at address `base`. -/
def findUprog (base : ℕ) (table name : List UInt8) : Lookup :=
  findUprogLoop name (table.length + 1) base table

/-! ### Entries -/

/-- The number of bytes `.balign 8` adds at position `n`. -/
def padLen (n : ℕ) : ℕ := (8 - n % 8) % 8

/-- A run of bytes the reader takes for one entry of the table. -/
structure Entry where
  start : ℕ
  stop : ℕ
  name : List UInt8
  pad : List UInt8
  start_lt : start < 256 ^ 8
  stop_lt : stop < 256 ^ 8
  not_terminator : ¬(start = 0 ∧ stop = 0)
  nul_free : (0 : UInt8) ∉ name
  padded : pad.length = padLen (17 + name.length)

namespace Entry

/-- The bytes of an entry, as they lie in the table. -/
def bytes (e : Entry) : List UInt8 :=
  leBytes 8 e.start ++ (leBytes 8 e.stop ++ (e.name ++ 0 :: e.pad))

theorem length_bytes (e : Entry) : e.bytes.length = roundUp8 (16 + e.name.length + 1) := by
  simp only [bytes, List.length_append, length_leBytes, List.length_cons, e.padded, padLen,
    roundUp8]
  omega

end Entry

/-- The `{0, 0}` entry that ends a table. -/
def terminator : List UInt8 := leBytes 8 0 ++ leBytes 8 0

@[simp] theorem length_terminator : terminator.length = 16 := rfl

theorem readU64_leBytes_append {v : ℕ} (hv : v < 256 ^ 8) (t : List UInt8) :
    readU64 (leBytes 8 v ++ t) = some v := by
  have htake : (leBytes 8 v ++ t).take 8 = leBytes 8 v := by
    rw [List.take_append_of_le_length (by simp), List.take_of_length_le (by simp)]
  simp [readU64, htake, leValue_leBytes hv]

theorem exists_eq_leBytes_of_readU64 {t : List UInt8} {v : ℕ} (h : readU64 t = some v) :
    v < 256 ^ 8 ∧ t = leBytes 8 v ++ t.drop 8 := by
  by_cases hlen : 8 ≤ t.length
  · simp only [readU64, hlen, if_true, Option.some.injEq] at h
    subst h
    have htake : (t.take 8).length = 8 := by simp [hlen]
    have hlt := leValue_lt (t.take 8)
    rw [htake] at hlt
    refine ⟨hlt, ?_⟩
    have hback := leBytes_leValue (t.take 8)
    rw [htake] at hback
    rw [hback, List.take_append_drop]
  · simp [readU64, hlen] at h

/-- **One round** over an entry: the walk stops on the entry whose name is looked up and
moves to the byte after any other. -/
theorem findUprogLoop_entry {name : List UInt8} (hname : (0 : UInt8) ∉ name) (fuel p : ℕ)
    (e : Entry) (t : List UInt8) :
    findUprogLoop (asciz name) (fuel + 1) p (e.bytes ++ t) =
      if e.name = name then .found p
      else findUprogLoop (asciz name) fuel (p + e.bytes.length) t := by
  have hstart : readU64 (e.bytes ++ t) = some e.start := by
    simpa [Entry.bytes, List.append_assoc] using readU64_leBytes_append e.start_lt _
  have hdrop8 : (e.bytes ++ t).drop 8 = leBytes 8 e.stop ++ (e.name ++ 0 :: (e.pad ++ t)) := by
    simp [Entry.bytes]
  have hstop : readU64 ((e.bytes ++ t).drop 8) = some e.stop := by
    rw [hdrop8]
    exact readU64_leBytes_append e.stop_lt _
  have hdrop16 : (e.bytes ++ t).drop 16 = e.name ++ 0 :: (e.pad ++ t) := by
    have : (e.bytes ++ t).drop 16 = ((e.bytes ++ t).drop 8).drop 8 := by rw [List.drop_drop]
    rw [this, hdrop8]
    simp
  have hnlen : strlen (asciz name) = some name.length := strlen_asciz_append hname []
  have hlen := strlen_asciz_append e.nul_free (e.pad ++ t)
  obtain ⟨d, hd, hiff⟩ := strncmp_asciz_append e.nul_free hname (e.pad ++ t)
  have hrest : (e.bytes ++ t).drop (roundUp8 (16 + e.name.length + 1)) = t := by
    rw [← e.length_bytes, List.drop_left]
  have hterm := e.not_terminator
  rw [findUprogLoop, hstart, hstop]
  simp only [hterm, if_false, hnlen, hdrop16, hd, hlen, hiff, hrest, e.length_bytes]

/-- The walk stops at `{0, 0}`. -/
theorem findUprogLoop_terminator (name : List UInt8) (fuel p : ℕ) (t : List UInt8) :
    findUprogLoop name (fuel + 1) p (terminator ++ t) = .null := by
  have hfst : readU64 (terminator ++ t) = some 0 :=
    readU64_leBytes_append (v := 0) (by decide) (leBytes 8 0 ++ t)
  have hsnd : readU64 ((terminator ++ t).drop 8) = some 0 :=
    readU64_leBytes_append (v := 0) (by decide) t
  rw [findUprogLoop, hfst, hsnd]
  simp

/-- A header that is not `{0, 0}` and a string behind it make an entry, unless the table ends
in the padding behind the string. -/
theorem exists_entry {t : List UInt8} {start stop len : ℕ} (hstart : readU64 t = some start)
    (hstop : readU64 (t.drop 8) = some stop) (hlive : ¬(start = 0 ∧ stop = 0))
    (hlen : strlen (t.drop 16) = some len) (hsz : roundUp8 (16 + len + 1) ≤ t.length) :
    ∃ e : Entry, e.name.length = len ∧ t = e.bytes ++ t.drop (roundUp8 (16 + len + 1)) := by
  obtain ⟨hlt, ht⟩ := exists_eq_leBytes_of_readU64 hstart
  obtain ⟨hlt', ht'⟩ := exists_eq_leBytes_of_readU64 hstop
  rw [List.drop_drop] at ht'
  obtain ⟨s, u, hsu, hs, rfl⟩ := eq_append_of_strlen hlen
  -- the padding is what lies between the NUL and the next multiple of 8
  have hsplit : t = leBytes 8 start ++ (leBytes 8 stop ++ (s ++ 0 :: u)) := by
    rw [← hsu, ← ht', ← ht]
  have hpad : padLen (17 + s.length) ≤ u.length := by
    have := congrArg List.length hsplit
    simp only [List.length_append, length_leBytes, List.length_cons] at this
    simp only [roundUp8, padLen] at hsz ⊢
    omega
  let e : Entry :=
    { start := start, stop := stop, name := s, pad := u.take (padLen (17 + s.length))
      start_lt := hlt, stop_lt := hlt', not_terminator := hlive, nul_free := hs
      padded := by simp [hpad] }
  have hbytes : t = e.bytes ++ u.drop (padLen (17 + s.length)) := by
    conv_lhs => rw [hsplit, ← List.take_append_drop (padLen (17 + s.length)) u]
    simp [e, Entry.bytes]
  refine ⟨e, rfl, ?_⟩
  have hdrop : t.drop (roundUp8 (16 + s.length + 1)) = u.drop (padLen (17 + s.length)) := by
    conv_lhs => rw [hbytes]
    rw [show roundUp8 (16 + s.length + 1) = e.bytes.length from e.length_bytes.symm,
      List.drop_left]
  rw [hdrop]
  exact hbytes

/-- Every round moves on, so any number of rounds above the number of bytes gives the same
result: the loop of the source, which has no bound, comes to it as well. -/
theorem findUprogLoop_fuel (name : List UInt8) {fuel : ℕ} (fuel' : ℕ) {p : ℕ} {t : List UInt8}
    (h : t.length < fuel) (h' : t.length < fuel') :
    findUprogLoop name fuel p t = findUprogLoop name fuel' p t := by
  induction fuel generalizing fuel' p t with
  | zero => omega
  | succ fuel ih =>
    obtain ⟨fuel', rfl⟩ : ∃ k, fuel' = k + 1 := ⟨fuel' - 1, by omega⟩
    rw [findUprogLoop, findUprogLoop]
    split
    case h_2 => rfl
    case h_1 start stop hstart hstop =>
    have hlen : 0 < t.length := by
      by_contra hzero
      simp [List.length_eq_zero_iff.mp (by omega : t.length = 0), readU64] at hstart
    split
    · rfl
    split
    · rfl
    split
    · rfl
    split
    · rfl
    split
    · rfl
    case h_2 len _ =>
      have hlt : (t.drop (roundUp8 (16 + len + 1))).length < t.length := by
        simp only [List.length_drop, roundUp8]
        omega
      exact ih fuel' (by omega) (by omega)

theorem findUprog_entry {name : List UInt8} (hname : (0 : UInt8) ∉ name) (p : ℕ) (e : Entry)
    (t : List UInt8) :
    findUprog p (e.bytes ++ t) (asciz name) =
      if e.name = name then .found p else findUprog (p + e.bytes.length) t (asciz name) := by
  rw [findUprog, findUprogLoop_entry hname, findUprog]
  have hpos : 0 < e.bytes.length := by
    rw [e.length_bytes, roundUp8]
    omega
  rw [findUprogLoop_fuel (asciz name) (t.length + 1) (by simp; omega) (by omega)]

theorem findUprog_terminator (name : List UInt8) (p : ℕ) (t : List UInt8) :
    findUprog p (terminator ++ t) name = .null :=
  findUprogLoop_terminator name _ p t

/-- The address of the first of consecutive entries that carries a name. -/
def firstNamed (name : List UInt8) : ℕ → List Entry → Option ℕ
  | _, [] => none
  | p, e :: es => if e.name = name then some p else firstNamed name (p + e.bytes.length) es

/-- **A run of entries**: the walk returns the first that carries the name, and goes on behind
the run when none does. -/
theorem findUprog_entries {name : List UInt8} (hname : (0 : UInt8) ∉ name) (p : ℕ)
    (es : List Entry) (t : List UInt8) :
    findUprog p (es.flatMap Entry.bytes ++ t) (asciz name) =
      match firstNamed name p es with
      | some q => .found q
      | none => findUprog (p + (es.flatMap Entry.bytes).length) t (asciz name) := by
  induction es generalizing p with
  | nil => simp [firstNamed]
  | cons e es ih =>
    rw [List.flatMap_cons, List.append_assoc, findUprog_entry hname, firstNamed]
    split
    · rfl
    · rw [ih, List.length_append, Nat.add_assoc]

theorem firstNamed_eq_none {name : List UInt8} {p : ℕ} {es : List Entry} :
    firstNamed name p es = none ↔ ∀ e ∈ es, e.name ≠ name := by
  induction es generalizing p with
  | nil => simp [firstNamed]
  | cons e es ih =>
    by_cases h : e.name = name
    · simp [firstNamed, h]
    · simp [firstNamed, h, ih]

/-- The entry found splits the run: its address is where the entries before it end. -/
theorem firstNamed_eq_some {name : List UInt8} {p q : ℕ} {es : List Entry}
    (h : firstNamed name p es = some q) :
    ∃ pre e post, es = pre ++ e :: post ∧ e.name = name ∧
      q = p + (pre.flatMap Entry.bytes).length := by
  induction es generalizing p with
  | nil => simp [firstNamed] at h
  | cons e es ih =>
    rw [firstNamed] at h
    split at h
    case isTrue he =>
      exact ⟨[], e, es, rfl, he, by simpa using h.symm⟩
    case isFalse =>
      obtain ⟨pre, e', post, rfl, he', rfl⟩ := ih h
      refine ⟨e :: pre, e', post, rfl, he', ?_⟩
      rw [List.flatMap_cons, List.length_append, Nat.add_assoc]

/-- **What a fruitless walk has read**: a walk that returns the null pointer went over a run
of entries and stopped at the terminator. -/
theorem exists_entries_of_findUprogLoop_eq_null {name : List UInt8} {fuel p : ℕ}
    {t : List UInt8} (h : findUprogLoop name fuel p t = .null) :
    ∃ (es : List Entry) (rest : List UInt8),
      t = es.flatMap Entry.bytes ++ (terminator ++ rest) := by
  induction fuel generalizing p t with
  | zero => simp [findUprogLoop] at h
  | succ fuel ih =>
    rw [findUprogLoop] at h
    split at h
    case h_2 => cases h
    case h_1 start stop hstart hstop =>
    split at h
    case isTrue hzero =>
      -- both words are zero: this is the terminator
      obtain ⟨rfl, rfl⟩ := hzero
      refine ⟨[], t.drop 16, ?_⟩
      have ht := (exists_eq_leBytes_of_readU64 hstart).2
      have ht' := (exists_eq_leBytes_of_readU64 hstop).2
      rw [List.drop_drop] at ht'
      rw [List.flatMap_nil, List.nil_append, terminator, List.append_assoc, ← ht', ← ht]
    case isFalse hlive =>
    split at h
    · cases h
    split at h
    · cases h
    split at h
    · cases h
    split at h
    · cases h
    case h_2 len hlen =>
      obtain ⟨es, rest, hes⟩ := ih h
      have hsz : roundUp8 (16 + len + 1) ≤ t.length := by
        have := congrArg List.length hes
        simp only [List.length_drop, List.length_append, length_terminator] at this
        omega
      obtain ⟨e, -, he⟩ := exists_entry hstart hstop hlive hlen hsz
      refine ⟨e :: es, rest, ?_⟩
      rw [he, hes, List.flatMap_cons, List.append_assoc]

/-! ### Lookup -/

theorem firstNamed_append {name : List UInt8} (p : ℕ) {pre : List Entry} {e : Entry}
    (post : List Entry) (hpre : ∀ e' ∈ pre, e'.name ≠ name) (he : e.name = name) :
    firstNamed name p (pre ++ e :: post) = some (p + (pre.flatMap Entry.bytes).length) := by
  induction pre generalizing p with
  | nil => simp [firstNamed, he]
  | cons e' pre ih =>
    rw [List.cons_append, firstNamed, if_neg (hpre e' (by simp)),
      ih _ fun e'' h => hpre e'' (by simp [h]), List.flatMap_cons, List.length_append,
      Nat.add_assoc]

/-- **`find_uprog` is lookup in the documented table.** On a run of entries that ends with the
terminator, the walk stays inside the table, returns the first entry whose name is equal to the
one sought, and returns the null pointer exactly when there is none. -/
theorem findUprog_is_lookup (base : ℕ) (es : List Entry) {name : List UInt8}
    (hname : (0 : UInt8) ∉ name) :
    let found := findUprog base (es.flatMap Entry.bytes ++ terminator) (asciz name)
    (∀ pre e post, es = pre ++ e :: post → e.name = name → (∀ e' ∈ pre, e'.name ≠ name) →
      found = .found (base + (pre.flatMap Entry.bytes).length)) ∧
    (found = .null ↔ ∀ e ∈ es, e.name ≠ name) ∧ found ≠ .fault := by
  intro found
  have hstop : findUprog (base + (es.flatMap Entry.bytes).length) terminator
      (asciz name) = .null := by
    simpa using findUprog_terminator (asciz name) (base + (es.flatMap Entry.bytes).length) []
  have hfound : found = match firstNamed name base es with
      | some q => .found q
      | none => .null := by
    rw [show found = _ from findUprog_entries hname base es terminator, hstop]
  refine ⟨?_, ?_⟩
  · rintro pre e post rfl he hpre
    rw [hfound, firstNamed_append base post hpre he]
  · rw [hfound, ← firstNamed_eq_none (p := base)]
    cases firstNamed name base es <;> simp

/-- A table with the programs `ls` and `lsx`, the second of which is sought. -/
theorem findUprog_is_lookup_lsx :
    let ls : Entry := ⟨0x80020000, 0x80020010, [108, 115], [0, 0, 0, 0, 0], by decide, by decide,
      by decide, by decide, rfl⟩
    let lsx : Entry := ⟨0x80020010, 0x80020040, [108, 115, 120], [0, 0, 0, 0], by decide, by decide,
      by decide, by decide, rfl⟩
    findUprog 0x80010000 ([ls, lsx].flatMap Entry.bytes ++ terminator) (asciz [108, 115, 120]) =
      .found (0x80010000 + ls.bytes.length) := by
  intro ls lsx
  have hname : (0 : UInt8) ∉ [(108 : UInt8), 115, 120] := by decide
  refine ((findUprog_is_lookup 0x80010000 [ls, lsx] hname).1 [ls]
    lsx [] rfl rfl (by decide)).trans ?_
  rw [List.flatMap_singleton]

end OsKernel
