import Mathlib.Algebra.Order.BigOperators.Group.List
import OsKernel.Exec.ProgramTable

/-!
# The writer of the program table, and where reader and writer agree

`kernel/userimg.S` is written by a rule of the Makefile: for each program the two addresses
of its binary, its name, padding, **the binary itself**, and padding again; at the end the
terminator. The reader of `ProgramTable.lean` skips the header and the name of an entry and
nothing more, so behind every name it goes on in the middle of that program's binary.

`findUprog_correct_iff` says exactly which images the two still agree on: those whose
binaries read as table entries themselves (`ReadsAsEntries`). One program whose binary does
not is enough for a later program to be lost (`findUprog_misses_second_program`).
-/

namespace OsKernel

/-- A user program as the Makefile embeds it: a name that is a non-empty C string, and a flat
binary. -/
structure Program where
  name : List UInt8
  bin : List UInt8
  name_ne_nil : name ≠ []
  nul_free : (0 : UInt8) ∉ name

namespace Program

/-- The address after `.asciz "name"` and `.balign 8`: the label `_uprog_name_start`. -/
def binStart (p : Program) (pc : ℕ) : ℕ :=
  let a := pc + 16 + (asciz p.name).length
  a + padLen a

/-- The label `_uprog_name_end`, behind the `.incbin` bytes. -/
def binStop (p : Program) (pc : ℕ) : ℕ := p.binStart pc + p.bin.length

/-- What the rule for `kernel/userimg.S` emits for one program at address `pc`. -/
def emit (p : Program) (pc : ℕ) : List UInt8 :=
  leBytes 8 (p.binStart pc) ++ leBytes 8 (p.binStop pc) ++ asciz p.name ++
    List.replicate (padLen (pc + 16 + (asciz p.name).length)) 0 ++
    p.bin ++ List.replicate (padLen (p.binStop pc)) 0

/-- A binary with the padding of the `.balign 8` behind it. -/
def paddedBin (p : Program) : List UInt8 :=
  p.bin ++ List.replicate (padLen p.bin.length) 0

end Program

/-- The bytes of `_uprog_table` at address `pc`: the programs in order, then `{0, 0}`. -/
def userimg : ℕ → List Program → List UInt8
  | _, [] => leBytes 8 0 ++ leBytes 8 0
  | pc, p :: ps => p.emit pc ++ userimg (pc + (p.emit pc).length) ps

/-- The program with a given name and the address of its header. -/
def programNamed (name : List UInt8) : ℕ → List Program → Option (ℕ × Program)
  | _, [] => none
  | pc, p :: ps =>
    if p.name = name then some (pc, p) else programNamed name (pc + (p.emit pc).length) ps

/-- An image: programs with pairwise distinct names, at an address that is aligned for
`.quad`, not null, and leaves room for the table in the address space. -/
structure UserImage where
  base : ℕ
  programs : List Program
  distinct : (programs.map Program.name).Nodup
  base_pos : 0 < base
  aligned : base % 8 = 0
  fits : base + (userimg base programs).length ≤ 256 ^ 8

namespace UserImage

/-- The table as it lies in the kernel image. -/
def table (img : UserImage) : List UInt8 := userimg img.base img.programs

/-- `find_uprog(name)` on the image. -/
def find (img : UserImage) (name : List UInt8) : Lookup :=
  findUprog img.base img.table (asciz name)

/-- The bytes between the two addresses of the header at `h`. -/
def contents (img : UserImage) (h : ℕ) : Option (List UInt8) := do
  let start ← readU64 (img.table.drop (h - img.base))
  let stop ← readU64 ((img.table.drop (h - img.base)).drop 8)
  return (img.table.drop (start - img.base)).take (stop - start)

/-- The reader answers `name` as the writer meant it: with the header of the program of that
name, whose addresses delimit that program's binary, or with the null pointer when there is
none. Both rule out a read past the table. -/
def Correct (img : UserImage) (name : List UInt8) : Prop :=
  match programNamed name img.base img.programs with
  | some (h, p) => img.find name = .found h ∧ img.contents h = some p.bin
  | none => img.find name = .null

end UserImage

/-! ### The condition -/

/-- The entries a binary reads as: a run whose names are empty or already taken. -/
def Taken (seen : List (List UInt8)) (es : List Entry) : Prop :=
  ∀ e ∈ es, e.name = [] ∨ e.name ∈ seen

/-- Every binary but the last, padded to 8 bytes, is a run of table entries, none of them
`{0, 0}`, with names that are empty or belong to this or an earlier program; the last binary
starts with such a run, which ends at the terminator of the table or at 16 zero bytes before
it. `seen` holds the names of the programs before `ps`. -/
def ReadsAsEntries : List (List UInt8) → List Program → Prop
  | _, [] => True
  | seen, [p] => ∃ (es : List Entry) (rest : List UInt8),
      p.paddedBin ++ terminator = es.flatMap Entry.bytes ++ (terminator ++ rest) ∧
        Taken (p.name :: seen) es
  | seen, p :: q :: ps =>
      (∃ es : List Entry, p.paddedBin = es.flatMap Entry.bytes ∧ Taken (p.name :: seen) es) ∧
        ReadsAsEntries (p.name :: seen) (q :: ps)

/-! ### The layout of the writer -/

theorem padLen_add_of_mod {a n : ℕ} (h : a % 8 = 0) : padLen (a + n) = padLen n := by
  simp only [padLen]
  omega

theorem mod_add_padLen (n : ℕ) : (n + padLen n) % 8 = 0 := by
  simp only [padLen]
  omega

namespace Program

variable (p : Program) (pc : ℕ)

theorem binStart_mod : p.binStart pc % 8 = 0 := mod_add_padLen _

theorem length_emit : (p.emit pc).length = p.binStart pc + p.paddedBin.length - pc := by
  have hmod : p.binStart pc % 8 = 0 := binStart_mod p pc
  have hpad : padLen (p.binStop pc) = padLen p.bin.length := padLen_add_of_mod hmod
  simp only [emit, paddedBin, List.length_append, length_leBytes, List.length_replicate, hpad]
  simp only [binStart]
  omega

theorem le_binStart : pc + 16 ≤ p.binStart pc := by
  simp only [binStart]
  omega

theorem binStart_add_length :
    p.binStart pc + p.paddedBin.length = pc + (p.emit pc).length := by
  have := p.le_binStart pc
  rw [length_emit]
  omega

theorem binStop_le : p.binStop pc ≤ pc + (p.emit pc).length := by
  rw [← binStart_add_length, binStop, paddedBin, List.length_append]
  omega

/-- The bytes before the binary end at the label of its start. -/
theorem emit_split : ∃ front, p.emit pc = front ++ (p.bin ++
    List.replicate (padLen (p.binStop pc)) 0) ∧ pc + front.length = p.binStart pc := by
  refine ⟨_, List.append_assoc _ _ _, ?_⟩
  simp only [List.length_append, length_leBytes, List.length_replicate, binStart]
  omega

theorem binStop_lt (h : pc + (p.emit pc).length < 256 ^ 8) : p.binStop pc < 256 ^ 8 :=
  (p.binStop_le pc).trans_lt h

theorem binStart_lt (h : pc + (p.emit pc).length < 256 ^ 8) : p.binStart pc < 256 ^ 8 :=
  (Nat.le_add_right _ _).trans_lt (p.binStop_lt pc h)

theorem not_terminator (hpos : 0 < pc) : ¬(p.binStart pc = 0 ∧ p.binStop pc = 0) := by
  have := p.le_binStart pc
  omega

theorem length_pad (hmod : pc % 8 = 0) :
    (List.replicate (padLen (pc + 16 + (asciz p.name).length)) (0 : UInt8)).length =
      padLen (17 + p.name.length) := by
  rw [List.length_replicate, Nat.add_assoc, padLen_add_of_mod hmod, asciz, List.length_append,
    List.length_singleton]
  congr 1
  omega

/-- The header the writer emits, as an entry of the table. -/
def header (p : Program) (pc : ℕ) (hpos : 0 < pc) (hmod : pc % 8 = 0)
    (hfits : pc + (p.emit pc).length < 256 ^ 8) : Entry where
  start := p.binStart pc
  stop := p.binStop pc
  name := p.name
  pad := List.replicate (padLen (pc + 16 + (asciz p.name).length)) 0
  start_lt := p.binStart_lt pc hfits
  stop_lt := p.binStop_lt pc hfits
  not_terminator := p.not_terminator pc hpos
  nul_free := p.nul_free
  padded := p.length_pad pc hmod

variable {pc} (hpos : 0 < pc) (hmod : pc % 8 = 0) (hfits : pc + (p.emit pc).length < 256 ^ 8)

@[simp] theorem header_name : (p.header pc hpos hmod hfits).name = p.name := rfl

/-- What is emitted for a program is the entry of its header and then its binary. -/
theorem emit_eq : p.emit pc = (p.header pc hpos hmod hfits).bytes ++ p.paddedBin := by
  have hpad : padLen (p.binStop pc) = padLen p.bin.length := padLen_add_of_mod (binStart_mod p pc)
  simp [emit, paddedBin, Entry.bytes, header, hpad, asciz]

theorem length_header_bytes :
    pc + (p.header pc hpos hmod hfits).bytes.length = p.binStart pc := by
  have hemit := congrArg List.length (p.emit_eq hpos hmod hfits)
  have hstart := p.binStart_add_length pc
  rw [List.length_append] at hemit
  omega

theorem pc_add_length_emit_mod : (pc + (p.emit pc).length) % 8 = 0 := by
  rw [← binStart_add_length, paddedBin, List.length_append, List.length_replicate]
  have hstart := p.binStart_mod pc
  have hbin := mod_add_padLen p.bin.length
  omega

end Program

theorem length_userimg_ge (pc : ℕ) (ps : List Program) : 16 ≤ (userimg pc ps).length := by
  induction ps generalizing pc with
  | nil => simp [userimg]
  | cons p ps ih =>
    rw [userimg, List.length_append]
    have := ih (pc + (p.emit pc).length)
    omega

/-- A program of the table splits it at its header. -/
theorem userimg_split {name : List UInt8} {pc h : ℕ} {ps : List Program} {p : Program}
    (hp : programNamed name pc ps = some (h, p)) :
    p.name = name ∧ ∃ pre post, userimg pc ps = pre ++ (p.emit h ++ post) ∧
      h = pc + pre.length ∧ 16 ≤ post.length := by
  induction ps generalizing pc with
  | nil => simp [programNamed] at hp
  | cons q ps ih =>
    rw [programNamed] at hp
    split at hp
    case isTrue hq =>
      simp only [Option.some.injEq, Prod.mk.injEq] at hp
      obtain ⟨rfl, rfl⟩ := hp
      exact ⟨hq, [], userimg (pc + (q.emit pc).length) ps, rfl, rfl, length_userimg_ge _ _⟩
    case isFalse =>
      obtain ⟨hname, pre, post, heq, hh, hpost⟩ := ih hp
      refine ⟨hname, q.emit pc ++ pre, post, ?_, ?_, hpost⟩
      · rw [userimg, heq, List.append_assoc]
      · rw [hh, List.length_append, Nat.add_assoc]

theorem programNamed_ge {name : List UInt8} {pc h : ℕ} {ps : List Program} {p : Program}
    (hp : programNamed name pc ps = some (h, p)) : pc ≤ h := by
  obtain ⟨-, pre, post, -, rfl, -⟩ := userimg_split hp
  omega

theorem programNamed_eq_none {name : List UInt8} {pc : ℕ} {ps : List Program} :
    programNamed name pc ps = none ↔ ∀ p ∈ ps, p.name ≠ name := by
  induction ps generalizing pc with
  | nil => simp [programNamed]
  | cons q ps ih =>
    by_cases h : q.name = name
    · simp [programNamed, h]
    · simp [programNamed, h, ih]

/-- The addresses in a program's header delimit its binary: this half of the writer's work
is right for every image. -/
theorem UserImage.contents_header (img : UserImage) {name : List UInt8} {h : ℕ} {p : Program}
    (hp : programNamed name img.base img.programs = some (h, p)) :
    img.contents h = some p.bin := by
  obtain ⟨-, pre, post, htable, rfl, hpost⟩ := userimg_split hp
  set pc := img.base + pre.length
  have hfits := img.fits
  rw [htable, List.length_append, List.length_append] at hfits
  have hlow := p.le_binStart pc
  have hstop := p.binStop_le pc
  have hstartStop : p.binStart pc ≤ p.binStop pc := Nat.le_add_right _ _
  have hdrop : img.table.drop (pc - img.base) = p.emit pc ++ post := by
    rw [UserImage.table, htable, show pc - img.base = pre.length by omega, List.drop_left]
  have hfst : readU64 (p.emit pc ++ post) = some (p.binStart pc) := by
    simpa [Program.emit] using readU64_leBytes_append (v := p.binStart pc) (by omega) _
  have hsnd : readU64 ((p.emit pc ++ post).drop 8) = some (p.binStop pc) := by
    simpa [Program.emit] using readU64_leBytes_append (v := p.binStop pc) (by omega) _
  -- the binary lies behind the header, the name and the padding
  have hbin : img.table.drop (p.binStart pc - img.base) =
      p.bin ++ (List.replicate (padLen (p.binStop pc)) 0 ++ post) := by
    obtain ⟨front, hemit, hfront⟩ := p.emit_split pc
    have hlen : p.binStart pc - img.base = (pre ++ front).length := by
      rw [List.length_append]
      omega
    rw [UserImage.table, htable, hemit, hlen, List.append_assoc, ← List.append_assoc,
      List.drop_left, List.append_assoc]
  have htake : p.binStop pc - p.binStart pc = p.bin.length := by
    rw [Program.binStop, Nat.add_sub_cancel_left]
  simp [UserImage.contents, hdrop, hfst, hsnd, hbin, htake]

/-! ### Reader against writer -/

/-- The pointer `find_uprog` should return for `name` on the table of `ps` at `pc`. -/
def answer (name : List UInt8) (pc : ℕ) (ps : List Program) : Lookup :=
  match programNamed name pc ps with
  | some (h, _) => .found h
  | none => .null

theorem exists_fresh_name (names : List (List UInt8)) :
    ∃ name : List UInt8, name ≠ [] ∧ (0 : UInt8) ∉ name ∧ name ∉ names := by
  -- a name longer than all the others
  have hlong : ∀ s ∈ names, s.length ≤ (names.map List.length).sum := fun s hs =>
    List.single_le_sum (by simp) _ (List.mem_map_of_mem hs)
  refine ⟨List.replicate ((names.map List.length).sum + 1) 1, by simp, by simp, fun hmem => ?_⟩
  have := hlong _ hmem
  rw [List.length_replicate] at this
  omega

/-- The names that some entry of a run carries, apart from the empty one, are all taken: else
the walk would stop at that entry, before the program that should answer. -/
theorem taken_of_answers {seen : List (List UInt8)} (pc pc' : ℕ) (es : List Entry)
    (t : List UInt8) (ps : List Program)
    (hlt : ∀ pre e post, es = pre ++ e :: post → pc + (pre.flatMap Entry.bytes).length < pc')
    (h : ∀ name, name ≠ [] → (0 : UInt8) ∉ name → name ∉ seen →
      findUprog pc (es.flatMap Entry.bytes ++ t) (asciz name) = answer name pc' ps) :
    Taken seen es := by
  intro e he
  by_contra hcon
  rw [not_or] at hcon
  have hans := h e.name hcon.1 e.nul_free hcon.2
  rw [findUprog_entries e.nul_free] at hans
  cases hfirst : firstNamed e.name pc es with
  | none => exact firstNamed_eq_none.mp hfirst e he rfl
  | some q =>
    obtain ⟨pre, e', post, hes, -, rfl⟩ := firstNamed_eq_some hfirst
    simp only [hfirst, answer] at hans
    cases hp : programNamed e.name pc' ps with
    | none => simp [hp] at hans
    | some hdr =>
      have hge := programNamed_ge hp
      have := hlt pre e' post hes
      simp only [hp, Lookup.found.injEq] at hans
      omega

/-- A run of taken entries is invisible to names that are not taken. -/
theorem findUprog_taken {seen : List (List UInt8)} {es : List Entry} (hes : Taken seen es)
    {name : List UInt8} (hne : name ≠ []) (hnul : (0 : UInt8) ∉ name) (hname : name ∉ seen)
    (p : ℕ) (t : List UInt8) :
    findUprog p (es.flatMap Entry.bytes ++ t) (asciz name) =
      findUprog (p + (es.flatMap Entry.bytes).length) t (asciz name) := by
  have hnone : firstNamed name p es = none := by
    rw [firstNamed_eq_none]
    rintro e he rfl
    exact (hes e he).elim hne hname
  rw [findUprog_entries hnul, hnone]

/-- The walk over a run of entries that reaches a given address between two of them splits
the run there. -/
theorem exists_split_of_found {name : List UInt8} (hnul : (0 : UInt8) ∉ name) {p q : ℕ}
    {es : List Entry} {rest : List UInt8}
    (h : findUprog p (es.flatMap Entry.bytes ++ (terminator ++ rest)) (asciz name) = .found q) :
    ∃ pre post, es = pre ++ post ∧ q = p + (pre.flatMap Entry.bytes).length := by
  rw [findUprog_entries hnul] at h
  cases hfirst : firstNamed name p es with
  | none => rw [hfirst, findUprog_terminator] at h; cases h
  | some q' =>
    obtain ⟨pre, e, post, hes, -, rfl⟩ := firstNamed_eq_some hfirst
    rw [hfirst] at h
    exact ⟨pre, e :: post, hes, (Lookup.found.inj h).symm⟩

/-- The walk from the binary of `p` on answers every name that is not taken exactly when the
binary reads as entries and the rest of the table answers. -/
theorem findUprog_paddedBin_iff {taken : List (List UInt8)} {p q : Program} {pc : ℕ}
    {ps : List Program} (hq : q.name ∉ taken) :
    (∀ name, name ≠ [] → (0 : UInt8) ∉ name → name ∉ taken →
        findUprog pc (p.paddedBin ++ userimg (pc + p.paddedBin.length) (q :: ps)) (asciz name) =
          answer name (pc + p.paddedBin.length) (q :: ps)) ↔
      (∃ es : List Entry, p.paddedBin = es.flatMap Entry.bytes ∧ Taken taken es) ∧
        ∀ name, name ≠ [] → (0 : UInt8) ∉ name → name ∉ taken →
          findUprog (pc + p.paddedBin.length) (userimg (pc + p.paddedBin.length) (q :: ps))
            (asciz name) = answer name (pc + p.paddedBin.length) (q :: ps) := by
  set pc' := pc + p.paddedBin.length with hpc'
  constructor
  · intro h
    -- a name nobody has shows that the walk comes to a terminator
    obtain ⟨fresh, hne, hnul, hfresh⟩ := exists_fresh_name (taken ++ (q :: ps).map Program.name)
    simp only [List.mem_append, not_or] at hfresh
    have hnone : programNamed fresh pc' (q :: ps) = none := by
      rw [programNamed_eq_none]
      rintro r hr rfl
      exact hfresh.2 (List.mem_map_of_mem hr)
    have hnull := h fresh hne hnul hfresh.1
    rw [answer, hnone] at hnull
    obtain ⟨es, rest, hes⟩ := exists_entries_of_findUprogLoop_eq_null hnull
    -- the name of `q` shows that the walk passes the header of `q`
    have hfound := h q.name q.name_ne_nil q.nul_free hq
    rw [hes, answer, programNamed, if_pos rfl] at hfound
    obtain ⟨pre, post, rfl, hlen⟩ := exists_split_of_found q.nul_free hfound
    have hlen' : p.paddedBin.length = (pre.flatMap Entry.bytes).length := by omega
    rw [List.flatMap_append, List.append_assoc] at hes
    obtain ⟨hbin, htail⟩ := List.append_inj hes hlen'
    have htaken : Taken taken pre := by
      refine taken_of_answers pc pc' pre (userimg pc' (q :: ps)) (q :: ps)
        (fun pre₁ e post₁ hpre => ?_) (fun name hne hnul hname => ?_)
      · have he : 0 < e.bytes.length := by
          rw [e.length_bytes, roundUp8]
          omega
        have := congrArg (fun l => (List.flatMap Entry.bytes l).length) hpre
        simp only [List.flatMap_append, List.flatMap_cons, List.length_append] at this
        omega
      · rw [← hbin]
        exact h name hne hnul hname
    refine ⟨⟨pre, hbin, htaken⟩, fun name hne hnul hname => ?_⟩
    have hname' := h name hne hnul hname
    rwa [hbin, findUprog_taken htaken hne hnul hname, ← hbin] at hname'
  · rintro ⟨⟨es, hbin, htaken⟩, h⟩ name hne hnul hname
    rw [hbin, findUprog_taken htaken hne hnul hname, ← hbin]
    exact h name hne hnul hname

/-- The same for the last binary: there the walk may also stop before the end of it. -/
theorem findUprog_lastBin_iff {taken : List (List UInt8)} {p : Program} {pc : ℕ} :
    (∀ name, name ≠ [] → (0 : UInt8) ∉ name → name ∉ taken →
        findUprog pc (p.paddedBin ++ terminator) (asciz name) = .null) ↔
      ∃ (es : List Entry) (rest : List UInt8),
        p.paddedBin ++ terminator = es.flatMap Entry.bytes ++ (terminator ++ rest) ∧
          Taken taken es := by
  constructor
  · intro h
    obtain ⟨fresh, hne, hnul, hfresh⟩ := exists_fresh_name taken
    obtain ⟨es, rest, hes⟩ := exists_entries_of_findUprogLoop_eq_null (h fresh hne hnul hfresh)
    refine ⟨es, rest, hes, ?_⟩
    refine taken_of_answers pc (pc + (es.flatMap Entry.bytes).length) es (terminator ++ rest) []
      (fun pre e post hpre => ?_) (fun name hne hnul hname => ?_)
    · have he : 0 < e.bytes.length := by
        rw [e.length_bytes, roundUp8]
        omega
      rw [hpre, List.flatMap_append, List.flatMap_cons, List.length_append, List.length_append]
      omega
    · rw [← hes, h name hne hnul hname]
      rfl
  · rintro ⟨es, rest, hes, htaken⟩ name hne hnul hname
    rw [hes, findUprog_taken htaken hne hnul hname, findUprog_terminator]

/-- The walk from the header of the first program of `ps` on answers every name that is not
taken exactly when the binaries of `ps` read as entries. -/
theorem findUprog_userimg_iff (ps : List Program) {seen : List (List UInt8)} {pc : ℕ}
    (hpos : 0 < pc) (hmod : pc % 8 = 0) (hfits : pc + (userimg pc ps).length ≤ 256 ^ 8)
    (hnodup : (ps.map Program.name).Nodup) (hseen : ∀ p ∈ ps, p.name ∉ seen) :
    (∀ name, name ≠ [] → (0 : UInt8) ∉ name → name ∉ seen →
        findUprog pc (userimg pc ps) (asciz name) = answer name pc ps) ↔
      ReadsAsEntries seen ps := by
  induction ps generalizing seen pc with
  | nil =>
    refine iff_of_true (fun name _ _ _ => ?_) trivial
    exact findUprog_terminator (asciz name) pc []
  | cons p ps ih =>
    have hrest := length_userimg_ge (pc + (p.emit pc).length) ps
    rw [userimg, List.length_append] at hfits
    have hfits' : pc + (p.emit pc).length < 256 ^ 8 := by omega
    have hstart := p.length_header_bytes hpos hmod hfits'
    have hlen := p.binStart_add_length pc
    -- the first entry is the header of `p`; the walk then enters the binary
    have hstep : ∀ name, (0 : UInt8) ∉ name →
        findUprog pc (userimg pc (p :: ps)) (asciz name) = if p.name = name then .found pc else
          findUprog (p.binStart pc) (p.paddedBin ++
            userimg (p.binStart pc + p.paddedBin.length) ps) (asciz name) := by
      intro name hnul
      rw [userimg, p.emit_eq hpos hmod hfits', List.append_assoc,
        findUprog_entry hnul, Program.header_name, hstart, ← p.emit_eq, hlen]
    have hanswer : ∀ name, answer name pc (p :: ps) = if p.name = name then .found pc else
        answer name (p.binStart pc + p.paddedBin.length) ps := by
      intro name
      by_cases hp : p.name = name <;> simp [answer, programNamed, hp, hlen]
    have hskip : (∀ name, name ≠ [] → (0 : UInt8) ∉ name → name ∉ seen →
          findUprog pc (userimg pc (p :: ps)) (asciz name) = answer name pc (p :: ps)) ↔
        ∀ name, name ≠ [] → (0 : UInt8) ∉ name → name ∉ p.name :: seen →
          findUprog (p.binStart pc) (p.paddedBin ++
            userimg (p.binStart pc + p.paddedBin.length) ps) (asciz name) =
              answer name (p.binStart pc + p.paddedBin.length) ps := by
      constructor
      · intro h name hne hnul hname
        simp only [List.mem_cons, not_or] at hname
        have := h name hne hnul hname.2
        rwa [hstep name hnul, hanswer, if_neg (Ne.symm hname.1), if_neg (Ne.symm hname.1)] at this
      · intro h name hne hnul hname
        rw [hstep name hnul, hanswer]
        by_cases hp : p.name = name
        · rw [if_pos hp, if_pos hp]
        · rw [if_neg hp, if_neg hp]
          exact h name hne hnul (by simp [Ne.symm hp, hname])
    rw [hskip]
    simp only [List.map_cons, List.nodup_cons, List.mem_map, not_exists, not_and] at hnodup
    cases ps with
    | nil => exact findUprog_lastBin_iff
    | cons q ps =>
      have hseen' : ∀ r ∈ q :: ps, r.name ∉ p.name :: seen := by
        intro r hr
        rw [List.mem_cons, not_or]
        exact ⟨hnodup.1 r hr, hseen r (List.mem_cons_of_mem _ hr)⟩
      rw [findUprog_paddedBin_iff (hseen' q List.mem_cons_self), ReadsAsEntries]
      refine and_congr_right fun _ => ?_
      refine ih (by omega) ?_ ?_ hnodup.2 hseen'
      · rw [hlen]
        exact p.pc_add_length_emit_mod
      · rw [hlen]
        omega

/-- **Reader and writer of the program table.** On an image, `find_uprog` finds every
program under its name, with the addresses of its binary, and nothing under any other name,
exactly when the binaries read as entries of the table. -/
theorem findUprog_correct_iff (img : UserImage) :
    (∀ name, name ≠ [] → (0 : UInt8) ∉ name → img.Correct name) ↔
      ReadsAsEntries [] img.programs := by
  rw [← findUprog_userimg_iff img.programs img.base_pos img.aligned img.fits img.distinct
    (fun _ _ => List.not_mem_nil)]
  refine forall_congr' fun name => forall_congr' fun _ => forall_congr' fun _ => ?_
  simp only [List.not_mem_nil, not_false_eq_true, forall_const, UserImage.Correct, answer]
  cases hp : programNamed name img.base img.programs with
  | none => exact Iff.rfl
  | some hdr => exact and_iff_left (img.contents_header hp)

/-- Two programs `a` and `b` at the load address of the kernel: the binary of `a` is the
single byte 1, that of `b` is empty. -/
def twoPrograms : UserImage where
  base := 0x80000000
  programs :=
    [{ name := [97], bin := [1], name_ne_nil := by decide, nul_free := by decide },
     { name := [98], bin := [], name_ne_nil := by decide, nul_free := by decide }]
  distinct := by decide
  base_pos := by decide
  aligned := by decide
  fits := by decide

/-- The walk takes the binary of `a` for a header, misses the header of `b` and leaves the
table. -/
theorem findUprog_misses_second_program :
    twoPrograms.find [98] = .fault ∧
      ¬∀ name, name ≠ [] → (0 : UInt8) ∉ name → twoPrograms.Correct name := by
  have hfault : twoPrograms.find [98] = .fault := by decide
  refine ⟨hfault, fun h => ?_⟩
  have hb := (h [98] (by decide) (by decide)).1
  rw [hfault] at hb
  cases hb

end OsKernel
