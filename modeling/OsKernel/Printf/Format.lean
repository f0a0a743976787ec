import OsKernel.Printf.Code
import OsKernel.Lib.ByteMemory

/-!
# The formatter of `printf.c` and its two sinks

`vprintfmt` in the source passes every byte to a callback `emit` with a context. Here it is
written that way, for any context: a pointer into the format is the bytes from there on, the
NUL included, so that a read past the NUL is visible as `none`. `printf` runs it with the
console as its sink, `snprintf` with a counted buffer.

A format is a list of `Piece`s, and `render` is what the comment at the head of `printf.c`
promises for it. The code does what is promised for every piece but one: after `%l` and none
of `d`, `u`, `x` it prints the `l` without the `%`.
-/

namespace OsKernel

variable {σ : Type}

/-- Passing bytes to `emit`, one by one. -/
def emitAll (emit : UInt8 → σ → σ) (bs : List UInt8) (ctx : σ) : σ :=
  bs.foldl (fun ctx c => emit c ctx) ctx

/-- The loop of `vprintfmt` at a pointer into the format: the arguments that are left and the
context at the end, `none` for a read past the NUL. -/
def vprintfmtTo (emit : UInt8 → σ → σ) : List UInt8 → List Arg → σ → Option (List Arg × σ)
  | [], _, _ => none
  | c :: fmt, ap, ctx =>
    if c = 0 then some (ap, ctx)
    else if c ≠ 37 then vprintfmtTo emit fmt ap (emit c ctx)
    else
      match fmt with
      | [] => none
      | c :: fmt =>
        let (a, rest) := nextArg ap
        if c = 0 then some (ap, ctx)
        else if c = 100 then vprintfmtTo emit fmt rest (emitAll emit (printint a.toInt 10 true) ctx)
        else if c = 108 then
          match fmt with
          | [] => none
          | d :: fmt' =>
            if d = 100 then
              vprintfmtTo emit fmt' rest (emitAll emit (printint a.toWord 10 true) ctx)
            else if d = 117 then
              vprintfmtTo emit fmt' rest (emitAll emit (printint a.toWord 10 false) ctx)
            else if d = 120 then
              vprintfmtTo emit fmt' rest (emitAll emit (printint a.toWord 16 false) ctx)
            else vprintfmtTo emit (d :: fmt') ap (emit 108 ctx)
        else if c = 117 then vprintfmtTo emit fmt rest
          (emitAll emit (printint a.toUInt 10 false) ctx)
        else if c = 120 then vprintfmtTo emit fmt rest
          (emitAll emit (printint a.toUInt 16 false) ctx)
        else if c = 112 then vprintfmtTo emit fmt rest (emitAll emit (printptr a.toWord) ctx)
        else if c = 99 then vprintfmtTo emit fmt rest (emit (UInt8.ofNat a.toWord.toNat) ctx)
        else if c = 115 then vprintfmtTo emit fmt rest (emitAll emit a.toStr ctx)
        else if c = 37 then vprintfmtTo emit fmt ap (emit 37 ctx)
        else vprintfmtTo emit fmt ap (emit c (emit 37 ctx))

/-! ### Sinks -/

/-- `cons_emit`: the console, as the bytes sent to it. -/
def consEmit (c : UInt8) (out : List UInt8) : List UInt8 := out ++ [c]

/-- The bytes `printf` sends to the console. -/
def printfBytes (fmt : List UInt8) (ap : List Arg) : Option (List UInt8) :=
  (vprintfmtTo consEmit (fmt ++ [0]) ap []).map Prod.snd

/-- `struct sbuf`, with the memory the buffer lies in. -/
structure Sbuf where
  mem : Mem
  buf : ℕ
  n : BitVec 32
  len : BitVec 32

/-- `sbuf_emit`. -/
def sbufEmit (c : UInt8) (b : Sbuf) : Sbuf :=
  { b with
    mem := if (b.len + 1).slt b.n then Function.update b.mem (b.buf + b.len.toNat) c else b.mem
    len := b.len + 1 }

/-- `snprintf`: its result and the memory it leaves. -/
def snprintf (m : Mem) (buf : ℕ) (n : BitVec 32) (fmt : List UInt8) (ap : List Arg) :
    Option (BitVec 32 × Mem) := do
  let (_, b) ← vprintfmtTo sbufEmit (fmt ++ [0]) ap ⟨m, buf, n, 0⟩
  let last := if b.len.slt n then b.len else n - 1
  return (b.len, if (0 : BitVec 32).slt n then Function.update b.mem (b.buf + last.toNat)
    0 else b.mem)

/-! ### The formatter does not depend on its sink -/

section Emit

variable {emit : UInt8 → σ → σ} {ctx : σ}

@[simp] theorem emitAll_nil : emitAll emit [] ctx = ctx := rfl

theorem emitAll_append (bs bs' : List UInt8) :
    emitAll emit (bs ++ bs') ctx = emitAll emit bs' (emitAll emit bs ctx) := List.foldl_append

theorem emitAll_cons (c : UInt8) (bs : List UInt8) :
    emitAll emit (c :: bs) ctx = emitAll emit bs (emit c ctx) := rfl

theorem emitAll_consEmit (bs out : List UInt8) : emitAll consEmit bs out = out ++ bs := by
  induction bs generalizing out with
  | nil => simp
  | cons c bs ih => rw [emitAll_cons, ih, consEmit, List.append_assoc, List.singleton_append]

end Emit

/-! ### The grammar of formats -/

/-- A conversion that takes an argument. -/
inductive Conv where
  | d | ld | u | lu | x | lx | p | c | s
  deriving DecidableEq

/-- The characters of a conversion after its `%`. -/
def Conv.bytes : Conv → List UInt8
  | d => [100]
  | ld => [108, 100]
  | u => [117]
  | lu => [108, 117]
  | x => [120]
  | lx => [108, 120]
  | p => [112]
  | c => [99]
  | s => [115]

/-- The text of an argument under a conversion. -/
def Conv.render (a : Arg) : Conv → List UInt8
  | d => printint a.toInt 10 true
  | ld => printint a.toWord 10 true
  | u => printint a.toUInt 10 false
  | lu => printint a.toWord 10 false
  | x => printint a.toUInt 16 false
  | lx => printint a.toWord 16 false
  | p => printptr a.toWord
  | c => [UInt8.ofNat a.toWord.toNat]
  | s => a.toStr

/-- The arguments that match a conversion: a string or the null pointer for `%s`, a number for
the others. -/
def Conv.Accepts : Conv → Arg → Prop
  | s, .string _ => True
  | s, .word v => v = 0
  | _, .string _ => False
  | _, .word _ => True

/-- A piece of a format. -/
inductive Piece where
  /-- An ordinary character. -/
  | char (c : UInt8)
  | conv (k : Conv)
  /-- `%%`. -/
  | percent
  /-- `%` and a character that starts no conversion. -/
  | other (c : UInt8)
  deriving DecidableEq

/-- The characters of a piece. -/
def Piece.bytes : Piece → List UInt8
  | char c => [c]
  | conv k => 37 :: k.bytes
  | percent => [37, 37]
  | other c => [37, c]

/-- The characters of a format. -/
def formatBytes (ps : List Piece) : List UInt8 := ps.flatMap Piece.bytes

/-- A piece is what it is called when the characters `next` follow it. -/
def Piece.Ok (next : List UInt8) : Piece → Prop
  | char c => c ≠ 0 ∧ c ≠ 37
  | conv _ => True
  | percent => True
  | other c => c ∉ [0, 100, 117, 120, 112, 99, 115, 37] ∧
      (c = 108 → next.head? ∉ [some 100, some 117, some 120])

/-- The pieces are those the format is read as, from left to right. -/
def FormatOk : List Piece → Prop
  | [] => True
  | p :: ps => p.Ok (formatBytes ps) ∧ FormatOk ps

instance Piece.decidableOk (next : List UInt8) : DecidablePred (Piece.Ok next)
  | char c => inferInstanceAs (Decidable (c ≠ 0 ∧ c ≠ 37))
  | conv _ => isTrue trivial
  | percent => isTrue trivial
  | other c => inferInstanceAs (Decidable (c ∉ [0, 100, 117, 120, 112, 99, 115, 37] ∧
      (c = 108 → next.head? ∉ [some 100, some 117, some 120])))

instance decidableFormatOk : DecidablePred FormatOk
  | [] => isTrue trivial
  | p :: ps => @instDecidableAnd (p.Ok (formatBytes ps)) (FormatOk ps) _ (decidableFormatOk ps)

/-- A format string that does not end in an unpaired `%`, by its pieces. -/
structure Format where
  pieces : List Piece
  ok : FormatOk pieces

/-- The conversions of a format. -/
def conversions (ps : List Piece) : List Conv :=
  ps.filterMap fun
    | .conv k => some k
    | _ => none

/-- The text of a format when `%` and a character that starts no conversion print as `other`
says. -/
def renderWith (other : UInt8 → List UInt8) : List Piece → List Arg → List UInt8
  | [], _ => []
  | .char c :: ps, as => c :: renderWith other ps as
  | .percent :: ps, as => 37 :: renderWith other ps as
  | .other c :: ps, as => other c ++ renderWith other ps as
  | .conv k :: ps, a :: as => k.render a ++ renderWith other ps as
  | .conv _ :: _, [] => []

/-- **The text a format stands for**: an unknown sequence prints verbatim. -/
def render : List Piece → List Arg → List UInt8 := renderWith fun c => [37, c]

/-- What the code prints for an unknown sequence. -/
def printUnknown (c : UInt8) : List UInt8 := if c = 108 then [108] else [37, c]

section Grammar

variable {emit : UInt8 → σ → σ}

@[simp] theorem nextArg_cons (a : Arg) (as : List Arg) : nextArg (a :: as) = (a, as) := rfl

theorem formatBytes_cons (p : Piece) (ps : List Piece) :
    formatBytes (p :: ps) = p.bytes ++ formatBytes ps := List.flatMap_cons

/-- Reading an ordinary character. -/
theorem vprintfmtTo_char {c : UInt8} (h0 : c ≠ 0) (hpct : c ≠ 37) (fmt : List UInt8)
    (ap : List Arg) (ctx : σ) :
    vprintfmtTo emit (c :: fmt) ap ctx = vprintfmtTo emit fmt ap (emit c ctx) := by
  rw [vprintfmtTo.eq_def]
  simp [h0, hpct]

/-- Reading an unknown sequence. -/
theorem vprintfmtTo_other {c : UInt8} {fmt : List UInt8} (hc : (Piece.other c).Ok fmt)
    (ap : List Arg) (ctx : σ) :
    vprintfmtTo emit (37 :: c :: (fmt ++ [0])) ap ctx =
      vprintfmtTo emit (fmt ++ [0]) ap (emitAll emit (printUnknown c) ctx) := by
  obtain ⟨hc, hl⟩ := hc
  simp only [List.mem_cons, List.not_mem_nil, or_false, not_or] at hc
  obtain ⟨h0, hd, hu, hx, hp, hcc, hs, hpct⟩ := hc
  rw [vprintfmtTo]
  simp only [show ¬(37 : UInt8) = 0 by decide, if_false, ne_eq, not_true_eq_false, h0, hd, hu, hx,
    hp, hcc, hs, hpct, printUnknown]
  by_cases hcl : c = 108
  · -- the character after `%l` is not one of `d`, `u` and `x`
    have hnext := hl hcl
    rw [if_pos hcl, if_pos hcl]
    cases fmt with
    | nil => simp [emitAll]
    | cons d fmt =>
      simp only [List.head?_cons, List.mem_cons, Option.some.injEq, List.not_mem_nil, or_false,
        not_or] at hnext
      simp [hnext, emitAll]
  · simp [hcl, emitAll]

/-- **The formatter on a format**: it reads no further than the NUL, takes one argument for each
conversion, and prints the text of the format, but for the `%` of an unknown `%l`. -/
theorem vprintfmtTo_format {ps : List Piece} (hps : FormatOk ps) {as : List Arg}
    (has : List.Forall₂ Conv.Accepts (conversions ps) as) (extra : List Arg) (ctx : σ) :
    vprintfmtTo emit (formatBytes ps ++ [0]) (as ++ extra) ctx =
      some (extra, emitAll emit (renderWith printUnknown ps as) ctx) := by
  induction ps generalizing as ctx with
  | nil =>
    obtain rfl : as = [] := by simpa [conversions] using has
    simp [formatBytes, vprintfmtTo, renderWith]
  | cons p ps ih =>
    rw [formatBytes_cons, List.append_assoc]
    cases p with
    | char c =>
      have hnext := ih hps.2 has (emit c ctx)
      simp only [Piece.bytes, List.cons_append, List.nil_append, renderWith, emitAll_cons]
      rw [vprintfmtTo_char hps.1.1 hps.1.2, hnext]
    | percent =>
      have hnext := ih hps.2 has (emit 37 ctx)
      simp only [Piece.bytes, List.cons_append, List.nil_append, renderWith, emitAll_cons]
      simpa [vprintfmtTo] using hnext
    | other c =>
      have hnext := ih hps.2 has (emitAll emit (printUnknown c) ctx)
      simp only [Piece.bytes, List.cons_append, List.nil_append, renderWith, emitAll_append]
      rw [vprintfmtTo_other hps.1, hnext]
    | conv k =>
      cases has with
      | cons hk has =>
        rename_i a as
        have hnext := ih hps.2 has (emitAll emit (k.render a) ctx)
        simp only [renderWith, emitAll_append]
        rw [← hnext]
        cases k <;> simp [Piece.bytes, Conv.bytes, vprintfmtTo, Conv.render, emitAll]

/-- The text the code prints lacks one character for each unknown `%l`. -/
theorem length_render {ps : List Piece} {as : List Arg}
    (has : List.Forall₂ Conv.Accepts (conversions ps) as) :
    (render ps as).length = (renderWith printUnknown ps as).length + ps.count (.other 108) := by
  induction ps generalizing as with
  | nil => rfl
  | cons p ps ih =>
    cases p with
    | char c =>
      have := ih has
      simp only [render, renderWith, List.length_cons, List.count_cons] at this ⊢
      simp
      omega
    | percent =>
      have := ih has
      simp only [render, renderWith, List.length_cons, List.count_cons] at this ⊢
      simp
      omega
    | other c =>
      have := ih has
      simp only [render, renderWith, List.length_append, List.count_cons] at this ⊢
      by_cases hc : c = 108
      · simp [hc, printUnknown]
        omega
      · simp [hc, printUnknown]
        omega
    | conv k =>
      cases has with
      | cons hk has =>
        have := ih has
        simp only [render, renderWith, List.length_append, List.count_cons] at this ⊢
        simp
        omega

theorem renderWith_printUnknown {ps : List Piece} (h : .other 108 ∉ ps) (as : List Arg) :
    renderWith printUnknown ps as = render ps as := by
  induction ps generalizing as with
  | nil => rfl
  | cons p ps ih =>
    simp only [List.mem_cons, not_or] at h
    cases p with
    | char c => simp only [render, renderWith] at ih ⊢; rw [ih h.2]
    | percent => simp only [render, renderWith] at ih ⊢; rw [ih h.2]
    | other c =>
      have hc : c ≠ 108 := fun hc => h.1 (by rw [hc])
      simp only [render, renderWith, printUnknown, if_neg hc] at ih ⊢
      rw [ih h.2]
    | conv k =>
      cases as with
      | nil => rfl
      | cons a as => simp only [render, renderWith] at ih ⊢; rw [ih h.2]

end Grammar

/-! ### Every string is a format -/

/-- Characters that are read as the pieces of a format, up to an unpaired `%` at the end. -/
def ReadsAsFormat (fmt : List UInt8) : Prop :=
  ∃ (f : Format) (tail : List UInt8), (tail = [] ∨ tail = [37]) ∧ fmt = formatBytes f.pieces ++ tail

theorem Piece.Ok.of_append {p : Piece} {fmt tail : List UInt8} (h : p.Ok (fmt ++ tail)) :
    p.Ok fmt := by
  cases p with
  | char c => exact h
  | conv k => trivial
  | percent => trivial
  | other c =>
    refine ⟨h.1, fun hc => ?_⟩
    cases fmt with
    | nil => simp
    | cons d fmt => exact h.2 hc

theorem ReadsAsFormat.cons {fmt : List UInt8} (h : ReadsAsFormat fmt) {p : Piece} (hp : p.Ok fmt) :
    ReadsAsFormat (p.bytes ++ fmt) := by
  obtain ⟨f, tail, htail, rfl⟩ := h
  refine ⟨⟨p :: f.pieces, hp.of_append, f.ok⟩, tail, htail, ?_⟩
  rw [formatBytes_cons, List.append_assoc]

/-- **Every string is a format**, or a format followed by an unpaired `%`. -/
theorem readsAsFormat (fmt : List UInt8) (h : (0 : UInt8) ∉ fmt) : ReadsAsFormat fmt := by
  induction hn : fmt.length using Nat.strong_induction_on generalizing fmt with
  | _ n ih =>
    subst hn
    have hrest : ∀ p : Piece, ∀ rest, fmt = p.bytes ++ rest → p.bytes ≠ [] → p.Ok rest →
        ReadsAsFormat fmt := by
      rintro p rest rfl hne hp
      have hpos := List.length_pos_of_ne_nil hne
      refine (ih _ ?_ rest (fun h0 => h (List.mem_append_right _ h0)) rfl).cons hp
      rw [List.length_append]
      omega
    match fmt, h, hrest with
    | [], _, _ => exact ⟨⟨[], trivial⟩, [], .inl rfl, rfl⟩
    | c :: rest, h, hrest =>
      by_cases hc : c = 37
      swap
      · exact hrest (.char c) rest rfl (by simp [Piece.bytes])
          ⟨fun h0 => h (by simp [h0]), hc⟩
      subst hc
      match rest, h, hrest with
      | [], _, _ => exact ⟨⟨[], trivial⟩, [37], .inr rfl, rfl⟩
      | d :: rest, h, hrest =>
        have hd0 : d ≠ 0 := fun h0 => h (by simp [h0])
        by_cases hpct : d = 37
        · exact hrest .percent rest (by simp [Piece.bytes, hpct]) (by simp [Piece.bytes]) trivial
        -- the conversions of one character
        by_cases hone : ∃ k : Conv, k.bytes = [d]
        · obtain ⟨k, hk⟩ := hone
          exact hrest (.conv k) rest (by simp [Piece.bytes, hk]) (by simp [Piece.bytes]) trivial
        have hnot : d ∉ [0, 100, 117, 120, 112, 99, 115, 37] := by
          simp only [List.mem_cons, List.not_mem_nil, or_false, not_or]
          refine ⟨hd0, fun h => hone ⟨.d, ?_⟩, fun h => hone ⟨.u, ?_⟩, fun h => hone ⟨.x, ?_⟩,
            fun h => hone ⟨.p, ?_⟩, fun h => hone ⟨.c, ?_⟩, fun h => hone ⟨.s, ?_⟩, hpct⟩ <;>
          rw [h] <;> rfl
        by_cases hlong : d = 108 ∧ rest.head? ∈ [some 100, some 117, some 120]
        · -- `%ld`, `%lu` and `%lx`
          obtain ⟨rfl, hnext⟩ := hlong
          cases rest with
          | nil => simp at hnext
          | cons e rest =>
            simp only [List.head?_cons, List.mem_cons, Option.some.injEq, List.not_mem_nil,
              or_false] at hnext
            rcases hnext with rfl | rfl | rfl
            · exact hrest (.conv .ld) rest rfl (by simp [Piece.bytes]) trivial
            · exact hrest (.conv .lu) rest rfl (by simp [Piece.bytes]) trivial
            · exact hrest (.conv .lx) rest rfl (by simp [Piece.bytes]) trivial
        · exact hrest (.other d) rest rfl (by simp [Piece.bytes])
            ⟨hnot, fun hl hnext => hlong ⟨hl, hnext⟩⟩

/-- **Where the formatter follows its grammar.** A string is a format, up to an unpaired `%` at its
end. On a string that is one, the formatter never reads past the NUL and takes exactly one argument
for each conversion, whatever its sink; the text it prints is the one the format stands for exactly
when no `%l` is followed by another character than `d`, `u` or `x`. -/
theorem vprintfmt_follows_grammar_iff {fmt : List UInt8} (hnul : (0 : UInt8) ∉ fmt) :
    ReadsAsFormat fmt ∧ ∀ f : Format, fmt = formatBytes f.pieces → ∀ as : List Arg,
      List.Forall₂ Conv.Accepts (conversions f.pieces) as → ∀ extra : List Arg,
      ∃ out, (∀ (σ : Type) (emit : UInt8 → σ → σ) (ctx : σ),
          vprintfmtTo emit (fmt ++ [0]) (as ++ extra) ctx = some (extra, emitAll emit out ctx)) ∧
        (out = render f.pieces as ↔ .other 108 ∉ f.pieces) := by
  refine ⟨readsAsFormat fmt hnul, ?_⟩
  rintro f rfl as has extra
  refine ⟨renderWith printUnknown f.pieces as, fun σ emit ctx =>
    vprintfmtTo_format f.ok has extra ctx,
    fun heq hmem => ?_, fun hmem => renderWith_printUnknown hmem as⟩
  -- a dropped `%` shows in the length
  have hlen := length_render has
  have hpos := List.count_pos_iff.mpr hmem
  rw [heq] at hlen
  omega

/-- The format `n=%d`. -/
theorem vprintfmt_follows_grammar_decimal :
    ∃ out, (∀ (σ : Type) (emit : UInt8 → σ → σ) (ctx : σ),
        vprintfmtTo emit (cstr "n=%d" ++ [0]) [.word 5] ctx = some ([], emitAll emit out ctx)) ∧
      (out = cstr "n=5" ↔ .other 108 ∉ [Piece.char 110, .char 61, .conv .d]) := by
  have has : List.Forall₂ Conv.Accepts [.d] [.word 5] := .cons trivial .nil
  have hnul : (0 : UInt8) ∉ cstr "n=%d" := by decide
  exact (vprintfmt_follows_grammar_iff hnul).2 ⟨[.char 110, .char 61, .conv .d], by decide⟩ rfl
    [.word 5] has []

/-- The format `%lz` stands for the text `%lz`, and the code prints `lz`. -/
theorem vprintfmt_drops_percent :
    FormatOk [.other 108, .char 122] ∧ formatBytes [.other 108, .char 122] = cstr "%lz" ∧
      render [.other 108, .char 122] [] = cstr "%lz" ∧
      printfBytes (cstr "%lz") [] = some (cstr "lz") := by
  decide

/-! ### `snprintf` -/

/-- The formatter passes the bytes of `vprintfmt` to its sink. -/
theorem vprintfmtTo_eq {fmt : List UInt8} (h : (0 : UInt8) ∉ fmt) (ap : List Arg) :
    ∃ rest, ∀ (σ : Type) (emit : UInt8 → σ → σ) (ctx : σ),
      vprintfmtTo emit (fmt ++ [0]) ap ctx = some (rest, emitAll emit (vprintfmt fmt ap) ctx) := by
  have hnul : ∀ {c d : UInt8} {fmt : List UInt8}, (0 : UInt8) ∉ c :: d :: fmt → (0 : UInt8) ∉ fmt :=
    fun h h0 => h (by simp [h0])
  fun_induction vprintfmt fmt ap with
  | case1 ap => exact ⟨ap, fun σ emit ctx => by simp [vprintfmtTo]⟩
  | case2 ap => exact ⟨ap, fun σ emit ctx => by simp [vprintfmtTo]⟩
  | case3 c ap hc =>
    have h0 : c ≠ 0 := fun h0 => h (by simp [h0])
    exact ⟨ap, fun σ emit ctx => by simp [vprintfmtTo_char h0 hc, vprintfmtTo, emitAll]⟩
  | case4 c d fmt ap a rest hnext hc ih =>
    have h0 : c ≠ 0 := fun h0 => h (by simp [h0])
    obtain ⟨left, hleft⟩ := ih fun h' => h (List.mem_cons_of_mem _ h')
    refine ⟨left, fun σ emit ctx => ?_⟩
    rw [List.cons_append, vprintfmtTo_char h0 hc, hleft, emitAll_cons]
  | case12 c ap a rest hnext hc =>
    obtain rfl : c = 37 := not_not.mp hc
    exact ⟨ap, fun σ emit ctx => by simp [vprintfmtTo, emitAll]⟩
  | case11 c fmt ap a rest hnext hc _ _ _ _ _ _ ih =>
    obtain rfl : c = 37 := not_not.mp hc
    obtain ⟨left, hleft⟩ := ih (hnul h)
    exact ⟨left, fun σ emit ctx => by simp [vprintfmtTo, hleft, emitAll_cons]⟩
  | case16 c ap a rest hnext hc d fmt hd hu hx _ _ _ _ _ _ _ ih =>
    obtain rfl : c = 37 := not_not.mp hc
    obtain ⟨left, hleft⟩ := ih fun h' => h (List.mem_cons_of_mem _ (List.mem_cons_of_mem _ h'))
    refine ⟨left, fun σ emit ctx => ?_⟩
    rw [List.cons_append] at hleft
    simp [vprintfmtTo, hd, hu, hx, hleft, emitAll_cons]
  | case17 c d fmt ap a rest hnext hc hd hu hx hp hcc hs hpct hl ih =>
    obtain rfl : c = 37 := not_not.mp hc
    have h0 : d ≠ 0 := fun h0 => h (by simp [h0])
    obtain ⟨left, hleft⟩ := ih (hnul h)
    exact ⟨left, fun σ emit ctx => by
      simp [vprintfmtTo, h0, hd, hu, hx, hp, hcc, hs, hpct, hl, hleft, emitAll_cons]⟩
  | case5 c fmt ap a rest hnext hc ih | case6 c fmt ap a rest hnext hc _ ih
  | case7 c fmt ap a rest hnext hc _ _ ih | case8 c fmt ap a rest hnext hc _ _ _ ih
  | case9 c fmt ap a rest hnext hc _ _ _ _ ih | case10 c fmt ap a rest hnext hc _ _ _ _ _ ih =>
    obtain rfl : c = 37 := not_not.mp hc
    obtain ⟨left, hleft⟩ := ih (hnul h)
    exact ⟨left, fun σ emit ctx => by simp [vprintfmtTo, hnext, hleft, emitAll_append,
      emitAll_cons]⟩
  | case13 c ap a rest hnext hc _ _ _ _ _ _ _ fmt ih
  | case14 c ap a rest hnext hc _ _ _ _ _ _ _ fmt _ ih
  | case15 c ap a rest hnext hc _ _ _ _ _ _ _ fmt _ _ ih =>
    obtain rfl : c = 37 := not_not.mp hc
    obtain ⟨left, hleft⟩ := ih (hnul fun h' => h (List.mem_cons_of_mem _ h'))
    exact ⟨left, fun σ emit ctx => by simp [vprintfmtTo, hnext, hleft, emitAll_append]⟩

theorem sbufEmit_all (bs : List UInt8) (b : Sbuf) (hlen : b.len.toNat + bs.length < 2 ^ 31 - 1) :
    emitAll sbufEmit bs b =
      { b with
        mem := b.mem.writeBytes (b.buf + b.len.toNat) (bs.take (b.n.toInt.toNat - 1 - b.len.toNat))
        len := b.len + BitVec.ofNat 32 bs.length } := by
  induction bs generalizing b with
  | nil => simp
  | cons c bs ih =>
    rw [List.length_cons] at hlen
    have hnext : (b.len + 1).toNat = b.len.toNat + 1 := by bv_omega
    have hint : (b.len + 1).toInt = b.len.toNat + 1 := by
      rw [BitVec.toInt_eq_toNat_cond, hnext, if_pos (by omega)]
      rfl
    have hslt : (b.len + 1).slt b.n = true ↔ (b.len.toNat : ℤ) + 1 < b.n.toInt := by
      rw [BitVec.slt_iff_toInt_lt, hint]
    rw [emitAll_cons, ih (sbufEmit c b) (by simp only [sbufEmit, hnext]; omega)]
    simp only [sbufEmit, hnext, Sbuf.mk.injEq, true_and]
    refine ⟨?_, ?_⟩
    · by_cases hfit : (b.len.toNat : ℤ) + 1 < b.n.toInt
      · obtain ⟨k, hk⟩ : ∃ k, b.n.toInt.toNat - 1 - b.len.toNat = k + 1 :=
          ⟨b.n.toInt.toNat - 1 - b.len.toNat - 1, by omega⟩
        rw [if_pos (hslt.mpr hfit), hk, List.take_succ_cons, Mem.writeBytes_cons, ← Nat.add_assoc,
          show b.n.toInt.toNat - 1 - (b.len.toNat + 1) = k by omega]
      · rw [if_neg (mt hslt.mp hfit), show b.n.toInt.toNat - 1 - (b.len.toNat + 1) = 0 by omega,
          show b.n.toInt.toNat - 1 - b.len.toNat = 0 by omega]
        simp
    · rw [List.length_cons, BitVec.add_assoc, BitVec.ofNat_add,
        BitVec.add_comm (BitVec.ofNat 32 bs.length)]
      rfl

theorem printfBytes_eq {fmt : List UInt8} (hfmt : (0 : UInt8) ∉ fmt) (ap : List Arg) :
    printfBytes fmt ap = some (vprintfmt fmt ap) := by
  obtain ⟨rest, h⟩ := vprintfmtTo_eq hfmt ap
  rw [printfBytes, h, emitAll_consEmit]
  rfl

theorem snprintf_eq (m : Mem) (buf : ℕ) (n : BitVec 32) {fmt : List UInt8}
    (hfmt : (0 : UInt8) ∉ fmt) (ap : List Arg) (hlen : (vprintfmt fmt ap).length < 2 ^ 31 - 1) :
    snprintf m buf n fmt ap = some (BitVec.ofNat 32 (vprintfmt fmt ap).length,
      if 0 < n.toInt then
        Function.update (m.writeBytes buf ((vprintfmt fmt ap).take (n.toNat - 1)))
          (buf + min (vprintfmt fmt ap).length (n.toNat - 1)) 0
      else m) := by
  obtain ⟨rest, h⟩ := vprintfmtTo_eq hfmt ap
  set text := vprintfmt fmt ap with htext
  have hnat : (BitVec.ofNat 32 text.length).toNat = text.length := by
    rw [BitVec.toNat_ofNat]
    omega
  have hint : (BitVec.ofNat 32 text.length).toInt = text.length := by
    rw [BitVec.toInt_eq_toNat_cond, hnat, if_pos (by omega)]
  have hpos : (0#32).slt n = true ↔ 0 < n.toInt := by
    rw [BitVec.slt_iff_toInt_lt]
    rfl
  have hslt : (BitVec.ofNat 32 text.length).slt n = true ↔ (text.length : ℤ) < n.toInt := by
    rw [BitVec.slt_iff_toInt_lt, hint]
  rw [snprintf, h, sbufEmit_all text ⟨m, buf, n, 0⟩ (by simpa using hlen)]
  simp only [Option.bind_eq_bind, Option.bind_some, BitVec.zero_add, BitVec.ofNat_eq_ofNat,
    BitVec.toNat_ofNat, Nat.zero_mod, Nat.add_zero, Nat.sub_zero, Option.pure_def,
      Option.some.injEq,
    Prod.mk.injEq, true_and]
  by_cases hn : 0 < n.toInt
  · have htoNat : n.toInt = n.toNat := by
      have := n.isLt
      rw [BitVec.toInt_eq_toNat_cond] at hn ⊢
      split_ifs at hn ⊢ with hsmall
      · rfl
      · omega
    rw [if_pos (hpos.mpr hn), if_pos hn, htoNat, Int.toNat_natCast]
    congr 2
    by_cases hfit : (text.length : ℤ) < n.toInt
    · rw [if_pos (hslt.mpr hfit), hnat]
      omega
    · rw [if_neg (mt hslt.mp hfit)]
      have : (n - 1#32).toNat = n.toNat - 1 := by bv_omega
      omega
  · rw [if_neg (mt hpos.mp hn), if_neg hn, show n.toInt.toNat - 1 = 0 by omega]
    simp

/-- **`snprintf` is a bounded view of `printf`**: it returns the length of the text `printf`
emits and leaves the part of the text that fits, a NUL behind it, and all other bytes as they
were. -/
theorem snprintf_bounded (m : Mem) (buf : ℕ) (n : BitVec 32) {fmt : List UInt8}
    (hfmt : (0 : UInt8) ∉ fmt) (ap : List Arg) :
    ∃ text, printfBytes fmt ap = some text ∧ (text.length < 2 ^ 31 - 1 →
      ∃ ret m', snprintf m buf n fmt ap = some (ret, m') ∧ ret.toInt = text.length ∧
        (n.toInt ≤ 0 → m' = m) ∧
        (0 < n.toInt →
          (∀ i, i < min text.length (n.toNat - 1) → some (m' (buf + i)) = text[i]?) ∧
          m' (buf + min text.length (n.toNat - 1)) = 0 ∧
          ∀ a, a < buf ∨ buf + min text.length (n.toNat - 1) < a → m' a = m a)) := by
  refine ⟨_, printfBytes_eq hfmt ap, fun hlen =>
    ⟨_, _, snprintf_eq m buf n hfmt ap hlen, ?_, ?_, ?_⟩⟩
  · rw [BitVec.toInt_eq_toNat_cond, BitVec.toNat_ofNat, Nat.mod_eq_of_lt (by omega),
      if_pos (by omega)]
  · intro hn
    rw [if_neg (by omega)]
  · intro hn
    rw [if_pos hn]
    refine ⟨fun i hi => ?_, Function.update_self .., fun a ha => ?_⟩
    · have htext : i < (vprintfmt fmt ap).length := by omega
      rw [Function.update_of_ne (by omega), List.getElem?_eq_getElem htext]
      congr 1
      refine Mem.writeBytes_add ?_
      rw [List.getElem?_take, if_pos (by omega), List.getElem?_eq_getElem htext]
    · rw [Function.update_of_ne (by omega)]
      rcases ha with ha | ha
      · exact Mem.writeBytes_of_lt ha
      · refine Mem.writeBytes_of_ge ?_
        rw [List.length_take]
        omega

/-- A buffer of four bytes and the format `n=%d` with the argument 12345. -/
theorem snprintf_bounded_four :
    ∃ m', snprintf (fun _ => 7) 0 4 (cstr "n=%d") [.word 12345] = some (7, m') ∧
      (∀ i, i < 3 → some (m' i) = (cstr "n=12345")[i]?) ∧ m' 3 = 0 ∧ ∀ a, 3 < a → m' a = 7 := by
  have hfmt : (0 : UInt8) ∉ cstr "n=%d" := by decide
  have hprint : printfBytes (cstr "n=%d") [.word 12345] = some (cstr "n=12345") := by decide
  obtain ⟨text, htext, hbound⟩ := snprintf_bounded (fun _ => 7) 0 4 hfmt [.word 12345]
  obtain rfl := Option.some.inj (htext.symm.trans hprint)
  obtain ⟨ret, m', hrun, hret, -, hfit⟩ := hbound (by decide)
  obtain rfl : ret = 7 := BitVec.eq_of_toInt_eq hret
  obtain ⟨htaken, hnul, hrest⟩ := hfit (by decide)
  refine ⟨m', hrun, fun i hi => ?_, hnul, fun a ha => hrest a (.inr ha)⟩
  have htake := htaken i hi
  rwa [Nat.zero_add] at htake

end OsKernel
