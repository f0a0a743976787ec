import Mathlib.Data.UInt
import Mathlib.Data.List.Basic

/-!
# `printf.c`: formatted output

`vprintfmt` turns a format and its arguments into the bytes it passes to `emit`, one by one
and in order. An argument is a 64-bit word, as the calling convention passes it, or a string.
-/

namespace OsKernel

/-- The bytes of a string literal. -/
def cstr (s : String) : List UInt8 := s.toList.map fun c => UInt8.ofNat c.toNat

/-- `digits[d]`. -/
def digit (d : ℕ) : UInt8 := (cstr "0123456789abcdef").getD d 0

/-- The digits of `x`, the lowest first: the `do` loop of `printint`, for as many rounds as
there is fuel. -/
def printintDigits (base : ℕ) : (fuel x : ℕ) → List UInt8
  | 0, _ => []
  | fuel + 1, x =>
    if x / base = 0 then [digit (x % base)]
    else digit (x % base) :: printintDigits base fuel (x / base)

/-- `printint`. A 64-bit number has no more than 64 digits. -/
def printint (xx : BitVec 64) (base : ℕ) (sign : Bool) : List UInt8 :=
  let neg := sign && xx.toInt < 0
  let x := if neg then (-xx).toNat else xx.toNat
  let buf := printintDigits base 64 x
  (if neg then buf ++ cstr "-" else buf).reverse

/-- `printptr`. -/
def printptr (x : BitVec 64) : List UInt8 :=
  cstr "0x" ++ (List.range 16).map fun i => digit ((x <<< (4 * i)) >>> 60).toNat

/-- An argument of `printf`. -/
inductive Arg where
  | word (v : BitVec 64)
  | string (s : List UInt8)

/-- `va_arg(ap, long)`. -/
def Arg.toWord : Arg → BitVec 64
  | .word v => v
  | .string _ => 0

/-- `va_arg(ap, int)`, widened. -/
def Arg.toInt (a : Arg) : BitVec 64 := (a.toWord.setWidth 32).signExtend 64

/-- `va_arg(ap, unsigned int)`, widened. -/
def Arg.toUInt (a : Arg) : BitVec 64 := (a.toWord.setWidth 32).setWidth 64

/-- `va_arg(ap, char *)`; the null pointer is the word 0. -/
def Arg.toStr : Arg → List UInt8
  | .word _ => cstr "(null)"
  | .string s => s

/-- The next argument and those after it. -/
def nextArg : List Arg → Arg × List Arg
  | [] => (.word 0, [])
  | a :: as => (a, as)

/-- The loop of `vprintfmt` over the bytes of the format up to its NUL. -/
def vprintfmt : List UInt8 → List Arg → List UInt8
  | [], _ => []
  | [c], _ => if c = 37 then [] else [c]
  | c :: d :: fmt, as =>
    let (a, rest) := nextArg as
    if c ≠ 37 then c :: vprintfmt (d :: fmt) as
    -- `%d`, `%u`, `%x`, `%p`, `%c`, `%s` and `%%`
    else if d = 100 then printint a.toInt 10 true ++ vprintfmt fmt rest
    else if d = 117 then printint a.toUInt 10 false ++ vprintfmt fmt rest
    else if d = 120 then printint a.toUInt 16 false ++ vprintfmt fmt rest
    else if d = 112 then printptr a.toWord ++ vprintfmt fmt rest
    else if d = 99 then UInt8.ofNat a.toWord.toNat :: vprintfmt fmt rest
    else if d = 115 then a.toStr ++ vprintfmt fmt rest
    else if d = 37 then 37 :: vprintfmt fmt as
    else if d = 108 then
      match fmt with
      | [] => [108]
      | e :: fmt =>
        -- `%ld`, `%lu` and `%lx`
        if e = 100 then printint a.toWord 10 true ++ vprintfmt fmt rest
        else if e = 117 then printint a.toWord 10 false ++ vprintfmt fmt rest
        else if e = 120 then printint a.toWord 16 false ++ vprintfmt fmt rest
        else 108 :: vprintfmt (e :: fmt) as
    else 37 :: d :: vprintfmt fmt as

end OsKernel
