import HxcOS.Model.CString

/-!
# `os/src/kernel_print.cpp`: `kprint::printf`

The characters that go to the console are collected in a list.  Arguments are consumed in order; a
`va_arg` of a type that the next argument does not have, or without an argument, is an error of the
caller, and the result is `none`.  So it is when the digits of a number do not fit into the buffer.
The negation of a number wraps around.

The pointer `format` moves in a way that does not depend on anything but the bytes of memory, so that
a scan that has not stopped after `2 ^ 64` iterations never does; that too is `none`.  `reads` are
the addresses of the format that were read; reading one again is not recorded.
-/

namespace HxcOS

open ByteMem

/-- An argument of `printf`. -/
inductive VaArg
  | int (v : BitVec 32)
  | ptr (p : Word)
  deriving DecidableEq

/-- `va_arg(args, int)` -/
def vaInt : List VaArg → Option (BitVec 32 × List VaArg)
  | .int v :: args => some (v, args)
  | _ => none

/-- `va_arg` of a pointer. -/
def vaPtr : List VaArg → Option (Word × List VaArg)
  | .ptr p :: args => some (p, args)
  | _ => none

/-- The characters that `puts` emits within `n` iterations. -/
def putsFor (m : Mem) : ℕ → Word → Option (List Byte)
  | 0, _ => none
  | n + 1, str => if m.byte str = 0 then some [] else (putsFor m n (str + 1)).map (m.byte str :: ·)

/-- `void kprint::puts(const char* str)` -/
def puts (m : Mem) (str : Word) : Option (List Byte) := putsFor m (2 ^ 64) str

/-- `static const char hex_digits[]` -/
def hexDigits : List Byte := "0123456789abcdef".toList.map ascii

/-- `for (int i = 60; i >= 0; i -= 4)`, the last `k` iterations. -/
def printNibbles (ptr : Word) : ℕ → List Byte
  | 0 => []
  | k + 1 => hexDigits.getD (ptr >>> (4 * k) &&& 0xF).toNat 0 :: printNibbles ptr k

/-- `void kprint::print_p(void* ptr)` -/
def printP (ptr : Word) : List Byte := [ascii '0', ascii 'x'] ++ printNibbles ptr 16

/-- `do { buffer[i++] = '0' + (num % 10); num /= 10; } while (num > 0);` with room for so many more
entries in `buffer`; `buffer` has the entries below `i`. -/
def printDigits : ℕ → BitVec 32 → List Byte → Option (List Byte)
  | 0, _, _ => none
  | room + 1, num, buffer =>
    let buffer := buffer ++ [(0x30 + num.srem 10).setWidth 8]
    let num := num.sdiv 10
    if 0 < num.toInt then printDigits room num buffer else some buffer

/-- The case `'d'`. -/
def printInt (num : BitVec 32) : Option (List Byte) :=
  let sign := if num.toInt < 0 then [ascii '-'] else []
  let num := if num.toInt < 0 then -num else num
  (printDigits 12 num []).map fun buffer => sign ++ buffer.reverse

/-- The `switch` on the character after `%`: what is emitted, and the arguments that are left. -/
def printConversion (m : Mem) (c : Byte) (args : List VaArg) : Option (List Byte × List VaArg) :=
  if c = ascii 'c' then (vaInt args).map fun (x, args) => ([x.setWidth 8], args)
  else if c = ascii 's' then
    (vaPtr args).bind fun (str, args) => (puts m str).map fun out => (out, args)
  else if c = ascii 'd' then
    (vaInt args).bind fun (num, args) => (printInt num).map fun out => (out, args)
  else if c = ascii 'p' then (vaPtr args).map fun (num, args) => (printP num, args)
  else if c = ascii '%' then some ([ascii '%'], args)
  else some ([ascii '%', c], args)

/-- The variables of `printf`, the characters emitted so far, and the addresses of the format read
so far, the latest first. -/
structure PrintState where
  format : Word
  args : List VaArg
  out : List Byte
  reads : List Word
  deriving DecidableEq

/-- The body of the loop, with both places where `format` is advanced. -/
def printfBody (m : Mem) (st : PrintState) : Option PrintState :=
  if m.byte st.format = ascii '%' then
    let format := st.format + 1
    (printConversion m (m.byte format) st.args).map fun (out, args) =>
      ⟨format + 1, args, st.out ++ out, format :: st.reads⟩
  else some { st with format := st.format + 1, out := st.out ++ [m.byte st.format] }

/-- `while (*format)`, at most `n` tests of the condition. -/
def printfFor (m : Mem) : ℕ → PrintState → Option PrintState
  | 0, _ => none
  | n + 1, st =>
    let st := { st with reads := st.format :: st.reads }
    if m.byte st.format = 0 then some st else (printfBody m st).bind (printfFor m n)

/-- `void kprint::printf(const char* format, ...)`: the variables when it returns. -/
def printf (m : Mem) (format : Word) (args : List VaArg) : Option PrintState :=
  printfFor m (2 ^ 64) ⟨format, args, [], []⟩

end HxcOS
