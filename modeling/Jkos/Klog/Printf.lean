import Jkos.Word
import Mathlib.Logic.Function.Basic

/-!
# Formatted output

`Klog::vprintf` and `u2s` of `klog.cpp`. The format is a string in memory that ends with its
terminator: a byte behind it cannot be read. The pointer `buf` has no value at first and is
never reset, and what it points to is one of two static buffers or a string of the caller.
An access outside a buffer ends the run.
-/

namespace Jkos.Klog

/-- Where a call of `vprintf` leaves what the language defines. -/
inductive PrintFault where
  /-- A byte behind the terminator of the format is read. -/
  | overread
  /-- `buf` is read before it was assigned. -/
  | unassigned
  /-- A static buffer is accessed outside its bounds. -/
  | overrun
  /-- `va_arg` does not find an argument of the type it asks for. -/
  | argument
  deriving DecidableEq

/-- A string of the caller, without its terminator. -/
abbrev CString := { str : List Byte // (0 : Byte) ∉ str }

/-- The operations of the floating point unit that `%f` uses. Apart from the division and the
product they are those on the number itself: `digit f` is
`(char)((int)((f - (int)f) * 10) + '0')`. -/
structure FloatOps (F : Type) where
  /-- `f < 0` -/
  ltZero : F → Bool
  /-- `-f` -/
  neg : F → F
  /-- `f < 1` -/
  ltOne : F → Bool
  /-- `f >= 1` -/
  geOne : F → Bool
  /-- `f / 10` -/
  div10 : F → F
  /-- `f * 10` -/
  mul10 : F → F
  digit : F → Byte
  ltZero_neg : ∀ f, ltZero f = true → ltZero (neg f) = false
  ltZero_div10 : ∀ f, ltZero f = false → ltZero (div10 f) = false
  ltZero_mul10 : ∀ f, ltZero f = false → ltZero (mul10 f) = false
  /-- The conversion to `int` yields a digit, or `INT_MIN` where it overflows. -/
  digit_ne_zero : ∀ f, ltZero f = false → digit f ≠ 0

/-- An argument behind the format. -/
inductive Arg (F : Type) where
  /-- `const char *`, where `none` is the null pointer. -/
  | str (s : Option CString)
  /-- `int`, `unsigned` and `void *`. -/
  | word (w : Word)
  /-- `double`. -/
  | float (f : F)

/-! ## Buffers -/

section Buffers

/-- `buf[i]`, in an array of `size` bytes. -/
def read (size : Nat) (buf : Nat → Byte) (i : Nat) : Except PrintFault Byte :=
  if i < size then .ok (buf i) else .error .overrun

/-- `buf[i] = b`, in an array of `size` bytes. -/
def write (size : Nat) (buf : Nat → Byte) (i : Nat) (b : Byte) :
    Except PrintFault (Nat → Byte) :=
  if i < size then .ok (Function.update buf i b) else .error .overrun

/-- The bytes are written from index `i` on. -/
def writeAll (size : Nat) (buf : Nat → Byte) (i : Nat) : List Byte → Except PrintFault (Nat → Byte)
  | [] => .ok buf
  | b :: bs => do
      let buf ← write size buf i b
      writeAll size buf (i + 1) bs

/-- `strcpy`, which copies the terminator as well. -/
def strcpy (size : Nat) (buf : Nat → Byte) (str : List Byte) : Except PrintFault (Nat → Byte) :=
  writeAll size buf 0 (str ++ [0])

/-- The loop that swaps `buf[i]` and `buf[len - 1 - i]`, for all `i` below its argument. -/
def reverseLoop (size : Nat) (buf : Nat → Byte) (len : Nat) : Nat → Except PrintFault (Nat → Byte)
  | 0 => .ok buf
  | i + 1 => do
      let tmp ← read size buf i
      let buf ← write size buf i (← read size buf (len - 1 - i))
      let buf ← write size buf (len - 1 - i) tmp
      reverseLoop size buf len i

/-- The bytes from index `k` up to the next zero, and its index. -/
def scan (size : Nat) (buf : Nat → Byte) (k : Nat) : Except PrintFault (List Byte × Nat) :=
  if k < size then
    if buf k = 0 then .ok ([], k)
    else do
      let (str, k') ← scan size buf (k + 1)
      .ok (buf k :: str, k')
  else .error .overrun
  termination_by size - k

end Buffers

/-! ## Numbers -/

/-- The size of the buffer `ret` of `u2s`. -/
def retSize : Nat := 20

/-- The size of `buf_mem`. -/
def bufMemSize : Nat := 128

/-- `(char)(d < 10 ? '0' + d : 'a' + d - 10)`. -/
def digitByte (d : Word) : Byte :=
  (if d < 10 then 0x30 + d else 0x61 + d - 10).setWidth 8

/-- The loop of `u2s` over the digits. -/
def u2sDigits (base n : Word) (ret : Nat → Byte) (len : Nat) :
    Except PrintFault ((Nat → Byte) × Nat) :=
  if n = 0 then .ok (ret, len)
  else if len < retSize then
    u2sDigits base (n / base) (Function.update ret len (digitByte (n % base))) (len + 1)
  else .error .overrun
  termination_by retSize - len

/-- `u2s`: the buffer `ret` after it. -/
def u2s (n base : Word) (ret : Nat → Byte) : Except PrintFault (Nat → Byte) :=
  if n = 0 then strcpy retSize ret [0x30]
  else do
    let (ret, len) ← u2sDigits base n ret 0
    let ret ← reverseLoop retSize ret len (len / 2)
    write retSize ret len 0

/-- The loop of `%p`, with `i` digits to go. -/
def pointerLoop (val : Word) (bufMem : Nat → Byte) : Nat → Except PrintFault (Nat → Byte)
  | 0 => .ok bufMem
  | i + 1 => do
      let x := (val >>> (i <<< 2)) &&& 0xF
      let x := if x < 10 then x + 0x30 else x + 0x41 - 10
      let bufMem ← write bufMemSize bufMem (10 - i) (x.setWidth 8)
      pointerLoop val bufMem i

section Floats

variable {F : Type} (ops : FloatOps F)

/-- The loop of `%f` over the digits before the point. -/
def floatDigits (f : F) (bufMem : Nat → Byte) (n : Nat) :
    Except PrintFault ((Nat → Byte) × Nat) :=
  if ops.geOne f then
    let f := ops.div10 f
    if n < bufMemSize then
      floatDigits f (Function.update bufMem n (ops.digit f)) (n + 1)
    else .error .overrun
  else .ok (bufMem, n)
  termination_by bufMemSize - n

/-- The loop of `%f` over the digits behind the point, with `k` digits to go. -/
def floatFraction (f : F) (bufMem : Nat → Byte) (n : Nat) : Nat → Except PrintFault (Nat → Byte)
  | 0 => .ok bufMem
  | k + 1 => do
      let bufMem ← write bufMemSize bufMem n (ops.digit f)
      floatFraction (ops.mul10 f) bufMem (n + 1) k

/-- `FLOAT_PRECESION`. -/
def floatPrecesion : Nat := 4

/-- The part of `%f` before the digits are turned around. -/
def floatHead (f : F) (bufMem : Nat → Byte) : Except PrintFault ((Nat → Byte) × Nat) :=
  if ops.ltOne f then do
    let bufMem ← write bufMemSize bufMem 0 0x30
    .ok (bufMem, 1)
  else floatDigits ops f bufMem 0

/-- `%f` of a number that is not negative. -/
def floatText (f : F) (bufMem : Nat → Byte) : Except PrintFault (Nat → Byte) := do
  let (bufMem, n) ← floatHead ops f bufMem
  let bufMem ← reverseLoop bufMemSize bufMem n (n / 2)
  let bufMem ← write bufMemSize bufMem n 0x2E
  let bufMem ← floatFraction ops f bufMem (n + 1) floatPrecesion
  write bufMemSize bufMem (n + 1 + floatPrecesion) 0

end Floats

/-! ## `vprintf` -/

/-- The value of the pointer `buf`. -/
inductive BufPtr where
  | unassigned
  | bufMem (k : Nat)
  | ret (k : Nat)
  /-- Into a string of the caller, with the bytes up to its terminator. -/
  | text (rest : List Byte)

/-- The static buffers, the pointer `buf`, and the characters passed to `putc`. -/
structure Printer where
  bufMem : Nat → Byte
  ret : Nat → Byte
  buf : BufPtr
  out : List Byte

namespace Printer

def putc (s : Printer) (ch : Byte) : Printer := { s with out := s.out ++ [ch] }

/-- `buf = buf_mem`. -/
def useBufMem (s : Printer) (bufMem : Nat → Byte) : Printer :=
  { s with bufMem := bufMem, buf := .bufMem 0 }

/-- `buf = u2s(n, base)`. -/
def number (s : Printer) (n base : Word) : Except PrintFault Printer := do
  let ret ← u2s n base s.ret
  .ok { s with ret := ret, buf := .ret 0 }

/-- `while (*buf) putc(*(buf ++));` -/
def flush (s : Printer) : Except PrintFault Printer :=
  match s.buf with
  | .unassigned => .error .unassigned
  | .bufMem k => do
      let (str, k) ← scan bufMemSize s.bufMem k
      .ok { s with buf := .bufMem k, out := s.out ++ str }
  | .ret k => do
      let (str, k) ← scan retSize s.ret k
      .ok { s with buf := .ret k, out := s.out ++ str }
  | .text rest => .ok { s with buf := .text [], out := s.out ++ rest }

end Printer

/-- The labels of the `switch`. -/
inductive Conv where
  | s | x | d | u | c | percent | f | p
  | unknown
  deriving DecidableEq

/-- The branch that a letter selects. -/
def Conv.ofLetter (letter : Byte) : Conv :=
  if letter = 0x73 then .s
  else if letter = 0x78 then .x
  else if letter = 0x64 then .d
  else if letter = 0x75 then .u
  else if letter = 0x63 then .c
  else if letter = 0x25 then .percent
  else if letter = 0x66 then .f
  else if letter = 0x70 then .p
  else .unknown

/-- `"(null)"`. -/
def nullText : List Byte := [0x28, 0x6E, 0x75, 0x6C, 0x6C, 0x29]

/-- `"(%?)"`. -/
def unknownText : List Byte := [0x28, 0x25, 0x3F, 0x29]

/-- `"#0x"`. -/
def pointerPrefix : List Byte := [0x23, 0x30, 0x78]

variable {F : Type} (ops : FloatOps F)

/-- The `switch`, which consumes at most one argument. -/
def convert (conv : Conv) (args : List (Arg F)) (s : Printer) :
    Except PrintFault (Printer × List (Arg F)) :=
  match conv, args with
  | .s, .str (some str) :: args => .ok ({ s with buf := .text str.val }, args)
  | .s, .str none :: args => do
      let bufMem ← strcpy bufMemSize s.bufMem nullText
      .ok (s.useBufMem bufMem, args)
  | .x, .word w :: args => do
      let s ← s.number w 16
      .ok (s, args)
  | .d, .word w :: args => do
      let (s, n) := if w.slt 0 then (s.putc 0x2D, -w) else (s, w)
      let s ← s.number n 10
      .ok (s, args)
  | .u, .word w :: args => do
      let s ← s.number w 10
      .ok (s, args)
  | .c, .word w :: args => do
      let bufMem ← write bufMemSize s.bufMem 0 (w.setWidth 8)
      let bufMem ← write bufMemSize bufMem 1 0
      .ok (s.useBufMem bufMem, args)
  | .percent, args => do
      let bufMem ← strcpy bufMemSize s.bufMem [0x25]
      .ok (s.useBufMem bufMem, args)
  | .f, .float f :: args => do
      let (s, f) := if ops.ltZero f then (s.putc 0x2D, ops.neg f) else (s, f)
      let bufMem ← floatText ops f s.bufMem
      .ok (s.useBufMem bufMem, args)
  | .p, .word w :: args => do
      let bufMem ← strcpy bufMemSize s.bufMem pointerPrefix
      let bufMem ← pointerLoop w bufMem 8
      let bufMem ← write bufMemSize bufMem 11 0
      .ok (s.useBufMem bufMem, args)
  | .unknown, args => do
      -- `buf` keeps the value it has
      let bufMem ← strcpy bufMemSize s.bufMem unknownText
      .ok ({ s with bufMem := bufMem }, args)
  | _, _ => .error .argument

/-- `Klog::vprintf`, where `fmt` holds the bytes from the pointer `fmt` on, up to the
terminator of the string. -/
def vprintf (fmt : List Byte) (args : List (Arg F)) (s : Printer) : Except PrintFault Printer :=
  match fmt with
  | [] => .error .overread
  | ch :: rest =>
      if ch = 0 then .ok s
      else if ch = 0x25 then
        match rest with
        | [] => .error .overread
        | letter :: rest => do
            let (s, args) ← convert ops (.ofLetter letter) args s
            let s ← s.flush
            vprintf rest args s
      else vprintf rest args (s.putc ch)

end Jkos.Klog
