import OsLab.Kernel.Device

/-!
# Formatted input and output: `lib/syscall.c`, and `printk` and `printQ` of `kernel/lib.c`

The library of the user programs and the kernel have four loops over a format between them:
`printf`, `scanf`, `printk` and `printQ`. They are `formatLoop` with what they do for an ordinary
character and for a directive. The three printers also share the functions that print an argument;
what differs is where a character goes (`put`): into `outbuf`, to the serial port, to the screen.

* A pointer into the format is the memory from there on, the NUL and what lies behind it included,
  and a loop returns the pointer it stops at. Memory that is not known (`past`) stops it.
* The words above the format on the stack are a function of their position, as for `printQ` in
  `Device`. A `%s` string is a value: it does not overlap with `outbuf`.
* `UserIO.input` are the characters that the keyboard still delivers; a read that finds none waits.
  `UserIO.written` is what went to `stdout` with `NR_write`.

`getchar`, which is `gets` without its loop, is left out.
-/

namespace OsLab

open OsLab.Lib

/-! ### The loop over a format -/

/-- `while (*format) …` from a pointer on. The flag says that a `%` has been read: spaces are
skipped then, and the character behind them, whatever it is, is a directive and stepped over. -/
def formatLoop {ε σ : Type} (past : ε) (ordinary directive : UInt8 → σ → Except ε σ) :
    Bool → List UInt8 → σ → Except ε (List UInt8 × σ)
  | _, [], _ => .error past
  | false, c :: mem, s =>
    if c = 0 then .ok (c :: mem, s)
    else if c = 37 then formatLoop past ordinary directive true mem s
    else do
      let s ← ordinary c s
      formatLoop past ordinary directive false mem s
  | true, c :: mem, s =>
    if c = 32 then formatLoop past ordinary directive true mem s
    else do
      let s ← directive c s
      formatLoop past ordinary directive false mem s

section Printers

variable {ε σ : Type} (put : UInt8 → σ → Except ε σ)

/-- `print_string`, `print_string_Q`. -/
def printString : List UInt8 → σ → Except ε σ
  | [], s => .ok s
  | c :: str, s => do
    let s ← put c s
    printString str s

/-- The recursion of `print_dec` and `print_dec_Q` on an integer that is not negative. -/
def printDigits (integer : ℕ) (s : σ) : Except ε σ :=
  if integer / 10 ≠ 0 then do
    let s ← printDigits (integer / 10) s
    put (UInt8.ofNat (48 + integer % 10)) s
  else put (UInt8.ofNat (48 + integer % 10)) s
termination_by integer
decreasing_by omega

/-- `print_dec`, `print_dec_Q`; the most negative integer is printed as a fixed string. -/
def printDec (arg : UInt32) (s : σ) : Except ε σ :=
  let integer := intOf arg
  if integer = -2 ^ 31 then printString put [45, 50, 49, 52, 55, 52, 56, 51, 54, 52, 56] s
  else if integer < 0 then do
    let s ← put 45 s
    printDigits put (-integer).toNat s
  else printDigits put integer.toNat s

/-- The recursion of `print_hex` and `print_hex_Q`. -/
def printHexDigits (integer : ℕ) (s : σ) : Except ε σ :=
  let digit :=
    if integer % 16 < 10 then UInt8.ofNat (48 + integer % 16)
    else UInt8.ofNat (97 + integer % 16 - 10)
  if integer / 16 ≠ 0 then do
    let s ← printHexDigits (integer / 16) s
    put digit s
  else put digit s
termination_by integer
decreasing_by omega

/-- `print_hex`, `print_hex_Q`. -/
def printHex (arg : UInt32) (s : σ) : Except ε σ := printHexDigits put arg.toNat s

/-- The `switch` of a printer, with the number of argument words used so far. -/
def printDirective (args : ℕ → Arg) (c : UInt8) (s : ℕ × σ) : Except ε (ℕ × σ) :=
  let arg := args s.1
  if c = 99 then do
    let t ← put arg.word.toUInt8 s.2
    .ok (s.1 + 1, t)
  else if c = 100 then do
    let t ← printDec put arg.word s.2
    .ok (s.1 + 1, t)
  else if c = 88 ∨ c = 120 then do
    let t ← printHex put arg.word s.2
    .ok (s.1 + 1, t)
  else if c = 115 then do
    let t ← printString put arg.str s.2
    .ok (s.1 + 1, t)
  else if c = 37 then do
    let t ← put 37 s.2
    .ok (s.1, t)
  else .ok s

/-- The loop of a printer. -/
def printFormat (past : ε) (args : ℕ → Arg) (mem : List UInt8) (s : σ) :
    Except ε (List UInt8 × ℕ × σ) :=
  formatLoop past (fun c s => do
    let t ← put c s.2
    .ok (s.1, t)) (printDirective put args) false mem (0, s)

end Printers

/-! ### The kernel's printers -/

/-- `putChar`: the serial port takes every character. -/
def putChar (ch : UInt8) (serial : List UInt8) : Except Stop (List UInt8) := .ok (serial ++ [ch])

/-- `printk`. -/
def printk (args : ℕ → Arg) (mem serial : List UInt8) :
    Except Stop (List UInt8 × ℕ × List UInt8) :=
  printFormat putChar (.wild .pointer) args mem serial

/-- `printQ`, with the memory behind its format. -/
def printQScan (args : ℕ → Arg) (mem : List UInt8) (s : Screen) :
    Except Stop (List UInt8 × ℕ × Screen) :=
  printFormat screenPut (.wild .pointer) args mem s

/-! ### The library's buffers -/

/-- Why a function of the library does not return. -/
inductive UserStop
  /-- `outbuf[i]` with `i ≥ 1024`. -/
  | outbuf
  /-- `inbuf[i]` with `i ≥ 1024`. -/
  | inbuf
  /-- A format pointer in memory that is not known. -/
  | pointer
  /-- A read that waits for the keyboard. -/
  | wait
  deriving DecidableEq, Repr

/-- The bytes of a buffer of the library. -/
abbrev max_size : ℕ := 1024

/-- The globals of the library, and what the process reads and writes. -/
structure UserIO where
  outbuf : ℕ → UInt8
  outlen : ℕ
  inbuf : ℕ → UInt8
  inlen : ℕ
  input : List UInt8
  written : List UInt8

/-- `outbuf[0..outlen)`. -/
def UserIO.outText (io : UserIO) : List UInt8 := (List.range io.outlen).map io.outbuf

/-- `print_ch`. -/
def printCh (arg : UInt8) (io : UserIO) : Except UserStop UserIO :=
  if io.outlen < max_size then
    .ok { io with outbuf := Function.update io.outbuf io.outlen arg, outlen := io.outlen + 1 }
  else .error .outbuf

/-- The loop of `printf`. -/
def printfLoop (args : ℕ → Arg) (mem : List UInt8) (io : UserIO) :
    Except UserStop (List UInt8 × ℕ × UserIO) :=
  printFormat printCh .pointer args mem { io with outlen := 0 }

/-- `printf`. -/
def printf (args : ℕ → Arg) (mem : List UInt8) (io : UserIO) : Except UserStop UserIO := do
  let r ← printfLoop args mem io
  .ok { r.2.2 with written := r.2.2.written ++ r.2.2.outText }

/-! ### Reading -/

/-- `gets` from the read of `inbuf[inlen]` on; `s` is the caller's buffer. The first read and the
one at the end of the loop body are the same step. -/
def getsLoop (s : ℕ → UInt8) (inbuf : ℕ → UInt8) (inlen : ℕ) :
    List UInt8 → Except UserStop ((ℕ → UInt8) × (ℕ → UInt8) × ℕ × List UInt8)
  | [] => .error .wait
  | c :: input =>
    if inlen < max_size then
      let inbuf := Function.update inbuf inlen c
      let ch := inbuf inlen
      if ch ≠ 10 then getsLoop (Function.update s inlen (inbuf inlen)) inbuf (inlen + 1) input
      else .ok (Function.update s inlen 0, inbuf, inlen, input)
    else .error .inbuf

/-- `gets`. -/
def gets (s : ℕ → UInt8) (io : UserIO) : Except UserStop ((ℕ → UInt8) × UserIO) := do
  let r ← getsLoop s io.inbuf 0 io.input
  .ok (r.1, { io with inbuf := r.2.1, inlen := r.2.2.1, input := r.2.2.2 })

/-- The first loop of the `scan` functions: the first character that is not blank, and the
characters behind it. -/
def skipBlanks : List UInt8 → Except UserStop (UInt8 × List UInt8)
  | [] => .error .wait
  | ch :: input => if ch = 10 ∨ ch = 32 then skipBlanks input else .ok (ch, input)

/-- `ch >= '0' && ch <= '9'`. -/
def isDec (ch : UInt8) : Bool := 48 ≤ charVal ch ∧ charVal ch ≤ 57

/-- `ch >= 'a' && ch <= 'f'`. -/
def isHexLetter (ch : UInt8) : Bool := 97 ≤ charVal ch ∧ charVal ch ≤ 102

/-- The condition of the second loop of `scan_hex`. -/
def isHex (ch : UInt8) : Bool := isDec ch || isHexLetter ch

/-- The value of a digit. -/
def hexVal (ch : UInt8) : UInt32 :=
  if isDec ch then ch.toUInt32 - 48 else ch.toUInt32 - 97 + 10

/-- The second loop of `scan_dec` and `scan_hex`, at the character `ch`. -/
def scanNumLoop (digit : UInt8 → Bool) (base : UInt32) :
    UInt32 → UInt8 → List UInt8 → Except UserStop (UInt32 × List UInt8)
  | num, ch, [] => if digit ch then .error .wait else .ok (num, [])
  | num, ch, c :: input =>
    if digit ch then scanNumLoop digit base (num * base + hexVal ch) c input
    else .ok (num, c :: input)

/-- `scan_dec`: the number it stores and the characters it leaves. -/
def scanDec (input : List UInt8) : Except UserStop (UInt32 × List UInt8) := do
  let r ← skipBlanks input
  scanNumLoop isDec 10 0 r.1 r.2

/-- `scan_hex`. -/
def scanHex (input : List UInt8) : Except UserStop (UInt32 × List UInt8) := do
  let r ← skipBlanks input
  scanNumLoop isHex 16 0 r.1 r.2

/-- The second loop of `scan_string`, at the character `ch`. -/
def scanStringLoop : UInt8 → List UInt8 → Except UserStop (List UInt8 × List UInt8)
  | ch, [] => if ch ≠ 10 ∧ ch ≠ 32 then .error .wait else .ok ([], [])
  | ch, c :: input =>
    if ch ≠ 10 ∧ ch ≠ 32 then do
      let r ← scanStringLoop c input
      .ok (ch :: r.1, r.2)
    else .ok ([], c :: input)

/-- `scan_string`. -/
def scanString (input : List UInt8) : Except UserStop (List UInt8 × List UInt8) := do
  let r ← skipBlanks input
  scanStringLoop r.1 r.2

/-- What `scanf` stores through a pointer. -/
inductive Scanned
  | char (c : UInt8)
  | word (w : UInt32)
  | string (str : List UInt8)
  deriving DecidableEq, Repr

/-- The state of `scanf`: the argument words used, and what has been stored where. -/
structure ScanState where
  io : UserIO
  used : ℕ
  stored : List (UInt32 × Scanned)

/-- One `case` of `scanf`: the next pointer gets a value. -/
def ScanState.store (s : ScanState) (ptrs : ℕ → UInt32) (v : Scanned) (input : List UInt8) :
    ScanState where
  io := { s.io with input := input }
  used := s.used + 1
  stored := s.stored ++ [(ptrs s.used, v)]

/-- The `switch` of `scanf`. -/
def scanDirective (ptrs : ℕ → UInt32) (c : UInt8) (s : ScanState) : Except UserStop ScanState :=
  if c = 99 then do
    let r ← skipBlanks s.io.input
    .ok (s.store ptrs (.char r.1) r.2)
  else if c = 100 then do
    let r ← scanDec s.io.input
    .ok (s.store ptrs (.word r.1) r.2)
  else if c = 120 then do
    let r ← scanHex s.io.input
    .ok (s.store ptrs (.word r.1) r.2)
  else if c = 115 then do
    let r ← scanString s.io.input
    .ok (s.store ptrs (.string r.1) r.2)
  else .ok s

/-- `scanf`; an ordinary character is printed with `printf("%c", *format)`. -/
def scanf (ptrs : ℕ → UInt32) (mem : List UInt8) (io : UserIO) :
    Except UserStop (List UInt8 × ScanState) :=
  formatLoop .pointer (fun c s => do
    let io ← printf (fun _ => ⟨wordOf (charVal c), []⟩) [37, 99, 0] s.io
    .ok { s with io := io }) (scanDirective ptrs) false mem ⟨{ io with outlen := 0 }, 0, []⟩

end OsLab
