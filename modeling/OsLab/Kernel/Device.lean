import OsLab.Kernel.FileSystem

/-!
# Devices: `kernel/disk.c`, `kernel/screen.c`, `kernel/keyboard.c`, and `printQ` of `kernel/lib.c`

* The disk is an array of 512-byte sectors; a transfer command names its sector by the 28 bits that
  `writeSect` spreads over four byte ports (`lba`). `writeBytes` works on addresses without
  wrap-around; its loop bound is the length of the range, which every step shortens.
* The screen is the text window at `0xB8000`, by cells. Nothing in `screen_put` bounds the row, so
  cells past the 80×25 visible ones get written; a cell that lies in the kernel's memory
  (from `0x100000` on) stops the run.
* `printQ` interprets a format; the words above the format on the stack are a function of their
  position, each with the string it points to if it is used as a pointer.
-/

namespace OsLab

open OsLab.Lib

/-! ### `disk.c` -/

/-- The bytes of a sector. -/
abbrev SECTSIZE : ℕ := 512

/-- The disk by sector number and offset. -/
abbrev Disk : Type := ℕ → ℕ → UInt8

/-- The sector number that the port writes of `writeSect(src, offset)` assemble; bits 24 to 27 go
into the low half of the fourth byte, whose high half is `0xE`. -/
def lba (offset : ℤ) : ℕ :=
  let w := (offset % 2 ^ 32).toNat
  w % 256 + 256 * (w / 2 ^ 8 % 256) + 2 ^ 16 * (w / 2 ^ 16 % 256) +
    2 ^ 24 * ((w / 2 ^ 24 % 256 ||| 0xE0) % 16)

/-- `writeSect`. -/
def writeSect (mem : ℕ → UInt8) (src : ℕ) (offset : ℤ) (disk : Disk) : Disk :=
  Function.update disk (lba offset) fun i =>
    if i < SECTSIZE then mem (src + i) else disk (lba offset) i

/-- The loop of `writeBytes`, over at most `n` sectors. -/
def writeSects (mem : ℕ → UInt8) (addrEnd : ℕ) : ℕ → ℕ → ℤ → Disk → Disk
  | 0, _, _, disk => disk
  | n + 1, addr, sect, disk =>
    if addr < addrEnd then
      writeSects mem addrEnd n (addr + SECTSIZE) (sect + 1) (writeSect mem addr sect disk)
    else disk

/-- `writeBytes`. -/
def writeBytes (mem : ℕ → UInt8) (addr : ℕ) (diskoff : ℤ) (cont : ℕ) (disk : Disk) :
    Except Stop Disk := do
  assert (diskoff.tmod SECTSIZE = 0)
  .ok (writeSects mem (addr + cont) cont addr (diskoff.tdiv SECTSIZE) disk)

/-- The size of the file system, in MB. -/
abbrev FS_SIZE_MB : ℕ := 2

/-- Where the file system begins on the disk: behind the boot sector, the kernel and the
application. -/
abbrev FS_OFFSET_IN_DISK : ℤ := 512 + 102400 + 10240

/-- Where `loadFS` puts the file system in memory. -/
abbrev FS_OFFSET_IN_MEM : ℕ := 0x01000000

/-- Byte `i` of a little-endian word. -/
def wordByte (w : UInt32) (i : ℕ) : UInt8 := UInt8.ofNat (w.toNat / 256 ^ i % 256)

/-- Byte `o` of a superblock; `sizeof(superblock_t)` is 60. -/
def Superblock.byte (s : Superblock) (o : ℕ) : UInt8 :=
  if o < 8 then s.id o
  else if o < 12 then wordByte s.fsSzMb (o - 8)
  else if o < 16 then wordByte s.nrNode (o - 12)
  else if o < 20 then wordByte s.superblockSzB (o - 16)
  else if o < 24 then wordByte s.inodeblcokSzB (o - 20)
  else if o < 28 then wordByte s.inuseInodeNum (o - 24)
  else s.inodeMap (o - 28)

/-- Byte `o` of an inode block; `sizeof(inodeblock_t)` is 32804. -/
def Inode.byte (d : Inode) (o : ℕ) : UInt8 :=
  if o < 4 then wordByte d.type o
  else if o < 8 then wordByte d.size (o - 4)
  else if o < 36 then d.filename (o - 8)
  else d.block (o - 36)

/-- Byte `o` of the memory at `fs_addr`. -/
def FileSystem.byte (fs : FileSystem) (o : ℕ) : UInt8 :=
  if o < 60 then fs.super.byte o
  else if o < 60 + 32804 * NR_INODE then
    (fs.inode ((o - 60) / 32804)).byte ((o - 60) % 32804)
  else fs.tail (o - (60 + 32804 * NR_INODE))

/-- The bytes of an inode block. -/
theorem byte_inode {fs : FileSystem} {i o : ℕ} (hi : i < NR_INODE) (ho : o < 32804) :
    fs.byte (60 + 32804 * i + o) = (fs.inode i).byte o := by
  have hi : i < 32 := hi
  have hdiv : (60 + 32804 * i + o - 60) / 32804 = i := by omega
  have hmod : (60 + 32804 * i + o - 60) % 32804 = o := by omega
  rw [FileSystem.byte, if_neg (by omega), if_pos (by simp only [NR_INODE]; omega), hdiv, hmod]

/-- `writeBack`. -/
def writeBack (fs : FileSystem) (disk : Disk) : Except Stop Disk :=
  writeBytes (fun a => fs.byte (a - FS_OFFSET_IN_MEM)) FS_OFFSET_IN_MEM FS_OFFSET_IN_DISK
    (FS_SIZE_MB * 1024 * 1024) disk

/-! ### `screen.c` -/

/-- The video memory and the cursor. -/
structure Screen where
  vm : ℕ → UInt16
  cursorX : UInt16
  cursorY : UInt16

/-- `ColorAttr(white, black) << 8`. -/
abbrev textAttribute : UInt16 := 0x0F00

/-- The number of cells between `vm_addr` and the kernel image at `0x100000`. -/
abbrev NR_CELLS : ℕ := (0x100000 - 0xB8000) / 2

/-- The last `if` of `screen_put`: wrap the column. -/
def Screen.wrap (s : Screen) : Screen :=
  if s.cursorX ≥ 80 then { s with cursorX := 0, cursorY := s.cursorY + 1 } else s

/-- `screen_put(ch, default_forecolor, default_backcolor)`. -/
def screenPut (ch : UInt8) (s : Screen) : Except Stop Screen :=
  if ch = 0x08 ∧ s.cursorX ≠ 0 then .ok { s with cursorX := s.cursorX - 1 }.wrap
  else if ch = 0x09 then .ok { s with cursorX := (s.cursorX + 8) &&& ~~~7 }.wrap
  else if ch = 0x0D then .ok { s with cursorX := 0 }.wrap
  else if ch = 0x0A then .ok { s with cursorX := 0, cursorY := s.cursorY + 1 }.wrap
  else if charVal ch ≥ 0x20 then
    let location := s.cursorY.toNat * 80 + s.cursorX.toNat
    if location < NR_CELLS then
      .ok { s with
        vm := Function.update s.vm location (ch.toUInt16 ||| textAttribute)
        cursorX := s.cursorX + 1 }.wrap
    else .error (.wild .video)
  else .ok s.wrap

/-- The characters of a string, one after another. -/
def screenPuts (s : Screen) : List UInt8 → Except Stop Screen
  | [] => .ok s
  | ch :: str => do
    let s ← screenPut ch s
    screenPuts s str

/-! ### `lib.c`: `printQ` -/

/-- An argument word of `printQ`, with the string at that address. -/
structure Arg where
  word : UInt32
  str : List UInt8

/-- The decimal digits that `print_dec_Q` prints for a non-negative integer. -/
def decDigits (n : ℕ) : List UInt8 :=
  if n / 10 ≠ 0 then decDigits (n / 10) ++ [UInt8.ofNat (48 + n % 10)]
  else [UInt8.ofNat (48 + n % 10)]
termination_by n
decreasing_by omega

/-- `print_dec_Q`; the most negative integer is printed as a fixed string. -/
def printDecQ (arg : UInt32) : List UInt8 :=
  let integer := intOf arg
  if integer = -2 ^ 31 then [45, 50, 49, 52, 55, 52, 56, 51, 54, 52, 56]
  else if integer < 0 then 45 :: decDigits (-integer).toNat
  else decDigits integer.toNat

/-- `print_hex_Q`. -/
def hexDigits (n : ℕ) : List UInt8 :=
  let digit := if n % 16 < 10 then UInt8.ofNat (48 + n % 16) else UInt8.ofNat (97 + n % 16 - 10)
  if n / 16 ≠ 0 then hexDigits (n / 16) ++ [digit] else [digit]
termination_by n
decreasing_by omega

/-- The `switch` of `printQ`: what a directive prints and how many argument words it takes. -/
def directiveQ (c : UInt8) (arg : Arg) : List UInt8 × ℕ :=
  if c = 99 then ([arg.word.toUInt8], 1)
  else if c = 100 then (printDecQ arg.word, 1)
  else if c = 88 ∨ c = 120 then (hexDigits arg.word.toNat, 1)
  else if c = 115 then (arg.str, 1)
  else if c = 37 then ([37], 0)
  else ([], 0)

/-- The loop of `printQ`: the characters printed from argument `k` on. The flag says that a `%` has
been read; stepping over the terminating NUL in that state leaves the format. -/
def formatQ (args : ℕ → Arg) : Bool → ℕ → List UInt8 → Except Stop (List UInt8)
  | false, _, [] => .ok []
  | true, _, [] => .error (.wild .pointer)
  | false, k, c :: format =>
    if c = 37 then formatQ args true k format
    else do
      let out ← formatQ args false k format
      .ok (c :: out)
  | true, k, c :: format =>
    if c = 32 then formatQ args true k format
    else do
      let out ← formatQ args false (k + (directiveQ c (args k)).2) format
      .ok ((directiveQ c (args k)).1 ++ out)

/-- `printQ`. -/
def printQ (format : List UInt8) (args : ℕ → Arg) (s : Screen) : Except Stop Screen := do
  let out ← formatQ args false 0 format
  screenPuts s out

/-! ### `keyboard.c` -/

/-- The scan codes of the letters, from `a` on. -/
def letterCode : List ℕ :=
  [30, 48, 46, 32, 18, 33, 34, 35, 23, 36, 37, 38, 50, 49, 24, 25, 16, 19, 31, 20, 22, 47, 17, 45,
    21, 44]

/-- The scan codes of the digits, from `0` on. -/
def numCode : List ℕ := [11, 2, 3, 4, 5, 6, 7, 8, 9, 10]

/-- `press_key`. -/
def pressKey (scanCode : ℕ) : UInt8 :=
  match letterCode.idxOf? scanCode with
  | some i => UInt8.ofNat (97 + i)
  | none =>
    match numCode.idxOf? scanCode with
    | some i => UInt8.ofNat (48 + i)
    | none => if scanCode = 28 then 0x0A else if scanCode = 57 then 0x20 else 0

end OsLab
