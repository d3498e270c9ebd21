import OsLab.Kernel.Device

/-!
# Loading from the disk: `kernel/disk.c`, `kernel/kvm.c` and `bootloader/boot.c`

`readBytes` steps its address back to where the sector of `diskoff` would begin and transfers whole
sectors until it is past the end. Addresses do not wrap around at the top of memory, as for
`writeBytes`; an address that is stepped back below 0 lies at the top, behind the end, and the loop
ends at once.

The two loaders are one loop. `loadUMain` reads the headers into `buffer`, which the linker places,
`bootMain` to `0x8000`; both read every header out of memory when its turn comes. What `loadUMain`
does next, `preparePCB`, is in `Kernel/Boot`, and the `printk`s write to the serial port only.
-/

namespace OsLab

open OsLab.Lib

/-! ### `disk.c` -/

/-- `readSect`. -/
def readSect (disk : Disk) (dst : ℕ) (offset : ℤ) (mem : ℕ → UInt8) : ℕ → UInt8 := fun a =>
  if dst ≤ a ∧ a < dst + SECTSIZE then disk (lba offset) (a - dst) else mem a

/-- The loop of `readBytes`, over at most `n` sectors. -/
def readSects (disk : Disk) (addrEnd : ℕ) : ℕ → ℕ → ℤ → (ℕ → UInt8) → ℕ → UInt8
  | 0, _, _, mem => mem
  | n + 1, addr, sect, mem =>
    if addr < addrEnd then
      readSects disk addrEnd n (addr + SECTSIZE) (sect + 1) (readSect disk addr sect mem)
    else mem

/-- `readBytes`. -/
def readBytes (disk : Disk) (addr : ℕ) (diskoff : ℤ) (cont : ℕ) (mem : ℕ → UInt8) : ℕ → UInt8 :=
  let start : ℤ := addr - diskoff.tmod SECTSIZE
  if start < 0 then mem
  else readSects disk (addr + cont) (cont + SECTSIZE) start.toNat (diskoff.tdiv SECTSIZE) mem

/-! ### `kvm.c` -/

/-- The loop of `mem_set` for the next `n` addresses. -/
def memSetLoop (bt : UInt8) : ℕ → ℕ → (ℕ → UInt8) → ℕ → UInt8
  | 0, _, mem => mem
  | n + 1, temp, mem => memSetLoop bt n (temp + 1) (Function.update mem temp bt)

/-- `mem_set(beg, end, bt)`. -/
def memSet (beg end_ : ℕ) (bt : UInt8) (mem : ℕ → UInt8) : ℕ → UInt8 :=
  memSetLoop bt (end_ - beg) beg mem

/-- `loadFS`. -/
def loadFS (disk : Disk) (mem : ℕ → UInt8) : ℕ → UInt8 :=
  let fsAddr := FS_OFFSET_IN_MEM
  let mem := memSet fsAddr (fsAddr + FS_SIZE_MB * 1024 * 1024) 0 mem
  readBytes disk fsAddr FS_OFFSET_IN_DISK (FS_SIZE_MB * 1024 * 1024) mem

/-- Where the kernel begins on the disk. -/
abbrev KERNEL_OFFSET_IN_DISK : ℤ := 512

/-- Where the application begins on the disk. -/
abbrev USER_OFFSET_IN_DISK : ℤ := 512 + 102400

/-- `PT_LOAD`. -/
abbrev PT_LOAD : UInt32 := 1

/-- A two-byte word in little-endian order. -/
def halfAt (mem : ℕ → UInt8) (a : ℕ) : UInt16 :=
  UInt16.ofNat ((mem a).toNat + 256 * (mem (a + 1)).toNat)

/-- A four-byte word in little-endian order. -/
def wordAt (mem : ℕ → UInt8) (a : ℕ) : UInt32 :=
  UInt32.ofNat ((mem a).toNat + 256 * (mem (a + 1)).toNat + 65536 * (mem (a + 2)).toNat +
    16777216 * (mem (a + 3)).toNat)

/-- The fields of `struct ELFHeader` that the loaders look at. -/
structure ELFHeader where
  entry : UInt32
  phoff : UInt32
  phnum : UInt16
  deriving DecidableEq, Repr

/-- The fields of `struct ProgramHeader` that the loaders look at. -/
structure ProgramHeader where
  type : UInt32
  off : UInt32
  paddr : UInt32
  filesz : UInt32
  memsz : UInt32
  deriving DecidableEq, Repr

/-- `sizeof(struct ProgramHeader)`. -/
abbrev PH_SIZE : ℕ := 32

/-- `*(struct ELFHeader *)a`. -/
def elfHeader (mem : ℕ → UInt8) (a : ℕ) : ELFHeader where
  entry := wordAt mem (a + 24)
  phoff := wordAt mem (a + 28)
  phnum := halfAt mem (a + 44)

/-- `*(struct ProgramHeader *)a`. -/
def programHeader (mem : ℕ → UInt8) (a : ℕ) : ProgramHeader where
  type := wordAt mem a
  off := wordAt mem (a + 4)
  paddr := wordAt mem (a + 12)
  filesz := wordAt mem (a + 16)
  memsz := wordAt mem (a + 20)

/-- The `diskoff` of a segment: `base + ph->off` is unsigned and becomes an `int`. -/
def segmentOffset (base : ℤ) (ph : ProgramHeader) : ℤ := i32 (base + ph.off.toNat)

/-- What the loaders do with a segment. -/
def loadSegment (disk : Disk) (base : ℤ) (ph : ProgramHeader) (mem : ℕ → UInt8) : ℕ → UInt8 :=
  let paddr := ph.paddr.toNat
  let mem := readBytes disk paddr (segmentOffset base ph) ph.filesz.toNat mem
  memSet (paddr + ph.filesz.toNat) (paddr + ph.memsz.toNat) 0 mem

/-- The loop of the loaders over the next `n` program headers. -/
def loadSegments (disk : Disk) (base : ℤ) : ℕ → ℕ → (ℕ → UInt8) → ℕ → UInt8
  | 0, _, mem => mem
  | n + 1, ph, mem =>
    let h := programHeader mem ph
    loadSegments disk base n (ph + PH_SIZE)
      (if h.type = PT_LOAD then loadSegment disk base h mem else mem)

/-- What `loadUMain` and `bootMain` have in common: the memory they leave, and `elf->entry`. -/
def loadElf (disk : Disk) (base : ℤ) (elf : ℕ) (mem : ℕ → UInt8) : (ℕ → UInt8) × UInt32 :=
  let mem := readBytes disk elf base 4096 mem
  let h := elfHeader mem elf
  let mem := loadSegments disk base h.phnum.toNat (elf + h.phoff.toNat) mem
  (mem, (elfHeader mem elf).entry)

/-- `loadUMain`, with the address of `buffer`. -/
def loadUMain (disk : Disk) (buffer : ℕ) (mem : ℕ → UInt8) : (ℕ → UInt8) × UInt32 :=
  loadElf disk USER_OFFSET_IN_DISK buffer mem

/-- `bootMain`. -/
def bootMain (disk : Disk) (mem : ℕ → UInt8) : (ℕ → UInt8) × UInt32 :=
  loadElf disk KERNEL_OFFSET_IN_DISK 0x8000 mem

end OsLab
