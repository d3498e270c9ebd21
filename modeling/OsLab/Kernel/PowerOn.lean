import OsLab.Kernel.Boot
import OsLab.Kernel.Loader
import OsLab.Kernel.Step

/-!
# Switching the machine on: `loadFS`, `initFS` and `loadUMain` in `kernel/main.c`

`kEntry` fills the memory from the disk: first the two megabytes of the file system, to which `initFS`
points a `superblock_t *` and an `inodeblock_t *`, then the application. What was in memory before is
arbitrary. Where the linker puts the kernel's `buffer` is a parameter.

A machine that is switched off loses everything but its disk. It can be switched off between any two
events, and one that has stopped is switched on again as it was before its last event.

`initFS` also fills the global `fs_superblock`, which nothing reads; `initSerial`, `initIdt`,
`initIntr` and `initTimer` touch none of the data.
-/

namespace OsLab

open OsLab.Lib

/-! ### `initFS` -/

/-- `*(superblock_t *)fs_addr`. -/
def Superblock.ofBytes (m : ℕ → UInt8) : Superblock where
  id := m
  fsSzMb := wordAt m 8
  nrNode := wordAt m 12
  superblockSzB := wordAt m 16
  inodeblcokSzB := wordAt m 20
  inuseInodeNum := wordAt m 24
  inodeMap i := m (28 + i)

/-- `*(inodeblock_t *)a`. -/
def Inode.ofBytes (m : ℕ → UInt8) (a : ℕ) : Inode where
  type := wordAt m a
  size := wordAt m (a + 4)
  filename i := m (a + 8 + i)
  block i := m (a + 36 + i)

/-- `initFS`: the file system in the bytes at `fs_addr`. -/
def FileSystem.ofBytes (m : ℕ → UInt8) : FileSystem where
  super := .ofBytes m
  inode i := .ofBytes m (60 + 32804 * i)
  tail i := m (60 + 32804 * NR_INODE + i)

/-! ### `kEntry` -/

/-- What `kEntry` has loaded when it comes to `preparePCB`. -/
def Image.load (disk : Disk) (buffer : ℕ) (mem : ℕ → UInt8) : Image :=
  let r := loadUMain disk buffer (loadFS disk mem)
  { mem := r.1
    semValue := fun a => intOf (wordAt r.1 a)
    fs := .ofBytes fun o => r.1 (FS_OFFSET_IN_MEM + o)
    disk
    entry := r.2 }

/-- `kEntry`, up to where it enables interrupts. -/
def powerOn (disk : Disk) (buffer : ℕ) (mem : ℕ → UInt8) : Except Stop Kernel :=
  boot (.load disk buffer mem)

/-- An event, or the machine is switched off and on, with `mem` in memory then. -/
inductive PowerEvent
  | event (e : Event)
  | power (mem : ℕ → UInt8)

/-- The step of the machine. -/
def powerStep (buffer : ℕ) (k : Kernel) : PowerEvent → Except Stop Kernel
  | .event e => step k e
  | .power mem => powerOn k.disk buffer mem

end OsLab
