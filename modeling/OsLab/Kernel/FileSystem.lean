import OsLab.Kernel.Base

/-!
# The file system: `x86/fs.h` and `kernel/fs.c`

The in-memory image at `fs_addr` is a superblock followed by 32 inode blocks and some unused bytes.
An inode block holds a type, one word that is `filesz` or `filenum`, a name of 28 bytes and 32 KiB
that are either file data or 1024 directory entries of 32 bytes: the two C unions are kept as
unions here (`Inode.size`, `Inode.block`), so what a recycled inode held before stays visible.

The path walkers use two globals, `path_offset` and `top_dir` (`PathBuf`); they read the file system
and never write it, so they return the globals and leave the `FileSystem` argument alone. Every
directory scan of the source has the shape `for (i = …; cont < filenum; i++)` with `cont` counting
the non-empty slots, and is an instance of `scanDir`. A read of slot 1024 stops the run
(`Access.dirdata`).

`ls` and `testfs` of `fs.c` are called by nothing and left out, as is the `printk` of `makeDir`'s
error branch, which writes to the serial port only.
-/

namespace OsLab

open OsLab.Lib

/-! ### Constants of `fs.h` -/

/-- The number of inodes. -/
abbrev NR_INODE : ℕ := 32

/-- The size of a file's block, in KB. -/
abbrev MAX_FILE_SZ_KB : ℕ := 32

/-- The length of the field for a name, its NUL included. -/
abbrev MAX_FILENAME_LEN : ℕ := 28

/-- `MAX_FILE_SZ_KB * 1024 / 32`: the number of entries of a directory. -/
abbrev NR_DIRDATA : ℕ := 1024

/-- `enum file_type`. -/
abbrev UNUSED : UInt32 := 0

/-- The type of a file. -/
abbrev FL : UInt32 := 1

/-- The type of a directory. -/
abbrev DIR : UInt32 := 2

/-- `enum block_type`. -/
abbrev available : UInt8 := 0

/-- The mark of an inode that is in use. -/
abbrev inuse : UInt8 := 1

/-- The character `/`. -/
abbrev slash : UInt8 := 47

/-- The character `.`. -/
abbrev dot : UInt8 := 46

/-! ### Data -/

/-- `superblock_t`. -/
structure Superblock where
  id : ℕ → UInt8
  fsSzMb : UInt32
  nrNode : UInt32
  superblockSzB : UInt32
  inodeblcokSzB : UInt32
  inuseInodeNum : UInt32
  inodeMap : ℕ → UInt8

/-- `inodeblock_t`; `size` is the union of `filesz` and `filenum`, `block` the union of `datablock`
and `dirdata`. -/
structure Inode where
  type : UInt32
  size : UInt32
  filename : ℕ → UInt8
  block : ℕ → UInt8

namespace Inode

/-- The union read as a file size. -/
def filesz (d : Inode) : UInt32 := d.size

/-- The union read as a directory's number of entries. -/
def filenum (d : Inode) : UInt32 := d.size

/-- `dirdata[i].inode_no`, four bytes in little-endian order. -/
def slotNo (d : Inode) (i : ℕ) : UInt32 :=
  UInt32.ofNat ((d.block (32 * i)).toNat + 256 * (d.block (32 * i + 1)).toNat +
    65536 * (d.block (32 * i + 2)).toNat + 16777216 * (d.block (32 * i + 3)).toNat)

/-- The string in `dirdata[i].filename`. -/
def slotName (d : Inode) (i : ℕ) : Except Stop (List UInt8) :=
  match cstr d.block (32 * i + 4) MAX_FILENAME_LEN with
  | some s => .ok s
  | none => .error (.wild .name)

/-- The string in `filename`. -/
def name (d : Inode) : Except Stop (List UInt8) :=
  match cstr d.filename 0 MAX_FILENAME_LEN with
  | some s => .ok s
  | none => .error (.wild .name)

/-- `dirdata[i].inode_no = no`. -/
def setSlotNo (d : Inode) (i : ℕ) (no : UInt32) : Inode :=
  { d with
    block := fun a =>
      if a = 32 * i then no.toUInt8
      else if a = 32 * i + 1 then (no >>> 8).toUInt8
      else if a = 32 * i + 2 then (no >>> 16).toUInt8
      else if a = 32 * i + 3 then (no >>> 24).toUInt8
      else d.block a }

/-- `strcpy(dirdata[i].filename, s)` for a string that fits. -/
def setSlotName (d : Inode) (i : ℕ) (s : List UInt8) : Inode :=
  { d with block := strcpy d.block (32 * i + 4) s }

/-- `strcpy(filename, s)` for a string that fits. -/
def setName (d : Inode) (s : List UInt8) : Inode :=
  { d with filename := strcpy d.filename 0 s }

end Inode

/-- The two megabytes at `fs_addr`; `tail` are the bytes behind the inode table. -/
structure FileSystem where
  super : Superblock
  inode : ℕ → Inode
  tail : ℕ → UInt8

/-- The globals `path_offset` and `top_dir`. -/
structure PathBuf where
  pathOffset : ℕ
  topDir : ℕ → UInt8

namespace FileSystem

/-- `fs_inodepointer[index]`, read. -/
def inodeAt (fs : FileSystem) (index : ℤ) : Except Stop Inode :=
  if 0 ≤ index ∧ index < NR_INODE then .ok (fs.inode index.toNat) else .error (.wild .inode)

/-- `fs_inodepointer[index]`, changed. -/
def setInode (fs : FileSystem) (index : ℕ) (d : Inode) : FileSystem :=
  { fs with inode := Function.update fs.inode index d }

/-- `fs_superpointer->inode_map[index] = v`. -/
def setMap (fs : FileSystem) (index : ℕ) (v : UInt8) : FileSystem :=
  { fs with super := { fs.super with inodeMap := Function.update fs.super.inodeMap index v } }

/-- `fs_superpointer->inuse_inode_num++`. -/
def incInuse (fs : FileSystem) : FileSystem :=
  { fs with super := { fs.super with inuseInodeNum := fs.super.inuseInodeNum + 1 } }

end FileSystem

/-! ### Cutting paths -/

/-- The loop of `getTopDir` from index `i` on: copy up to and including the first slash. -/
def getTopDirLoop (i : ℕ) (g : PathBuf) : List UInt8 → Except Stop PathBuf
  | [] => .ok g
  | c :: path =>
    if i < MAX_FILENAME_LEN then
      let g := { g with topDir := Function.update g.topDir i c }
      if c = slash then
        if i + 1 < MAX_FILENAME_LEN then
          .ok { pathOffset := i + 1, topDir := Function.update g.topDir (i + 1) 0 }
        else .error (.wild .name)
      else getTopDirLoop (i + 1) g path
    else .error (.wild .name)

/-- `getTopDir`. -/
def getTopDir (path : List UInt8) (g : PathBuf) : Except Stop PathBuf := getTopDirLoop 0 g path

/-- The string in `top_dir`, as `strcpy(dir, top_dir)` reads it into a buffer of the same size. -/
def topDirName (g : PathBuf) : Except Stop (List UInt8) :=
  match cstr g.topDir 0 MAX_FILENAME_LEN with
  | some s => .ok s
  | none => .error (.wild .name)

/-- `lastLevel`: no slash but a last one. -/
def lastLevel (path : List UInt8) : Bool := path.dropLast.count slash = 0

/-- The loop of `getLastLevelName`, downwards over the indices below `n`: one past the last slash
that is not the last character. -/
def lastSlash (abspath : List UInt8) : ℕ → ℕ
  | 0 => 0
  | i + 1 =>
    if i ≠ abspath.length - 1 ∧ abspath[i]? = some slash then i + 1 else lastSlash abspath i

/-- `getLastLevelName`. -/
def getLastLevelName (abspath : List UInt8) : List UInt8 :=
  abspath.drop (lastSlash abspath abspath.length)

/-- `abspath += path_offset`. -/
def advance (abspath : List UInt8) (g : PathBuf) : Except Stop (List UInt8) :=
  if g.pathOffset ≤ abspath.length then .ok (abspath.drop g.pathOffset)
  else .error (.wild .pointer)

/-! ### Looking up -/

/-- `for (i = …; cont < dir.filenum; i++) if (strcmp(dir.dirdata[i].filename, "\0") != 0) { cont++;
body }`, where `body` gets the slot and its name and may break out of the loop. The first argument
is the number of slots left, `1024 - i`. -/
def scanDir {β : Type} (dir : Inode) (body : ℕ → List UInt8 → β → Except Stop (Bool × β)) :
    ℕ → ℕ → ℕ → β → Except Stop β
  | 0, _, cont, acc => if cont < dir.filenum.toNat then .error (.wild .dirdata) else .ok acc
  | n + 1, i, cont, acc =>
    if cont < dir.filenum.toNat then do
      let name ← dir.slotName i
      if strcmp name [] ≠ 0 then do
        let r ← body i name acc
        if r.1 then .ok r.2 else scanDir dir body n (i + 1) (cont + 1) r.2
      else scanDir dir body n (i + 1) cont acc
    else .ok acc

/-- The inner loop of the path walkers: the inode of the first entry of directory `upper` with name
`name` whose inode has type `ty`, or -1. -/
def findEntry (fs : FileSystem) (upper : ℤ) (name : List UInt8) (ty : UInt32) :
    Except Stop ℤ := do
  let dir ← fs.inodeAt upper
  scanDir dir (fun i s index =>
    if strcmp s name = 0 then do
      let d ← fs.inodeAt (dir.slotNo i).toNat
      .ok (if d.type = ty then (true, intOf (dir.slotNo i)) else (false, index))
    else .ok (false, index)) NR_DIRDATA 0 0 (-1)

/-- The outer loop of the path walkers: from directory `upper` down to the last level of `abspath`.
With `strict` a missing directory fails an assertion; without, the walk goes on from index -1. The
first argument bounds the number of levels. -/
def walkDirs (fs : FileSystem) (strict : Bool) :
    ℕ → List UInt8 → ℤ → PathBuf → Except Stop (ℤ × List UInt8 × PathBuf)
  | 0, abspath, upper, g => if lastLevel abspath then .ok (upper, abspath, g) else .error .hang
  | n + 1, abspath, upper, g =>
    if lastLevel abspath then .ok (upper, abspath, g)
    else do
      let g ← getTopDir abspath g
      let dir ← topDirName g
      let abspath ← advance abspath g
      let index ← findEntry fs upper dir DIR
      assert (¬(strict = true ∧ index = -1))
      walkDirs fs strict n abspath index g

/-- What the three walkers do first: cut off the leading piece, then walk from the root. -/
def walkFromRoot (fs : FileSystem) (strict : Bool) (abspath : List UInt8) (g : PathBuf) :
    Except Stop (ℤ × List UInt8 × PathBuf) := do
  let g ← getTopDir abspath g
  let _ ← topDirName g
  let abspath ← advance abspath g
  walkDirs fs strict abspath.length abspath 0 g

/-- `findUpperDirPos`. -/
def findUpperDirPos (fs : FileSystem) (abspath : List UInt8) (g : PathBuf) :
    Except Stop (ℤ × PathBuf) :=
  if strcmp abspath [slash] = 0 then .ok (0, g)
  else do
    let r ← walkFromRoot fs false abspath g
    .ok (r.1, r.2.2)

/-- `findCurrentDirPos`. -/
def findCurrentDirPos (fs : FileSystem) (abspath : List UInt8) (g : PathBuf) :
    Except Stop (ℤ × PathBuf) :=
  if strcmp abspath [slash] = 0 then .ok (0, g)
  else do
    let r ← walkFromRoot fs true abspath g
    let index ← findEntry fs r.1 r.2.1 DIR
    .ok (index, r.2.2)

/-- `findCurrentFLPos`. -/
def findCurrentFLPos (fs : FileSystem) (abspath : List UInt8) (g : PathBuf) :
    Except Stop (ℤ × PathBuf) := do
  let r ← walkFromRoot fs true abspath g
  let index ← findEntry fs r.1 r.2.1 FL
  .ok (index, r.2.2)

/-- `isFLExist`. -/
def isFLExist (fs : FileSystem) (abspath : List UInt8) (g : PathBuf) :
    Except Stop (Bool × PathBuf) := do
  let r ← findCurrentFLPos fs abspath g
  .ok (r.1 ≠ -1, r.2)

/-- `isDIRExist`. -/
def isDIRExist (fs : FileSystem) (abspath : List UInt8) (g : PathBuf) :
    Except Stop (Bool × PathBuf) := do
  let r ← findCurrentDirPos fs abspath g
  .ok (r.1 ≠ -1, r.2)

/-! ### Creating and removing -/

/-- `getAvlInode`. -/
def getAvlInode (fs : FileSystem) : ℤ :=
  firstIndex (fun i => fs.super.inodeMap i = available) NR_INODE 0

/-- The loop of `getAvlDirdata`. -/
def getAvlDirdataLoop (dir : Inode) : ℕ → ℕ → Except Stop ℤ
  | 0, _ => .ok (-1)
  | n + 1, i => do
    let s ← dir.slotName i
    if strcmp s [] = 0 then .ok i else getAvlDirdataLoop dir n (i + 1)

/-- `getAvlDirdata`. -/
def getAvlDirdata (fs : FileSystem) (pIndex : ℤ) : Except Stop ℤ := do
  let dir ← fs.inodeAt pIndex
  getAvlDirdataLoop dir NR_DIRDATA 0

/-- `char lastLevelName[28]; strcpy(lastLevelName, getLastLevelName(abspath))`. -/
def lastLevelName (abspath : List UInt8) : Except Stop (List UInt8) :=
  let s := getLastLevelName abspath
  if s.length + 1 ≤ MAX_FILENAME_LEN then .ok s else .error (.wild .name)

/-- What `makeDir` does to the name next: a slash is appended unless there is one. -/
def withSlash (s : List UInt8) : Except Stop (List UInt8) :=
  match s.getLast? with
  | none => .error (.wild .name)
  | some c =>
    if c ≠ slash then
      if s.length + 2 ≤ MAX_FILENAME_LEN then .ok (s ++ [slash]) else .error (.wild .name)
    else .ok s

/-- The step `makeDir` and `makeFL` share: the first free slot of directory `pIndex` gets the inode
number and the name, and `filenum` is counted up. -/
def addEntry (fs : FileSystem) (pIndex index : ℤ) (name : List UInt8) :
    Except Stop FileSystem := do
  let slot ← getAvlDirdata fs pIndex
  assert (slot ≠ -1)
  let dir ← fs.inodeAt pIndex
  let dir := dir.setSlotNo slot.toNat (wordOf index)
  let dir := dir.setSlotName slot.toNat name
  .ok (fs.setInode pIndex.toNat { dir with size := dir.size + 1 })

/-- `makeDir`. -/
def makeDir (fs : FileSystem) (abspath : List UInt8) (g : PathBuf) :
    Except Stop (FileSystem × PathBuf) := do
  let index := getAvlInode fs
  if index = -1 then .ok (fs, g)
  else do
    let r ← findUpperDirPos fs abspath g
    if r.1 = -1 then .ok (fs, r.2)
    else do
      let fs := fs.incInuse
      let s ← lastLevelName abspath
      let s ← withSlash s
      let fs ← addEntry fs r.1 index s
      let d ← fs.inodeAt index
      let d := { d with type := DIR }
      let d := d.setName s
      let d := (d.setSlotNo 0 (wordOf index)).setSlotName 0 [dot]
      let d := (d.setSlotNo 1 (wordOf r.1)).setSlotName 1 [dot, dot]
      let d := { d with size := 2 }
      .ok (((fs.setInode index.toNat d).incInuse).setMap index.toNat inuse, r.2)

/-- `makeFL`; `data` is the string that `data` points to, if any. -/
def makeFL (fs : FileSystem) (abspath : List UInt8) (data : Option (List UInt8)) (g : PathBuf) :
    Except Stop (FileSystem × PathBuf) := do
  let index := getAvlInode fs
  assert (index ≠ -1)
  let r ← findUpperDirPos fs abspath g
  assert (r.1 ≠ -1)
  let fs := fs.incInuse
  let s ← lastLevelName abspath
  let fs ← addEntry fs r.1 index s
  let d ← fs.inodeAt index
  let d := { d with type := FL }
  let d := d.setName s
  let d ←
    match data with
    | none => .ok d
    | some s =>
      if s.length + 1 ≤ MAX_FILE_SZ_KB * 1024 then
        .ok { d with size := wordOf s.length, block := strcpy d.block 0 s }
      else .error (.wild .datablock)
  .ok (((fs.setInode index.toNat d).incInuse).setMap index.toNat inuse, r.2)

/-- The loop of `rmFL` over the entries of directory `pIndex`: the first slot whose name is the name
stored in inode `index`. -/
def findSlot (fs : FileSystem) (pIndex index : ℤ) : Except Stop (Option ℕ) := do
  let dir ← fs.inodeAt pIndex
  scanDir dir (fun i s slot => do
    let d ← fs.inodeAt index
    let filename ← d.name
    .ok (if strcmp filename s = 0 then (true, some i) else (false, slot))) NR_DIRDATA 0 0 none

/-- `rmFL`. -/
def rmFL (fs : FileSystem) (abspath : List UInt8) (g : PathBuf) :
    Except Stop (FileSystem × PathBuf) := do
  let r ← findCurrentFLPos fs abspath g
  let p ← findUpperDirPos fs abspath r.2
  let slot ← findSlot fs p.1 r.1
  let fs ←
    match slot with
    | none => .ok fs
    | some i => do
      let dir ← fs.inodeAt p.1
      .ok (fs.setInode p.1.toNat ((dir.setSlotNo i 0).setSlotName i []))
  -- `inode_map[index] = 0`, which for a file that was not found is an index of -1
  if 0 ≤ r.1 ∧ r.1 < NR_INODE then .ok (fs.setMap r.1.toNat available, p.2)
  else .error (.wild .inode)

/-- `makeRootDir`. -/
def makeRootDir (fs : FileSystem) : FileSystem :=
  let d := { fs.inode 0 with type := DIR }
  let d := { d.setName [slash] with size := 2 }
  let d := (d.setSlotNo 0 0).setSlotName 0 [dot]
  let d := (d.setSlotNo 1 0).setSlotName 1 [dot, dot]
  ((fs.setInode 0 d).incInuse).setMap 0 inuse

/-! ### Reading and writing file data -/

/-- The loop of `writeF`: `datablock[i + offset] = buf[i]` for the next `n` values of `i`. -/
def writeLoop (buf : ℕ → UInt8) (offset : ℤ) : ℕ → ℕ → (ℕ → UInt8) → Except Stop (ℕ → UInt8)
  | 0, _, block => .ok block
  | n + 1, i, block =>
    let a := i32 (i + offset)
    if 0 ≤ a ∧ a < MAX_FILE_SZ_KB * 1024 then
      writeLoop buf offset n (i + 1) (Function.update block a.toNat (buf i))
    else .error (.wild .datablock)

/-- `writeF`: the new file system and the number of bytes written. The comparison of `filesz` with
`offset + len` is unsigned. -/
def writeF (fs : FileSystem) (index : ℤ) (buf : ℕ → UInt8) (len offset : ℤ) :
    Except Stop (FileSystem × ℤ) := do
  assert (i32 (len + offset) < MAX_FILE_SZ_KB * 1024)
  let d ← fs.inodeAt index
  let block ← writeLoop buf offset len.toNat 0 d.block
  let e := wordOf (offset + len)
  let d := { d with block := block, size := if d.filesz > e then d.filesz else e }
  .ok (fs.setInode index.toNat d, len.toNat)

/-- The loop of `readF`, over at most `n` further values of `i`: the bytes read. The comparison of
`i + offset` with `filesz` is unsigned. -/
def readLoop (d : Inode) (offset : ℤ) : ℕ → ℕ → Except Stop (List UInt8)
  | 0, _ => .ok []
  | n + 1, i =>
    if wordOf (i + offset) < d.filesz then do
      let a := i32 (i + offset)
      if 0 ≤ a ∧ a < MAX_FILE_SZ_KB * 1024 then do
        let rest ← readLoop d offset n (i + 1)
        .ok (d.block a.toNat :: rest)
      else .error (.wild .datablock)
    else .ok []

/-- `readF`: the bytes stored to the caller's buffer; the source returns their number. -/
def readF (fs : FileSystem) (index len offset : ℤ) : Except Stop (List UInt8) := do
  let d ← fs.inodeAt index
  readLoop d offset len.toNat 0

end OsLab
