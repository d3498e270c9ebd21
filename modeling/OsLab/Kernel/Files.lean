import OsLab.Kernel.Process

/-!
# System calls on files, and the keyboard: `kernel/irqHandle.c`

A user buffer is an address; the kernel reads and writes it as the handlers compute it, by adding
`Child_Data_Offst` for the process with pid 2 in `read_aux` and `write_aux` and not at all
elsewhere. Addresses wrap at 32 bits.

A read of `stdin` that finds too few characters stays in `wait_for_keyboard`: `pollRead` is one
round of that loop together with what `read_aux` does once it ends.
-/

namespace OsLab

open OsLab.Lib

/-! ### User memory -/

/-- The string at address `a`, looked for in `n` bytes. -/
def cstringLoop (mem : ℕ → UInt8) : ℕ → ℕ → Option (List UInt8)
  | 0, _ => none
  | n + 1, a =>
    if mem a = 0 then some [] else (cstringLoop mem n ((a + 1) % 2 ^ 32)).map (mem a :: ·)

/-- The string at address `a`; memory without a NUL has no end for the loop. -/
def cstring (k : Kernel) (a : ℕ) : Except Stop (List UInt8) :=
  match cstringLoop k.mem (2 ^ 32) a with
  | some s => .ok s
  | none => .error .hang

/-- The bytes `bs` stored at address `a`. -/
def storeBytes (mem : ℕ → UInt8) (a : ℕ) : List UInt8 → ℕ → UInt8
  | [] => mem
  | b :: bs => storeBytes (Function.update mem a b) ((a + 1) % 2 ^ 32) bs

/-- The buffer `buf` as `read_aux` and `write_aux` translate it. -/
def userBuf (buf : ℕ) (k : Kernel) : ℕ :=
  if (k.pcb k.current).pid = 2 then (buf + Child_Data_Offst) % 2 ^ 32 else buf

/-- The byte `buf[i]`. -/
def bufByte (k : Kernel) (buf i : ℕ) : UInt8 := k.mem ((buf + i) % 2 ^ 32)

/-! ### The file tables -/

/-- The descriptor of the keyboard. -/
abbrev stdin : ℤ := 0

/-- The descriptor of the screen. -/
abbrev stdout : ℤ := 1

/-- `getAvlFilepointer`. -/
def getAvlFilepointer (k : Kernel) : ℤ :=
  firstIndex (fun i => (k.pcb k.current).filepointer i = -1) (MAX_FP_NUM - 3) 3

/-- `getAvlSystemFile`. -/
def getAvlSystemFile (k : Kernel) : ℤ :=
  firstIndex (fun i => (k.sysFileTable i).inodeIndex = -1) MAX_SYS_FILE_NUM 0

/-- `current->filepointer[fd]`, as an index into `sysFileTable`. -/
def slotOf (fd : ℤ) (k : Kernel) : Except Stop ℕ :=
  if 0 ≤ fd ∧ fd < MAX_FP_NUM then
    let s := (k.pcb k.current).filepointer fd.toNat
    if 0 ≤ s ∧ s < MAX_SYS_FILE_NUM then .ok s.toNat else .error (.wild .sysFileTable)
  else .error (.wild .filepointer)

/-- `current->filepointer[i] = s`. -/
abbrev Kernel.setFilepointer (k : Kernel) (i : ℕ) (s : ℤ) : Kernel :=
  k.setPcb k.current fun c => { c with filepointer := Function.update c.filepointer i s }

/-- The first half of `open_aux`: the file is created if it does not exist, and looked up. -/
def openLookup (path : List UInt8) (k : Kernel) : Except Stop (ℤ × Kernel) := do
  let e ← isFLExist k.fs path k.path
  let made := if e.1 then .ok (k.fs, e.2) else makeFL k.fs path none e.2
  let r ← made
  let i ← findCurrentFLPos r.1 path r.2
  .ok (i.1, { k with fs := r.1, path := i.2 })

/-- The second half of `open_aux`: a free slot and a free descriptor for inode `index`. -/
def openSlot (index : ℤ) (k : Kernel) : Except Stop Kernel := do
  let s := getAvlSystemFile k
  let fp := getAvlFilepointer k
  assert (¬(s = -1 ∨ fp = -1))
  let k := k.setFile s.toNat fun _ => { inodeIndex := index, linkNum := 1, offset := 0 }
  let k := k.setFilepointer fp.toNat s
  let k := k.setEax fp
  let k := { k with sysFileNum := k.sysFileNum + 1 }
  .ok (k.setPcb k.current fun c => { c with fpNum := c.fpNum + 1 })

/-- `open_aux`; `flags` is not looked at. -/
def openAux (path : ℕ) (k : Kernel) : Except Stop Kernel := do
  let path ← cstring k path
  let r ← openLookup path k
  openSlot r.1 r.2

/-- `close_aux`. -/
def closeAux (fd : ℤ) (k : Kernel) : Except Stop Kernel := do
  let s ← slotOf fd k
  let k := k.setFile s fun f => { f with linkNum := i32 (f.linkNum - 1) }
  let k :=
    if (k.sysFileTable s).linkNum = 0 then
      { k.setFile s fun f => { f with inodeIndex := -1, offset := 0 } with
        sysFileNum := k.sysFileNum - 1 }
    else k
  let k := k.setFilepointer fd.toNat (-1)
  let k := k.setPcb k.current fun c => { c with fpNum := c.fpNum - 1 }
  .ok (k.setEax 0)

/-- `remove_aux`. -/
def removeAux (path : ℕ) (k : Kernel) : Except Stop Kernel := do
  let path ← cstring k path
  let r ← rmFL k.fs path k.path
  .ok ({ k with fs := r.1, path := r.2 }.setEax 0)

/-- The loop of `write_aux` that prints `buf[i]` for the next `n` values of `i`. -/
def writeScreen (k : Kernel) (buf : ℕ) : ℕ → ℕ → Screen → Except Stop Screen
  | 0, _, s => .ok s
  | n + 1, i, s => do
    let s ← screenPut (bufByte k buf i) s
    writeScreen k buf n (i + 1) s

/-- `write_aux`. -/
def writeAux (fd : ℤ) (buf : ℕ) (len : ℤ) (k : Kernel) : Except Stop Kernel :=
  let buf := userBuf buf k
  if fd = stdout then do
    let s ← writeScreen k buf len.toNat 0 k.screen
    .ok { k with screen := s }
  else do
    let s ← slotOf fd k
    let f := k.sysFileTable s
    let r ← writeF k.fs f.inodeIndex (bufByte k buf) len f.offset
    let k := { k with fs := r.1 }.setEax r.2
    .ok (k.setFile s fun f => { f with offset := i32 (f.offset + len) })

/-- The part of `read_aux` for a file. -/
def readFile (fd : ℤ) (buf : ℕ) (len : ℤ) (k : Kernel) : Except Stop Kernel := do
  let s ← slotOf fd k
  let f := k.sysFileTable s
  let bytes ← readF k.fs f.inodeIndex len f.offset
  let d ← k.fs.inodeAt f.inodeIndex
  let k := { k with mem := storeBytes k.mem buf bytes }.setEax bytes.length
  let filesz := intOf d.filesz
  .ok (k.setFile s fun f =>
    { f with offset := if i32 (f.offset + len) > filesz then filesz else i32 (f.offset + len) })

/-! ### The keyboard -/

/-- The loop of `read_aux` that copies `BUF[i + buf_out]` for the next `n` values of `i`. -/
def readKeys (k : Kernel) : ℕ → ℕ → Except Stop (List UInt8)
  | 0, _ => .ok []
  | n + 1, i => do
    let a := i32 (i + k.bufOut)
    if 0 ≤ a ∧ a < MAX_SIZE then do
      let rest ← readKeys k n (i + 1)
      .ok (k.key a.toNat :: rest)
    else .error (.wild .keyBuffer)

/-- One round of `wait_for_keyboard(len - 1)`, and the rest of `read_aux` when the loop ends. -/
def pollRead (buf : ℕ) (len : ℤ) (k : Kernel) : Except Stop Kernel :=
  if i32 (k.bufOut + i32 (len - 1)) ≥ k.bufIn then
    .ok { k with intrNesting := true, waiting := some (buf, len) }
  else do
    let k := { k with intrNesting := false, waiting := none }
    let keys ← readKeys k len.toNat 0
    .ok { k with mem := storeBytes k.mem buf keys, bufOut := i32 (k.bufOut + len) }

/-- `read_aux`. -/
def readAux (fd : ℤ) (buf : ℕ) (len : ℤ) (k : Kernel) : Except Stop Kernel :=
  let buf := userBuf buf k
  if fd = stdin then pollRead buf len k else readFile fd buf len k

/-- `keyboardHandle` for a scan code. -/
def keyboardHandle (scanCode : ℕ) (k : Kernel) : Except Stop Kernel :=
  let ch := pressKey scanCode
  if ch ≠ 0 then do
    let s ← screenPut ch k.screen
    if 0 ≤ k.bufIn ∧ k.bufIn < MAX_SIZE then
      .ok { k with
        screen := s
        key := Function.update k.key k.bufIn.toNat ch
        bufIn := k.bufIn + 1 }
    else .error (.wild .keyBuffer)
  else .ok k

/-! ### Positions and listings -/

/-- `lseek_aux`. -/
def lseekAux (fd offset whence : ℤ) (k : Kernel) : Except Stop Kernel :=
  if whence = 0 then do
    let s ← slotOf fd k
    .ok (k.setFile s fun f => { f with offset := offset })
  else if whence = 1 then do
    let s ← slotOf fd k
    .ok (k.setFile s fun f => { f with offset := i32 (f.offset + offset) })
  else if whence = 2 then do
    let s ← slotOf fd k
    let d ← k.fs.inodeAt (k.sysFileTable s).inodeIndex
    .ok (k.setFile s fun f => { f with offset := i32 (offset + d.filesz.toNat) })
  else .error .abort

/-- `ls_aux`. -/
def lsAux (path : ℕ) (k : Kernel) : Except Stop Kernel := do
  let path ← cstring k path
  let r ← findCurrentDirPos k.fs path k.path
  let dir ← k.fs.inodeAt r.1
  let s ← scanDir dir (fun _ name s => do
    let s ← printQ [37, 115, 9] (fun _ => ⟨0, name⟩) s
    .ok (false, s)) (NR_DIRDATA - 2) 2 2 k.screen
  let s ← printQ [10] (fun _ => ⟨0, []⟩) s
  .ok { k with path := r.2, screen := s }

/-- The loop of `cat_aux` for the next `n` values of `i`. -/
def catLoop (d : Inode) : ℕ → ℕ → Screen → Except Stop Screen
  | 0, _, s => .ok s
  | n + 1, i, s =>
    if i < MAX_FILE_SZ_KB * 1024 then do
      let s ← printQ [37, 99] (fun _ => ⟨(d.block i).toUInt32, []⟩) s
      catLoop d n (i + 1) s
    else .error (.wild .datablock)

/-- `cat_aux`. -/
def catAux (path : ℕ) (k : Kernel) : Except Stop Kernel := do
  let path ← cstring k path
  let r ← findCurrentFLPos k.fs path k.path
  let d ← k.fs.inodeAt r.1
  let s ← catLoop d d.filesz.toNat 0 k.screen
  let s ← printQ [10] (fun _ => ⟨0, []⟩) s
  .ok { k with path := r.2, screen := s }

end OsLab
