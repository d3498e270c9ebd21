import OsLab.Kernel.Process

/-!
# Start-up: `initPcb` and `preparePCB` of `kernel/kvm.c`

`Kernel.bss` is the kernel's data before `kEntry`: zero, with the memory, the file system and the
disk as the boot loader left them (`Image`); no word of user memory points to a kernel list yet.
`boot` runs the parts of `kEntry` that touch the modelled data, in their order. The `stack` and `tf`
of every PCB start as zeros.
-/

namespace OsLab

open OsLab.Lib

/-- What is in memory and on the disk when the kernel starts, and the entry point of the user
program. -/
structure Image where
  mem : ℕ → UInt8
  semValue : ℕ → ℤ
  fs : FileSystem
  disk : Disk
  entry : UInt32

/-- A machine with nothing on it but a root directory. -/
def Image.blank : Image where
  mem := fun _ => 0
  semValue := fun _ => 0
  fs := makeRootDir
    { super := ⟨fun _ => 0, 2, 32, 60, 32804, 0, fun _ => 0⟩
      inode := fun _ => ⟨UNUSED, 0, fun _ => 0, fun _ => 0⟩
      tail := fun _ => 0 }
  disk := fun _ _ => 0
  entry := 0x200000

/-- A PCB of zeros. -/
def PCB.zero : PCB where
  state := .runnable
  timeCount := 0
  sleepTime := 0
  pid := 0
  ppid := 0
  fpNum := 0
  filepointer := fun _ => 0
  psem := none
  next := none

/-- The kernel's data before `kEntry`; `initSeg` has set `tss.esp0` from `pcb[0]`. -/
def Kernel.bss (img : Image) : Kernel where
  pcb := fun _ => PCB.zero
  kmem := fun _ _ => 0
  current := .idle
  pNum := 0
  esp0 := ⟨.pcb 0, MAX_STACK_SIZE + TF_SIZE⟩
  currentstacktop := ⟨.pcb 0, 0⟩
  intrNesting := false
  waiting := none
  sem := fun a => ⟨img.semValue a, none⟩
  sysFileTable := fun _ => ⟨0, 0, 0⟩
  sysFileNum := 0
  key := fun _ => 0
  bufIn := 0
  bufOut := 0
  mem := img.mem
  fs := img.fs
  path := ⟨0, fun _ => 0⟩
  screen := ⟨fun _ => 0, 0, 0⟩
  disk := img.disk

/-- The loop of `initPcb` over `pcb[1..n]`. -/
def initPcbLoop : ℕ → Kernel → Except Stop Kernel
  | 0, k => .ok k
  | i + 1, k => do
    let k ← initPcbLoop i k
    let p := Node.pcb (i + 1)
    let k := k.setPcb p fun c =>
      { c with
        pid := -1
        ppid := -1
        state := .dead
        sleepTime := 0
        timeCount := 0
        psem := none
        fpNum := 3
        filepointer := fun j => if j < MAX_FP_NUM then -1 else c.filepointer j }
    listAdd freeList p k

/-- `initPcb`. -/
def initPcb (k : Kernel) : Except Stop Kernel := do
  let k := { k with
    sysFileNum := 0
    sysFileTable := fun i =>
      if i < MAX_SYS_FILE_NUM then { k.sysFileTable i with inodeIndex := -1 }
      else k.sysFileTable i
    intrNesting := false }
  let k := k.setNext .dummy1 none
  let k := k.setNext .dummy2 none
  let k := k.setNext .dummy3 none
  let k := { k with pNum := 1 }
  let k ← initPcbLoop (MAX_PCB_NUM - 1) k
  let k := k.setPcb .idle fun c =>
    { c with pid := 0, state := .running, timeCount := 10, sleepTime := 0, psem := none }
  .ok { k with current := .idle }

/-- `initScreen`. -/
def initScreen (k : Kernel) : Kernel :=
  { k with
    bufIn := 0
    bufOut := 0
    screen :=
      { vm := fun i => if i < 80 * 25 then 0x20 ||| textAttribute else k.screen.vm i
        cursorX := 0
        cursorY := 0 } }

/-- The trap frame that `preparePCB` gives the first process. -/
def startFrame (p : Node) (entry : UInt32) (k : Kernel) : Kernel :=
  let k := k.setTf p .eip entry
  let k := k.setTf p .eflags 0x202
  let k := k.setTf p .esp 0x300000
  let k := k.setTf p .cs (USEL SEG_UCODE1)
  let k := k.setTf p .ds (USEL SEG_UDATA1)
  let k := k.setTf p .es (USEL SEG_UDATA1)
  let k := k.setTf p .ss (USEL SEG_UDATA1)
  let k := k.setTf p .fs (USEL SEG_UDATA1)
  k.setTf p .gs (KSEL SEG_KDISPLAY)

/-- `preparePCB`. -/
def preparePCB (entry : UInt32) (k : Kernel) : Except Stop Kernel := do
  let p := Node.pcb k.pNum
  let k ← listDelete freeList p k
  let k := k.setPcb p fun c =>
    { c with pid := k.pNum, ppid := -1, state := .runnable, timeCount := 10, sleepTime := 0 }
  let k := startFrame p entry k
  let k ← listAdd runnableList p k
  let q ← listHead runnableList k
  assert ((k.pcb q).pid = 1)
  .ok { k with pNum := k.pNum + 1 }

/-- The state in which `kEntry` enables interrupts. -/
def boot (img : Image) : Except Stop Kernel := do
  let k ← initPcb (Kernel.bss img)
  preparePCB img.entry (initScreen k)

end OsLab
