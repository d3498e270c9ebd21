import OsLab.Kernel.State

/-!
# Processes: `schedule` and the timer of `kernel/irqHandle.c`, `kernel/process.c`, `kernel/sem.c`

`schedule` puts the current process where its state says (`parkCurrent` for the states that give up
the CPU; a running process goes back to the end of `runnable_list`) and takes the head of
`runnable_list`, or `idle`. Its `printk` writes to the serial port only and is left out.

`fork_aux` copies the range of user memory at `0x200000` to the one at `0x400000`, bytes (`mem`)
and semaphores (`sem`, word by word) alike.
-/

namespace OsLab

open OsLab.Lib

/-! ### `irqHandle.c`: the scheduler -/

/-- The loop of `try_to_wakeup` from node `p` on, over at most `n` nodes. -/
def wakeupLoop : ℕ → Option Node → Kernel → Except Stop Kernel
  | _, none, k => .ok k
  | 0, some _, _ => .error .hang
  | n + 1, some p, k =>
    let k := k.setPcb p fun c => { c with sleepTime := i32 (c.sleepTime - 1) }
    -- the successor is read before `p` is relinked
    let q := k.next p
    if (k.pcb p).sleepTime = 0 then do
      let k ← listDelete blockedList p k
      let k := k.setState p .runnable
      let k ← listAdd runnableList p k
      wakeupLoop n q k
    else wakeupLoop n q k

/-- `try_to_wakeup`. -/
def tryToWakeup (k : Kernel) : Except Stop Kernel := wakeupLoop WALK (k.next blockedList) k

/-- `current->psem->list`. -/
def psemList (k : Kernel) : Except Stop Node :=
  match (k.pcb k.current).psem with
  | none => .error (.wild .pointer)
  | some a =>
    match (k.sem a).list with
    | none => .error (.wild .pointer)
    | some head => .ok head

/-- The branches of `schedule` for a process that gives up the CPU: the list its state names. -/
def parkCurrent (k : Kernel) : Except Stop Kernel :=
  match (k.pcb k.current).state with
  | .dead => listAdd freeList k.current k
  | .blocked => listAdd blockedList k.current k
  | .semBlocked => do
    let head ← psemList k
    listAdd head k.current k
  | _ => .ok k

/-- The branches of `schedule` when another process is ready: a running process goes to the end of
`runnable_list`, unless it is `idle`. -/
def leaveCpu (k : Kernel) : Except Stop Kernel :=
  if (k.pcb k.current).state = .running then
    let k := k.setState k.current .runnable
    if k.current ≠ .idle then listAdd runnableList k.current k else .ok k
  else parkCurrent k

/-- The last assignments of `schedule`: `p` gets the CPU. -/
def dispatch (p : Node) (k : Kernel) : Kernel :=
  let k := k.setPcb p fun c => { c with state := .running, timeCount := 10, sleepTime := 0 }
  { k with esp0 := ⟨p, MAX_STACK_SIZE + TF_SIZE⟩, current := p }

/-- `current = &idle`, with `idle` made the running process. -/
def toIdle (k : Kernel) : Kernel :=
  let k := { k with current := .idle }
  k.setPcb .idle fun c => { c with state := .running, timeCount := 10 }

/-- `schedule`. -/
def schedule (k : Kernel) : Except Stop Kernel :=
  if (k.next runnableList).isSome then do
    let k ← leaveCpu k
    let p ← listHead runnableList k
    let k ← listDelete runnableList p k
    .ok (dispatch p k)
  else
    match (k.pcb k.current).state with
    | .running => .ok (k.setPcb k.current fun c => { c with timeCount := 10 })
    | .runnable => .ok k
    | _ => do
      let k ← parkCurrent k
      .ok (toIdle k)

/-- `timerHandle`. -/
def timerHandle (tf : Ptr) (k : Kernel) : Except Stop Kernel :=
  if k.intrNesting then .ok k
  else do
    assert (tfPtr k.current = tf)
    let k := k.setPcb k.current fun c => { c with timeCount := i32 (c.timeCount - 1) }
    let k ← tryToWakeup k
    if (k.pcb k.current).timeCount = 0 then schedule k else .ok k

/-! ### `process.c` -/

/-- Segment selectors: `USEL(desc)` and `KSEL(desc)` of `memory.h`. -/
abbrev USEL (desc : UInt32) : UInt32 := desc <<< 3 ||| 3

/-- The selector of a kernel segment, whose privilege level is 0. -/
abbrev KSEL (desc : UInt32) : UInt32 := desc <<< 3

/-- The kernel's code. -/
abbrev SEG_KCODE : UInt32 := 1

/-- The kernel's data. -/
abbrev SEG_KDATA : UInt32 := 2

/-- The code of the first process. -/
abbrev SEG_UCODE1 : UInt32 := 3

/-- The data of the first process. -/
abbrev SEG_UDATA1 : UInt32 := 4

/-- The code of its children. -/
abbrev SEG_UCODE2 : UInt32 := 5

/-- The data of its children. -/
abbrev SEG_UDATA2 : UInt32 := 6

/-- The video memory. -/
abbrev SEG_KDISPLAY : UInt32 := 8

/-- The base of the segments of the children. -/
abbrev Child_Data_Offst : ℕ := 0x200000

/-- The base that `initSeg` gives the segment of a selector. -/
def segBase (sel : UInt32) : ℕ :=
  if sel >>> 3 = SEG_UCODE2 ∨ sel >>> 3 = SEG_UDATA2 then 0x200000
  else if sel >>> 3 = SEG_KDISPLAY then 0xB8000
  else 0

/-- The ranges of `fork_aux`'s copy: where the first process's image lies, where its copy goes, and
the length of both. -/
abbrev IMAGE_SRC : ℕ := 0x200000

/-- Where the copy begins. -/
abbrev IMAGE_DEST : ℕ := 0x400000

/-- The number of bytes that a fork copies. -/
abbrev IMAGE_SIZE : ℕ := 0x200000

/-- `exit_aux`. -/
def exitAux (k : Kernel) : Except Stop Kernel := do
  let k := { k.setState k.current .dead with pNum := k.pNum - 1 }
  let disk ← writeBack k.fs k.disk
  schedule { k with disk := disk }

/-- The loop of `fork_aux` over the descriptors, for the first `n`. -/
def copyFiles (child : Node) : ℕ → Kernel → Except Stop Kernel
  | 0, k => .ok k
  | i + 1, k => do
    let k ← copyFiles child i k
    let s := (k.pcb k.current).filepointer i
    let k := k.setPcb child fun c => { c with filepointer := Function.update c.filepointer i s }
    if s ≠ -1 then
      if 0 ≤ s ∧ s < MAX_SYS_FILE_NUM then
        .ok (k.setFile s.toNat fun f => { f with linkNum := i32 (f.linkNum + 1) })
      else .error (.wild .sysFileTable)
    else .ok k

/-- The memory copy of `fork_aux`, for the first `n` bytes. -/
def copyBytes (mem : ℕ → UInt8) : ℕ → ℕ → UInt8
  | 0 => mem
  | i + 1 => Function.update (copyBytes mem i) (IMAGE_DEST + i) (copyBytes mem i (IMAGE_SRC + i))

/-- A word at address `a` lies in the range that `fork_aux` overwrites. -/
def inDest (a : ℕ) : Prop := IMAGE_DEST ≤ a ∧ a < IMAGE_DEST + IMAGE_SIZE

/-- Whether an address is in the image of a child can be computed. -/
instance (a : ℕ) : Decidable (inDest a) := inferInstanceAs (Decidable (_ ∧ _))

/-- What the memory copy does to the `sem_t` objects: `value` is the word at their address, `list`
the word behind it. -/
def copySems (sem : ℕ → Sem) (a : ℕ) : Sem where
  value := if inDest a then (sem (a - IMAGE_SIZE)).value else (sem a).value
  list := if inDest (a + 4) then (sem (a - IMAGE_SIZE)).list else (sem a).list

/-- The trap frame that `fork_aux` gives the child. -/
def copyFrame (child : Node) (k : Kernel) : Kernel :=
  let k := k.setTf child .eax 0
  let k := k.setTf child .ebx (k.tf k.current .ebx)
  let k := k.setTf child .ecx (k.tf k.current .ecx)
  let k := k.setTf child .edx (k.tf k.current .edx)
  let k := k.setTf child .ebp (k.tf k.current .ebp)
  let k := k.setTf child .edi (k.tf k.current .edi)
  let k := k.setTf child .esi (k.tf k.current .esi)
  let k := k.setTf child .xxx (k.tf k.current .xxx)
  let k := k.setTf child .irq (k.tf k.current .irq)
  let k := k.setTf child .error (k.tf k.current .error)
  let k := k.setTf child .eip (k.tf k.current .eip)
  let k := k.setTf child .eflags (k.tf k.current .eflags)
  let k := k.setTf child .esp (k.tf k.current .esp)
  let k := k.setTf child .cs (USEL SEG_UCODE2)
  let k := k.setTf child .ds (USEL SEG_UDATA2)
  let k := k.setTf child .es (USEL SEG_UDATA2)
  let k := k.setTf child .gs (KSEL SEG_KDISPLAY)
  let k := k.setTf child .ss (USEL SEG_UDATA2)
  k.setTf child .fs (USEL SEG_UDATA2)

/-- `fork_aux`. -/
def forkAux (k : Kernel) : Except Stop Kernel := do
  let child := Node.pcb k.pNum
  let k ← listDelete freeList child k
  let k := k.setPcb child fun c => { c with fpNum := (k.pcb k.current).fpNum }
  let k ← copyFiles child MAX_FP_NUM k
  let k := k.setPcb child fun c =>
    { c with
      pid := k.pNum
      state := .runnable
      timeCount := 10
      sleepTime := 0
      psem := (k.pcb k.current).psem
      ppid := (k.pcb k.current).pid }
  let k := copyFrame child k
  let k := { k with mem := copyBytes k.mem IMAGE_SIZE, sem := copySems k.sem }
  let k := k.setEax k.pNum
  let k ← listAdd runnableList child k
  .ok { k with pNum := k.pNum + 1 }

/-- `sleep_aux`. -/
def sleepAux (sleepTime : ℤ) (k : Kernel) : Except Stop Kernel :=
  schedule (k.setPcb k.current fun c => { c with state := .blocked, sleepTime := sleepTime })

/-! ### `sem.c` -/

/-- `*sem`, changed. -/
@[simps] def Kernel.setSem (k : Kernel) (a : ℕ) (f : Sem → Sem) : Kernel :=
  { k with sem := Function.update k.sem a (f (k.sem a)) }

/-- `P`. -/
def P (a : ℕ) (k : Kernel) : Except Stop Kernel :=
  let k := k.setSem a fun s => { s with value := i32 (s.value - 1) }
  if (k.sem a).value < 0 then schedule (k.setState k.current .semBlocked) else .ok k

/-- The body of `V`'s `if`: the first waiting process is made runnable. -/
def wakeFirst (a : ℕ) (k : Kernel) : Except Stop Kernel :=
  match (k.sem a).list with
  | none => .error (.wild .pointer)
  | some head => do
    let p ← listHead head k
    let k ← listDelete head p k
    listAdd runnableList p (k.setState p .runnable)

/-- `V`. -/
def V (a : ℕ) (k : Kernel) : Except Stop Kernel := do
  let woken := if (k.sem a).value < 0 then wakeFirst a k else .ok k
  let k ← woken
  .ok (k.setSem a fun s => { s with value := i32 (s.value + 1) })

/-- The semaphore that `sem_init_aux` works on when the current process passes the pointer `a`. -/
def initAddr (a : ℕ) (k : Kernel) : ℕ :=
  if (k.pcb k.current).pid = 2 then (a + Child_Data_Offst) % 2 ^ 32 else a

/-- `sem_init_aux`. -/
def semInitAux (a : ℕ) (value : ℤ) (k : Kernel) : Except Stop Kernel :=
  let a := initAddr a k
  let k := k.setPcb k.current fun c => { c with psem := some a }
  let k := k.setSem a fun s => { s with value := value }
  let k := k.setNext .dummysem none
  let k := k.setSem a fun s => { s with list := some .dummysem }
  .ok (k.setEax 0)

/-- `sem_destroy_aux`. -/
def semDestroyAux (k : Kernel) : Except Stop Kernel :=
  let k := k.setEax 0
  .ok (k.setPcb k.current fun c => { c with psem := none })

/-- `sem_wait_aux`. -/
def semWaitAux (a : ℕ) (k : Kernel) : Except Stop Kernel := P a (k.setEax 0)

/-- `sem_post_aux`. -/
def semPostAux (a : ℕ) (k : Kernel) : Except Stop Kernel := V a (k.setEax 0)

end OsLab
