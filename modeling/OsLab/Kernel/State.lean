import OsLab.Kernel.Device
import OsLab.Lib.Queues
import Mathlib.Tactic.Simps.Basic

/-!
# The kernel's data: `x86/memory.h`, `x86.h`, and `kernel/list.c`

The globals of the kernel as one record. Three choices are worth knowing.

* A `PCB *` is a `Node`: one of the four list heads, an element of `pcb[]` (any `int` index can be
  formed; only 0 to 9 are objects), or `idle`. The three list pointers are set once, by `initPcb`,
  and never again, so they are constants here.
* The kernel stack and the trap frame of a PCB are words of memory (`kmem`), because the CPU and the
  interrupt stubs write them through the stack pointer and not through the field. A kernel stack
  pointer is a `Ptr`: the PCB it points into and the index of a 32-bit word in it, `stack` first and
  `tf` behind it.
* User memory (`mem`) is bytes at physical addresses. The `sem_t` objects in it are kept apart
  (`sem`, by physical address), because they hold a kernel pointer. That the pointers of the user stay
  away from the kernel's own objects is the assumption `AwayFromKernel` of `Memory/Pointers`, where
  the calls are shown to do the same in one memory that holds these objects too.

`waiting` is the program counter of a process inside `wait_for_keyboard`: the buffer and length of
the read that waits.
-/

namespace OsLab

open OsLab.Lib

/-- The length of `pcb`. -/
abbrev MAX_PCB_NUM : ℕ := 10

/-- The words of a kernel stack. -/
abbrev MAX_STACK_SIZE : ℕ := 4096

/-- The descriptors of a process, the three standard ones included. -/
abbrev MAX_FP_NUM : ℕ := 8

/-- The slots of the system file table. -/
abbrev MAX_SYS_FILE_NUM : ℕ := 512

/-- `max_size`: the bytes of `BUF`. -/
abbrev MAX_SIZE : ℕ := 1024

/-- What a `PCB *` can point to. -/
inductive Node
  | dummy1
  | dummy2
  | dummy3
  | dummysem
  | pcb (i : ℤ)
  | idle
  deriving DecidableEq, Repr

/-- `enum p_state`. -/
inductive PState
  | runnable
  | running
  | blocked
  | semBlocked
  | dead
  deriving DecidableEq, Repr

/-- `struct ProcessControlBlock` without `stack` and `tf`. -/
structure PCB where
  state : PState
  timeCount : ℤ
  sleepTime : ℤ
  pid : ℤ
  ppid : ℤ
  fpNum : ℤ
  filepointer : ℕ → ℤ
  psem : Option ℕ
  next : Option Node

/-- `struct semaphore`. -/
structure Sem where
  value : ℤ
  list : Option Node
  deriving DecidableEq, Repr

/-- `struct sysFile`. -/
structure SysFile where
  inodeIndex : ℤ
  linkNum : ℤ
  offset : ℤ
  deriving DecidableEq, Repr

/-- The words of `struct TrapFrame`, in order. -/
inductive TfField
  | gs | fs | es | ds
  | edi | esi | ebp | xxx | ebx | edx | ecx | eax
  | irq | error
  | eip | cs | eflags | esp | ss
  deriving DecidableEq, Repr

/-- The position of a field in the frame, in words. -/
def TfField.idx : TfField → ℕ
  | gs => 0 | fs => 1 | es => 2 | ds => 3
  | edi => 4 | esi => 5 | ebp => 6 | xxx => 7 | ebx => 8 | edx => 9 | ecx => 10 | eax => 11
  | irq => 12 | error => 13
  | eip => 14 | cs => 15 | eflags => 16 | esp => 17 | ss => 18

/-- `sizeof(struct TrapFrame)` in words. -/
abbrev TF_SIZE : ℕ := 19

/-- A field is in the frame. -/
theorem TfField.idx_lt (f : TfField) : f.idx < TF_SIZE := by cases f <;> decide

/-- Two fields do not share a word. -/
theorem TfField.idx_inj {f g : TfField} : f.idx = g.idx ↔ f = g := by
  cases f <;> cases g <;> decide

/-- Every word of the frame is a field. -/
theorem TfField.exists_idx {i : ℕ} (h : i < TF_SIZE) : ∃ f : TfField, f.idx = i := by
  have hall : ∀ i < 19, i ∈ [gs, fs, es, ds, edi, esi, ebp, xxx, ebx, edx, ecx, eax, irq, error,
      eip, cs, eflags, esp, ss].map TfField.idx := by decide
  obtain ⟨f, -, hf⟩ := List.mem_map.mp (hall i h)
  exact ⟨f, hf⟩

/-- A word in the memory of a PCB. -/
structure Ptr where
  node : Node
  off : ℕ
  deriving DecidableEq, Repr

/-- `&(p->tf)`. -/
def tfPtr (p : Node) : Ptr := ⟨p, MAX_STACK_SIZE⟩

/-- The kernel's globals. -/
structure Kernel where
  pcb : Node → PCB
  kmem : Node → ℕ → UInt32
  current : Node
  pNum : ℤ
  esp0 : Ptr
  currentstacktop : Ptr
  intrNesting : Bool
  waiting : Option (ℕ × ℤ)
  sem : ℕ → Sem
  sysFileTable : ℕ → SysFile
  sysFileNum : ℤ
  key : ℕ → UInt8
  bufIn : ℤ
  bufOut : ℤ
  mem : ℕ → UInt8
  fs : FileSystem
  path : PathBuf
  screen : Screen
  disk : Disk

/-- `runnable_list`, `blocked_list`, `free_list`. -/
abbrev runnableList : Node := .dummy1

/-- The head of the list of blocked processes. -/
abbrev blockedList : Node := .dummy2

/-- The head of the list of free `PCB` objects. -/
abbrev freeList : Node := .dummy3

namespace Kernel

variable (k : Kernel)

/-- `p->next`. -/
def next (p : Node) : Option Node := (k.pcb p).next

/-- A change of one PCB. -/
@[simps] def setPcb (p : Node) (f : PCB → PCB) : Kernel :=
  { k with pcb := Function.update k.pcb p (f (k.pcb p)) }

/-- `p->next = q`. -/
abbrev setNext (p : Node) (q : Option Node) : Kernel := k.setPcb p fun c => { c with next := q }

/-- `p->state = st`. -/
abbrev setState (p : Node) (st : PState) : Kernel := k.setPcb p fun c => { c with state := st }

/-- `p->tf.f`. -/
def tf (p : Node) (f : TfField) : UInt32 := k.kmem p (MAX_STACK_SIZE + f.idx)

/-- A store to a word of a PCB's memory. -/
@[simps] def store (a : Ptr) (w : UInt32) : Kernel :=
  { k with kmem := Function.update k.kmem a.node (Function.update (k.kmem a.node) a.off w) }

/-- A store changes one word of one `PCB`. -/
theorem kmem_store (a : Ptr) (w : UInt32) :
    (k.store a w).kmem = Function.update k.kmem a.node (Function.update (k.kmem a.node) a.off w) :=
  rfl

/-- `p->tf.f = w`. -/
abbrev setTf (p : Node) (f : TfField) (w : UInt32) : Kernel := k.store ⟨p, MAX_STACK_SIZE + f.idx⟩ w

/-- `current->tf.eax = v`. -/
abbrev setEax (v : ℤ) : Kernel := k.setTf k.current .eax (wordOf v)

/-- `sysFileTable[i]`, changed. -/
@[simps] def setFile (i : ℕ) (f : SysFile → SysFile) : Kernel :=
  { k with sysFileTable := Function.update k.sysFileTable i (f (k.sysFileTable i)) }

/-- New `next` fields for all PCBs: what the list functions change. -/
@[simps] def relink (nx : Node → Option Node) : Kernel :=
  { k with pcb := fun p => { k.pcb p with next := nx p } }

/-- New links change the `next` of a node and nothing else in it. -/
theorem relink_pcb (nx : Node → Option Node) (p : Node) :
    (k.relink nx).pcb p = { k.pcb p with next := nx p } := rfl

/-- The links are the new ones. -/
@[simp] theorem next_relink (nx : Node → Option Node) : (k.relink nx).next = nx := rfl

/-- The last links count. -/
@[simp] theorem relink_relink (nx nx' : Node → Option Node) :
    (k.relink nx).relink nx' = k.relink nx' := rfl

/-- The links that are there already. -/
@[simp] theorem relink_next : k.relink k.next = k := rfl

/-- Two kernels that differ in their PCBs only. -/
theorem pcb_ext {f g : Node → PCB} (h : ∀ p, f p = g p) :
    ({ k with pcb := f } : Kernel) = { k with pcb := g } := by
  rw [funext h]

/-- The same, for kernels given in another form. -/
theorem eq_of_pcb {k' : Kernel} (hrest : k' = { k with pcb := k'.pcb })
    (h : ∀ p, k'.pcb p = k.pcb p) : k' = k :=
  hrest.trans (k.pcb_ext h)

/-- An update that gives a node what it has. -/
theorem setPcb_eq_self {p : Node} {f : PCB → PCB} (h : f (k.pcb p) = k.pcb p) :
    k.setPcb p f = k := by
  refine (k.pcb_ext fun q => ?_ : k.setPcb p f = { k with pcb := k.pcb })
  by_cases hq : q = p
  · subst hq; simp [h]
  · simp [hq]

/-- A change of a PCB that is not about `next` can be made before or after relinking. -/
theorem setPcb_relink (nx : Node → Option Node) (p : Node) (f : PCB → PCB)
    (hf : ∀ c v, f { c with next := v } = { f c with next := v }) :
    (k.relink nx).setPcb p f = (k.setPcb p f).relink nx := by
  refine k.pcb_ext fun q => ?_
  by_cases hq : q = p
  · subst hq; simpa [relink_pcb] using hf _ _
  · simp [relink_pcb, hq]

/-- The state of a node and the links are updated independently. -/
theorem setState_relink (nx : Node → Option Node) (p : Node) (st : PState) :
    (k.relink nx).setState p st = (k.setState p st).relink nx :=
  k.setPcb_relink nx p _ fun _ _ => rfl

/-- Setting one `next` is a new set of links. -/
theorem setNext_eq_relink (p : Node) (v : Option Node) :
    k.setNext p v = k.relink (Function.update k.next p v) := by
  refine k.pcb_ext fun q => ?_
  by_cases hq : q = p
  · subst hq; simp
  · simp [hq, next]

end Kernel

/-- The kernels `k` and `k'` differ in the memory of the PCBs only. -/
def OnlyKmem (k k' : Kernel) : Prop := k' = { k with kmem := k'.kmem }

/-- A store is a change of that memory. -/
theorem OnlyKmem.store {k k' : Kernel} (h : OnlyKmem k k') (a : Ptr) (w : UInt32) :
    OnlyKmem k (k'.store a w) := by
  unfold OnlyKmem at h ⊢
  rw [h]
  rfl

/-! ### `list.c`

The walks are those of `OsLab.Lib.Queues`; sixteen steps are more than there are PCBs, so a walk
that takes them goes round a cycle. -/

/-- More steps than there are PCBs. -/
abbrev WALK : ℕ := 16

/-- `list_add`. -/
def listAdd (head data : Node) (k : Kernel) : Except Stop Kernel :=
  match toLast k.next WALK head with
  | none => .error .hang
  | some p => .ok ((k.setNext data (k.next p)).setNext p (some data))

/-- `list_delete`. -/
def listDelete (head data : Node) (k : Kernel) : Except Stop Kernel :=
  match toPred k.next data WALK head with
  | none => .error .hang
  | some p =>
    match k.next p with
    | none => .error .abort
    | some q => .ok (k.setNext p (k.next q))

/-- `list_head`. -/
def listHead (head : Node) (k : Kernel) : Except Stop Node :=
  match k.next head with
  | none => .error .abort
  | some p => .ok p

end OsLab
