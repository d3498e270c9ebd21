import OsLab.Kernel.Step
import OsLab.Lib.Memory

/-!
# Traps: the CPU, the stubs of `doIrq.S`, and `irqHandle`

A `Machine` is the kernel and the CPU: a register file (the words of a trap frame, without `irq`,
`error` and `xxx`, which are not registers), and, for code in ring 0, the kernel stack pointer.

* `enter` is what happens before `irqHandle`. The CPU pushes `ss`, `esp`, `eflags`, `cs` and `eip`
  on the stack that `tss.esp0` points to, or, from ring 0, the last three on the current stack. The
  stub pushes an error code of 0 and the vector, then `pushal` and the segment registers.
* `restore` is what happens after it: the stub pops everything from `currentstacktop`, which
  `irqHandle` has set (`setStackTop`), and `iret` pops `esp` and `ss` if it returns to ring 3.
* A `stdin` read that waits stays inside `irqHandle`, in ring 0 on the reader's kernel stack, with
  interrupts enabled. What the registers are there, and how deep the stack is, is up to the compiler
  (`WaitContext`); the C functions use the stack below the frame they work on.

The addresses of the PCBs are up to the linker (`addr`). They only show in the slot `xxx`, which
`popal` skips.
-/

namespace OsLab

open OsLab.Lib

/-- The values of the registers. -/
abbrev Regs : Type := TfField → UInt32

/-- A code selector of ring 3. -/
def isUser (cs : UInt32) : Bool := cs &&& 3 = 3

/-- The kernel, the registers of the CPU and its stack pointer. -/
structure Machine where
  kernel : Kernel
  regs : Regs
  sp : Ptr

/-- The CPU's registers and stack pointer inside `wait_for_keyboard`. -/
structure WaitContext where
  regs : Regs
  off : ℕ
  ring0 : isUser (regs .cs) = false
  /-- The stack has room for another frame. -/
  fits : 17 ≤ off ∧ off ≤ MAX_STACK_SIZE

/-! ### Into the kernel -/

/-- What the stub pushes, and what the CPU pushes from ring 0, in this order. -/
def kernelPushes : List TfField :=
  [.eflags, .cs, .eip, .error, .irq, .eax, .ecx, .edx, .ebx, .xxx, .ebp, .esi, .edi, .ds, .es, .fs,
    .gs]

/-- The same from ring 3. -/
def userPushes : List TfField := .ss :: .esp :: kernelPushes

/-- `movl $ptr, …`: the address of a word of a PCB. -/
def ptrWord (addr : Node → ℕ) (a : Ptr) : UInt32 := UInt32.ofNat (addr a.node + 4 * a.off)

/-- The word that is pushed for a field; `top` is the stack pointer before the trap. -/
def trapWord (addr : Node → ℕ) (irq : UInt32) (top : Ptr) (regs : Regs) : TfField → UInt32
  | .irq => irq
  | .error => 0
  | .xxx =>
    -- `pushal` pushes the stack pointer it starts from
    ptrWord addr ⟨top.node, top.off - if isUser (regs .cs) then 7 else 5⟩
  | f => regs f

/-- Everything up to the call of `irqHandle`: the frame, and the kernel with the frame in memory. -/
def enter (addr : Node → ℕ) (irq : UInt32) (m : Machine) : Ptr × Kernel :=
  let top := if isUser (m.regs .cs) then m.kernel.esp0 else m.sp
  let fields := if isUser (m.regs .cs) then userPushes else kernelPushes
  let words := fields.map (trapWord addr irq top m.regs)
  (⟨top.node, top.off - words.length⟩,
    { m.kernel with
      kmem := Function.update m.kernel.kmem top.node
        (pushes words top.off (m.kernel.kmem top.node)) })

/-! ### `irqHandle` -/

/-- `GProtectFaultHandle`. -/
def gProtectFaultHandle (tf : Ptr) (k : Kernel) : Except Stop Kernel := do
  assert (tfPtr k.current = tf)
  .error .abort

/-- The `switch` of `irqHandle`; `scanCode` is what the keyboard's port holds. -/
def irqSwitch (scanCode : ℕ) (tf : Ptr) (k : Kernel) : Except Stop Kernel :=
  let irq := k.kmem tf.node (tf.off + TfField.irq.idx)
  if irq = 0xFFFFFFFF then .ok k
  else if irq = 0xd then gProtectFaultHandle tf k
  else if irq = 0x20 then timerHandle tf k
  else if irq = 0x21 then keyboardHandle scanCode k
  else if irq = 0x80 then syscallHandle tf k
  else .error .abort

/-- The last part of `irqHandle`; its assertion is the layout of a PCB, `stack` followed by `tf`. -/
def setStackTop (tf : Ptr) (k : Kernel) : Kernel :=
  { k with currentstacktop := if k.intrNesting then tf else ⟨k.current, MAX_STACK_SIZE⟩ }

/-! ### Back out of it -/

/-- The rest of the stub, from `movl currentstacktop, %esp` to `iret`. -/
def restore (addr : Node → ℕ) (k : Kernel) : Machine :=
  let a := k.currentstacktop
  let word := fun f : TfField => k.kmem a.node (a.off + f.idx)
  let sp : Ptr := ⟨a.node, a.off + 17⟩
  { kernel := k
    regs := fun f =>
      if isUser (word .cs) then word f
      else if f = .esp then ptrWord addr sp
      else if f = .ss then KSEL SEG_KDATA
      else word f
    sp := sp }

/-- `irqHandle` has come to wait for a key. -/
def Machine.waitIn (c : WaitContext) (k : Kernel) : Machine := ⟨k, c.regs, ⟨k.current, c.off⟩⟩

/-! ### The machine -/

/-- What can happen to the machine. -/
inductive TrapEvent
  /-- The process computes: its registers and the memory change. -/
  | user (regs : Regs) (mem : ℕ → UInt8)
  /-- Ring 0 goes round the loop of `kEntry` or of `wait_for_keyboard`. -/
  | spin (eip : UInt32)
  | timer
  | key (scanCode : ℕ)
  | int80 (c : WaitContext)
  /-- A round of `wait_for_keyboard`. -/
  | poll (c : WaitContext)

/-- An interrupt from a device. -/
def interrupt (addr : Node → ℕ) (irq : UInt32) (scanCode : ℕ) (m : Machine) :
    Except Stop Machine := do
  let k ← irqSwitch scanCode (enter addr irq m).1 (enter addr irq m).2
  .ok (restore addr (setStackTop (enter addr irq m).1 k))

/-- One event. -/
def machineStep (addr : Node → ℕ) (m : Machine) : TrapEvent → Except Stop Machine
  | .user regs mem =>
    if isUser (m.regs .cs) ∧ isUser (regs .cs) then
      .ok { m with regs := regs, kernel := { m.kernel with mem := mem } }
    else .error .disabled
  | .spin eip =>
    if isUser (m.regs .cs) then .error .disabled
    else .ok { m with regs := Function.update m.regs .eip eip }
  | .timer => interrupt addr 0x20 0 m
  | .key scanCode => interrupt addr 0x21 scanCode m
  | .int80 c =>
    if isUser (m.regs .cs) then do
      let k ← irqSwitch 0 (enter addr 0x80 m).1 (enter addr 0x80 m).2
      if k.waiting.isSome then .ok (.waitIn c k)
      else .ok (restore addr (setStackTop (enter addr 0x80 m).1 k))
    else .error .disabled
  | .poll c =>
    match m.kernel.waiting with
    | none => .error .disabled
    | some (buf, len) => do
      let k ← pollRead buf len m.kernel
      if k.waiting.isSome then .ok (.waitIn c k)
      else .ok (restore addr (setStackTop (tfPtr k.current) k))

/-- The machine when `kEntry` has enabled interrupts: `idle_esp` is two words below the end of the
frame of `idle`. -/
def Machine.start (k : Kernel) (regs : Regs) : Machine :=
  ⟨k, regs, ⟨.idle, MAX_STACK_SIZE + TF_SIZE - 2⟩⟩

end OsLab
