import OsLab.Memory.Segments
import OsLab.Traps.Restoration

/-!
# Interrupt gates: `idt.c`, `i8259.c`, the entries of `doIrq.S`

* `initIdt` is the table of gates, `Stub` the entries of `doIrq.S`. `gate_reads`: the CPU finds every
  entry at the address that the linker has given to it.
* `deliver` is an interrupt, an `int` instruction or an exception, through its gate: the words that CPU
  and entry push, `irqHandle`, and the way back. Entries for which the CPU pushes an error code push
  none themselves, but `irqGProtectFault` does.
* `deliver_asTrap`, `deliver_closed`, `Kept.empty`: what comes of it. Timer, keyboard and `int $0x80`
  are the traps of `machineStep`, and a process may raise the first two itself; exceptions and all
  other `int`s stop the machine; `irqEmpty` changes nothing (`Untouched`).
* `every_vector`: so the whole machine, with all 256 vectors, keeps its discipline in every run.
* `unmasked_entry`: `irqEmpty` is behind a trap gate, so until its `cli` a timer interrupt may come in,
  and that one stops the machine.
-/

namespace OsLab

open OsLab.Lib

/-! ### Gates -/

/-- The entries of `doIrq.S`. -/
inductive Stub
  | irqEmpty
  | irqGProtectFault
  | irqSyscall
  | irq0
  | irq1
  | vec (i : Fin 15)
  deriving DecidableEq

/-- The stubs of `doIrq.S`. -/
def Stub.all : List Stub :=
  [.irqEmpty, .irqGProtectFault, .irqSyscall, .irq0, .irq1] ++ (List.finRange 15).map .vec

/-- These are all. -/
theorem Stub.mem_all (e : Stub) : e ∈ all := by
  cases e with
  | vec i => exact List.mem_append_right _ (List.mem_map_of_mem (List.mem_finRange i))
  | _ => decide

/-- `struct GateDescriptor`. -/
structure GateDescriptor where
  offset_15_0 : ℕ
  segment : ℕ
  pad0 : ℕ
  type : ℕ
  system : ℕ
  privilege_level : ℕ
  present : ℕ
  offset_31_16 : ℕ

/-- The bit fields in memory, lowest first. -/
def GateDescriptor.fields (d : GateDescriptor) : List (ℕ × ℕ) :=
  [(16, d.offset_15_0), (16, d.segment), (8, d.pad0), (4, d.type), (1, d.system), (2, d.privilege_level),
    (1, d.present), (16, d.offset_31_16)]

/-- The eight bytes of a gate. -/
def GateDescriptor.quad (d : GateDescriptor) : ℕ := pack d.fields

/-- The type of an interrupt gate. -/
abbrev INTERRUPT_GATE_32 : ℕ := 0xE

/-- The type of a trap gate. -/
abbrev TRAP_GATE_32 : ℕ := 0xF

/-- `setIntr` and `setTrap` differ in the type. -/
def setGate (type : ℕ) (selector offset : UInt32) (dpl : ℕ) : GateDescriptor where
  offset_15_0 := (offset &&& 0xffff).toNat
  segment := (selector <<< 3).toNat
  pad0 := 0
  type := type
  system := 0
  privilege_level := dpl
  present := 1
  offset_31_16 := ((offset >>> 16) &&& 0xffff).toNat

/-- `setIntr`: an interrupt gate. -/
def setIntr : UInt32 → UInt32 → ℕ → GateDescriptor := setGate INTERRUPT_GATE_32

/-- `setTrap`: a trap gate. -/
def setTrap : UInt32 → UInt32 → ℕ → GateDescriptor := setGate TRAP_GATE_32

/-- `initIdt`: what is in entry `v` in the end. A later assignment replaces an earlier one, so `vec13`
is never used. The linker has put the entries of `doIrq.S` at `sym`. -/
def initIdt (sym : Stub → UInt32) (v : ℕ) : GateDescriptor :=
  if v = 0x21 then setIntr SEG_KCODE (sym .irq1) DPL_USER
  else if v = 0x20 then setIntr SEG_KCODE (sym .irq0) DPL_USER
  else if v = 0x80 then setIntr SEG_KCODE (sym .irqSyscall) DPL_USER
  else if v = 0xd then setIntr SEG_KCODE (sym .irqGProtectFault) DPL_KERN
  else if h : v < 15 then setIntr SEG_KCODE (sym (.vec ⟨v, h⟩)) DPL_KERN
  else setTrap SEG_KCODE (sym .irqEmpty) DPL_KERN

/-- The entry behind a vector. -/
def stubOf (v : ℕ) : Stub :=
  if v = 0x21 then .irq1
  else if v = 0x20 then .irq0
  else if v = 0x80 then .irqSyscall
  else if v = 0xd then .irqGProtectFault
  else if h : v < 15 then .vec ⟨v, h⟩
  else .irqEmpty

/-- The vectors that a process may raise with `int`. -/
def forUsers (v : ℕ) : Prop := v = 0x20 ∨ v = 0x21 ∨ v = 0x80

/-- Whether a gate is open to the processes can be computed. -/
instance (v : ℕ) : Decidable (forUsers v) := inferInstanceAs (Decidable (_ ∨ _))

/-! ### What the CPU reads -/

/-- Where the gate leads. -/
def gateOffset (q : ℕ) : UInt32 := UInt32.ofNat (field q 0 16 + 2 ^ 16 * field q 48 16)

/-- The code segment behind it. -/
def gateSegment (q : ℕ) : UInt32 := UInt32.ofNat (field q 16 16)

/-- The privilege that an `int` takes. -/
def gateDpl (q : ℕ) : ℕ := field q 45 2

/-- It leaves interrupts enabled. -/
def gateUnmasked (q : ℕ) : Prop := field q 40 4 = TRAP_GATE_32

/-- The CPU finds in a gate what `setIntr` and `setTrap` put there. -/
theorem setGate_reads (type : ℕ) (selector offset : UInt32) (dpl : ℕ) :
    gateOffset (setGate type selector offset dpl).quad = offset ∧
      gateSegment (setGate type selector offset dpl).quad = UInt32.ofNat ((selector <<< 3).toNat % 2 ^ 16) ∧
      gateDpl (setGate type selector offset dpl).quad = dpl % 4 := by
  set d := setGate type selector offset dpl
  have h0 : field d.quad 0 16 = (offset &&& 0xffff).toNat % 2 ^ 16 := field_pack d.fields 0 rfl
  have h7 : field d.quad 48 16 = ((offset >>> 16) &&& 0xffff).toNat % 2 ^ 16 :=
    field_pack d.fields 7 rfl
  refine ⟨?_, congrArg UInt32.ofNat (field_pack d.fields 1 rfl), field_pack d.fields 5 rfl⟩
  have h16 : (offset >>> 16).toNat = offset.toNat / 2 ^ 16 := toNat_shr offset (n := 16) (by decide)
  have hlt := offset.toNat_lt
  have hsum : field d.quad 0 16 + 2 ^ 16 * field d.quad 48 16 = offset.toNat := by
    rw [h0, h7, toNat_low16, toNat_low16, h16]
    omega
  rw [gateOffset, hsum]
  exact UInt32.ofNat_toNat

/-- And its type. -/
theorem setGate_type (type : ℕ) (selector offset : UInt32) (dpl : ℕ) :
    field (setGate type selector offset dpl).quad 40 4 = type % 2 ^ 4 :=
  field_pack (setGate type selector offset dpl).fields 3 rfl

/-- The table, one rule for all vectors. -/
theorem initIdt_eq (sym : Stub → UInt32) (v : ℕ) :
    initIdt sym v = setGate (if stubOf v = .irqEmpty then TRAP_GATE_32 else INTERRUPT_GATE_32)
      SEG_KCODE (sym (stubOf v)) (if forUsers v then DPL_USER else DPL_KERN) := by
  unfold initIdt stubOf forUsers
  by_cases h21 : v = 0x21
  · simp [h21, setIntr]
  by_cases h20 : v = 0x20
  · simp [h20, setIntr]
  by_cases h80 : v = 0x80
  · simp [h80, setIntr]
  by_cases hd : v = 0xd
  · simp [hd, setIntr]
  by_cases h15 : v < 15
  · simp [h21, h20, h80, hd, h15, setIntr]
  · simp [h21, h20, h80, hd, h15, setTrap]

/-- **Every gate leads to its entry**, in the kernel's code segment; only those that lead to `irqEmpty`
leave interrupts enabled. -/
theorem gate_reads (sym : Stub → UInt32) (v : ℕ) :
    gateOffset (initIdt sym v).quad = sym (stubOf v) ∧
      gateSegment (initIdt sym v).quad = KSEL SEG_KCODE ∧
      gateDpl (initIdt sym v).quad = (if forUsers v then DPL_USER else DPL_KERN) ∧
      (gateUnmasked (initIdt sym v).quad ↔ stubOf v = .irqEmpty) := by
  rw [initIdt_eq]
  obtain ⟨hoff, hseg, hdpl⟩ := setGate_reads
    (if stubOf v = .irqEmpty then TRAP_GATE_32 else INTERRUPT_GATE_32) SEG_KCODE (sym (stubOf v))
    (if forUsers v then DPL_USER else DPL_KERN)
  refine ⟨hoff, hseg, ?_, ?_⟩
  · rw [hdpl]
    split_ifs <;> rfl
  · rw [gateUnmasked, setGate_type]
    split_ifs with h
    · exact ⟨fun _ => h, fun _ => rfl⟩
    · exact ⟨fun ht => absurd ht (by decide), fun hx => absurd hx h⟩

/-! ### Through a gate -/

/-- The error code that an entry pushes. -/
def Stub.code : Stub → List UInt32
  | .vec i => if i = 8 ∨ 10 ≤ i then [] else [0]
  | _ => [0]

/-- The vector that it pushes. -/
def Stub.irq : Stub → UInt32
  | .irqEmpty => 0xFFFFFFFF
  | .irqGProtectFault => 0xd
  | .irqSyscall => 0x80
  | .irq0 => 0x20
  | .irq1 => 0x21
  | .vec i => UInt32.ofNat i

/-- What the CPU pushes before an error code. -/
def cpuPushes (cs : UInt32) : List TfField :=
  if isUser cs then [.ss, .esp, .eflags, .cs, .eip] else [.eflags, .cs, .eip]

/-- The registers that `asmDoIrq` pushes; the fifth is the stack pointer before `pushal`. -/
def asmPushes : List TfField := [.eax, .ecx, .edx, .ebx, .xxx, .ebp, .esi, .edi, .ds, .es, .fs, .gs]

/-- All that is pushed until the call of `irqHandle`, with the error codes `codes`. -/
def trapWords (addr : Node → ℕ) (codes : List UInt32) (irq : UInt32) (m : Machine) : List UInt32 :=
  let cpu := (cpuPushes (m.regs .cs)).map m.regs ++ codes ++ [irq]
  let esp := ptrWord addr ⟨(trapTop m).node, (trapTop m).off - cpu.length⟩
  cpu ++ asmPushes.map fun f => if f = .xxx then esp else m.regs f

/-- The frame for `irqHandle`, and the kernel with it in memory. -/
def enterAt (addr : Node → ℕ) (codes : List UInt32) (irq : UInt32) (m : Machine) : Ptr × Kernel :=
  let words := trapWords addr codes irq m
  (⟨(trapTop m).node, (trapTop m).off - words.length⟩,
    { m.kernel with
      kmem := Function.update m.kernel.kmem (trapTop m).node
        (pushes words (trapTop m).off (m.kernel.kmem (trapTop m).node)) })

/-- The entry at an address. -/
def stubAt (sym : Stub → UInt32) (a : UInt32) : Option Stub := Stub.all.find? fun e => sym e = a

/-- Through the gate of `v`, with the error code that the CPU pushes, and through `irqHandle`. -/
def atGate (sym : Stub → UInt32) (addr : Node → ℕ) (v : ℕ) (code : List UInt32) (scanCode : ℕ)
    (m : Machine) : Except Stop (Ptr × Kernel) :=
  match stubAt sym (gateOffset (initIdt sym v).quad) with
  | none => .error .disabled
  | some e => do
    let f := enterAt addr (code ++ e.code) e.irq m
    let k ← irqSwitch scanCode f.1 f.2
    .ok (f.1, k)

/-- `int $v` in ring 3. A gate that is closed to it raises a general protection fault. -/
def intGate (sym : Stub → UInt32) (addr : Node → ℕ) (v scanCode : ℕ) (m : Machine) :
    Except Stop (Ptr × Kernel) :=
  if gateDpl (initIdt sym v).quad = DPL_USER then atGate sym addr v [] scanCode m
  else atGate sym addr 0xd [UInt32.ofNat (8 * v + 2)] scanCode m

/-- The exceptions for which the CPU pushes an error code. -/
def hasErrorCode (v : ℕ) : Prop := v = 8 ∨ 10 ≤ v

/-- Whether the CPU pushes an error code can be computed. -/
instance (v : ℕ) : Decidable (hasErrorCode v) := inferInstanceAs (Decidable (_ ∨ _))

/-- What can happen to the whole machine. -/
inductive GateEvent
  | user (regs : Regs) (mem : ℕ → UInt8)
  | spin (eip : UInt32)
  | poll (c : WaitContext)
  /-- An interrupt of the 8259s, which `initIntr` has set to vectors 32 to 47. -/
  | device (v scanCode : ℕ)
  /-- A process executes `int $v`. -/
  | int (v scanCode : ℕ) (c : WaitContext)
  /-- A process raises an exception. -/
  | fault (v : ℕ) (code : UInt32)

/-- One event. -/
def deliver (sym : Stub → UInt32) (addr : Node → ℕ) (m : Machine) : GateEvent → Except Stop Machine
  | .user regs mem => machineStep addr m (.user regs mem)
  | .spin eip => machineStep addr m (.spin eip)
  | .poll c => machineStep addr m (.poll c)
  | .device v scanCode =>
    if 0x20 ≤ v ∧ v < 0x30 then do
      let r ← atGate sym addr v [] scanCode m
      .ok (restore addr (setStackTop r.1 r.2))
    else .error .disabled
  | .int v scanCode c =>
    if isUser (m.regs .cs) ∧ v < 256 then do
      let r ← intGate sym addr v scanCode m
      if r.2.waiting.isSome then .ok (.waitIn c r.2) else .ok (restore addr (setStackTop r.1 r.2))
    else .error .disabled
  | .fault v code =>
    if isUser (m.regs .cs) ∧ v < 15 then do
      let r ← atGate sym addr v (if hasErrorCode v then [code] else []) 0 m
      .ok (restore addr (setStackTop r.1 r.2))
    else .error .disabled

variable {sym : Stub → UInt32} {addr : Node → ℕ} {w w' : Watched} {Q : Queues} {m m' : Machine}
  {v scanCode : ℕ}

/-- A stub is found at its address. -/
theorem stubAt_sym (hsym : Function.Injective sym) (e : Stub) : stubAt sym (sym e) = some e := by
  have hsome : (stubAt sym (sym e)).isSome :=
    List.find?_isSome.mpr ⟨e, e.mem_all, decide_eq_true rfl⟩
  obtain ⟨e', he'⟩ := Option.isSome_iff_exists.mp hsome
  have hsym' : sym e' = sym e := of_decide_eq_true (List.find?_some (p := fun x => sym x = sym e) he')
  rw [he', hsym hsym']

/-- Behind every gate is its entry. -/
theorem atGate_eq (hsym : Function.Injective sym) (code : List UInt32) :
    atGate sym addr v code scanCode m =
      irqSwitch scanCode (enterAt addr (code ++ (stubOf v).code) (stubOf v).irq m).1
        (enterAt addr (code ++ (stubOf v).code) (stubOf v).irq m).2 >>= fun k =>
      .ok ((enterAt addr (code ++ (stubOf v).code) (stubOf v).irq m).1, k) := by
  rw [atGate, (gate_reads sym v).1, stubAt_sym hsym]

/-- With one error code the frame is that of `enter`. -/
theorem enterAt_zero (irq : UInt32) : enterAt addr [0] irq m = enter addr irq m := by
  unfold enterAt enter trapWords trapTop cpuPushes
  by_cases hu : isUser (m.regs .cs)
  · simp [hu, userPushes, kernelPushes, asmPushes, trapWord]
  · simp [hu, kernelPushes, asmPushes, trapWord]

/-- The vector in the frame is the one that the entry has pushed. -/
theorem irq_enterAt {codes : List UInt32} {irq : UInt32}
    (hfit : (trapWords addr codes irq m).length ≤ (trapTop m).off) :
    (enterAt addr codes irq m).2.kmem (enterAt addr codes irq m).1.node
      ((enterAt addr codes irq m).1.off + TfField.irq.idx) = irq := by
  set cpu := (cpuPushes (m.regs .cs)).map m.regs ++ codes with hcpu
  have hlen : (trapWords addr codes irq m).length = cpu.length + 13 := by
    simp [trapWords, asmPushes, hcpu, Nat.add_assoc]
  have hpos : (trapTop m).off - (trapWords addr codes irq m).length + TfField.irq.idx <
      (trapTop m).off := by
    have hidx : TfField.irq.idx = 12 := rfl
    omega
  have hidx : (trapTop m).off - 1 -
      ((trapTop m).off - (trapWords addr codes irq m).length + TfField.irq.idx) = cpu.length := by
    have hidx : TfField.irq.idx = 12 := rfl
    omega
  have hget : (trapWords addr codes irq m)[cpu.length]? = some irq := by
    rw [trapWords, ← hcpu, List.append_assoc, List.getElem?_append_right (Nat.le_refl _), Nat.sub_self]
    rfl
  simp only [enterAt, Function.update_self]
  rw [pushes_apply hfit, if_pos hpos, hidx, hget, Option.getD_some]

/-- Where a frame fits. -/
theorem length_trapWords_le {codes : List UInt32} {irq : UInt32} (h : Kept w Q)
    (hu : isUser (w.regs .cs) = true) (hc : codes.length ≤ 2) :
    (trapWords addr codes irq w.toMachine).length ≤ (trapTop w.toMachine).off := by
  have hw : w.kernel.waiting = none := by
    by_contra hx
    rw [(h.waits (Option.isSome_iff_ne_none.mpr hx)).1] at hu
    cases hu
  rw [(h.enter_fst addr hw irq).2]
  simp only [trapWords, cpuPushes, asmPushes, hu, if_true, List.length_append, List.length_map,
    List.length_cons, List.length_nil]
  have hmax : MAX_STACK_SIZE = 4096 := rfl
  omega

/-! ### What comes of a trap -/

/-- A vector that `irqHandle` does not know aborts. -/
theorem irqSwitch_abort {k : Kernel} {tf : Ptr} {irq : UInt32}
    (hvec : k.kmem tf.node (tf.off + TfField.irq.idx) = irq)
    (hirq : irq ≠ 0xFFFFFFFF ∧ irq ≠ 0x20 ∧ irq ≠ 0x21 ∧ irq ≠ 0x80) :
    irqSwitch scanCode tf k = .error .abort := by
  obtain ⟨h1, h20, h21, h80⟩ := hirq
  simp only [irqSwitch, hvec, if_neg h1, if_neg h20, if_neg h21, if_neg h80]
  split_ifs
  · unfold gProtectFaultHandle assert
    split_ifs <;> rfl
  · rfl

/-- The vector of `irqEmpty` does nothing. -/
theorem irqSwitch_empty {k : Kernel} {tf : Ptr}
    (hvec : k.kmem tf.node (tf.off + TfField.irq.idx) = 0xFFFFFFFF) :
    irqSwitch scanCode tf k = .ok k := by
  simp [irqSwitch, hvec]

/-- An entry that is for an exception stops the machine. -/
theorem atGate_abort (hsym : Function.Injective sym) (h : Kept w Q) (hu : isUser (w.regs .cs) = true)
    (hv : v < 15) {code : List UInt32} (hcode : (code ++ (stubOf v).code).length ≤ 2) :
    atGate sym addr v code scanCode w.toMachine = .error .abort := by
  have hirq : (stubOf v).irq ≠ 0xFFFFFFFF ∧ (stubOf v).irq ≠ 0x20 ∧ (stubOf v).irq ≠ 0x21 ∧
      (stubOf v).irq ≠ 0x80 := by
    have hall : ∀ i : Fin 15, (stubOf i).irq ≠ 0xFFFFFFFF ∧ (stubOf i).irq ≠ 0x20 ∧
        (stubOf i).irq ≠ 0x21 ∧ (stubOf i).irq ≠ 0x80 := by decide
    exact hall ⟨v, hv⟩
  rw [atGate_eq hsym]
  rw [irqSwitch_abort (irq_enterAt (length_trapWords_le h hu hcode)) hirq]
  rfl

/-- The trap of `machineStep` that an event is. -/
def GateEvent.asTrap : GateEvent → Option TrapEvent
  | .user regs mem => some (.user regs mem)
  | .spin eip => some (.spin eip)
  | .poll c => some (.poll c)
  | .device v scanCode =>
    if v = 0x20 then some .timer else if v = 0x21 then some (.key scanCode) else none
  | .int v scanCode c =>
    if v = 0x20 then some .timer
    else if v = 0x21 then some (.key scanCode)
    else if v = 0x80 then some (.int80 c)
    else none
  | .fault _ _ => none

/-- The vector is in the frame, whatever is interrupted. -/
theorem Kept.vector_any (addr : Node → ℕ) (h : Kept w Q) (irq : UInt32) :
    (enter addr irq w.toMachine).2.kmem (enter addr irq w.toMachine).1.node
      ((enter addr irq w.toMachine).1.off + TfField.irq.idx) = irq := by
  by_cases hw : w.kernel.waiting = none
  · exact h.vector addr hw irq
  · exact h.vector_waiting addr (Option.isSome_iff_ne_none.mpr hw) irq

/-- Only the keyboard's handler reads the port. -/
theorem irqSwitch_scanCode {k : Kernel} {tf : Ptr} {irq : UInt32}
    (hvec : k.kmem tf.node (tf.off + TfField.irq.idx) = irq) (hirq : irq ≠ 0x21) :
    irqSwitch scanCode tf k = irqSwitch 0 tf k := by
  simp only [irqSwitch, hvec, if_neg hirq]

/-- Ring 3 is left to no waiting read. -/
theorem Kept.waiting_of_user (h : Kept w Q) (hu : isUser (w.regs .cs) = true) :
    w.kernel.waiting = none := by
  by_contra hx
  rw [(h.waits (Option.isSome_iff_ne_none.mpr hx)).1] at hu
  cases hu

/-- An entry that pushes one error code, from a gate for which the CPU pushes none. -/
theorem atGate_enter {r : Ptr × Kernel} (hsym : Function.Injective sym) (hcode : (stubOf v).code = [0])
    (hr : atGate sym addr v [] scanCode m = .ok r) :
    r.1 = (enter addr (stubOf v).irq m).1 ∧
      irqSwitch scanCode (enter addr (stubOf v).irq m).1 (enter addr (stubOf v).irq m).2 = .ok r.2 := by
  rw [atGate_eq hsym, List.nil_append, hcode, enterAt_zero] at hr
  obtain ⟨k', hk, hr⟩ := bind_eq_ok.mp hr
  obtain rfl := Except.ok.inj hr
  exact ⟨rfl, hk⟩

/-- The interrupt of a timer or a keyboard, once its handler has returned. -/
theorem machineStep_interrupt {k' : Kernel} {irq : UInt32} (h : Kept w Q)
    (hk : irqSwitch scanCode (enter addr irq w.toMachine).1 (enter addr irq w.toMachine).2 = .ok k') :
    (irq = 0x20 → machineStep addr w.toMachine .timer =
      .ok (restore addr (setStackTop (enter addr irq w.toMachine).1 k'))) ∧
    (irq = 0x21 → machineStep addr w.toMachine (.key scanCode) =
      .ok (restore addr (setStackTop (enter addr irq w.toMachine).1 k'))) := by
  constructor
  · rintro rfl
    rw [irqSwitch_scanCode (h.vector_any addr 0x20) (by decide)] at hk
    simp only [machineStep, interrupt, hk, ok_bind]
  · rintro rfl
    simp only [machineStep, interrupt, hk, ok_bind]

/-- Neither of them leaves a read waiting in a process. -/
theorem Kept.not_waiting {k' : Kernel} {irq : UInt32} (h : Kept w Q) (hu : isUser (w.regs .cs) = true)
    (hirq : irq = 0x20 ∨ irq = 0x21)
    (hk : irqSwitch scanCode (enter addr irq w.toMachine).1 (enter addr irq w.toMachine).2 = .ok k') :
    k'.waiting = none := by
  have hw := h.waiting_of_user hu
  obtain ⟨htimer, hkey⟩ := machineStep_interrupt h hk
  rcases hirq with rfl | rfl
  · rw [irqSwitch_scanCode (h.vector_any addr 0x20) (by decide)] at hk
    exact h.waiting_of_interrupt hw (show TrapEvent.timer.irq = some 0x20 from rfl) (htimer rfl) hk nofun
  · exact h.waiting_of_interrupt hw (show (TrapEvent.key scanCode).irq = some 0x21 from rfl)
      (hkey rfl) hk nofun

/-- An `int` whose gate is not open to the processes is a fault. -/
theorem intGate_eq : intGate sym addr v scanCode m =
    if forUsers v then atGate sym addr v [] scanCode m
    else atGate sym addr 0xd [UInt32.ofNat (8 * v + 2)] scanCode m := by
  rw [intGate, (gate_reads sym v).2.2.1]
  by_cases hv : forUsers v
  · rw [if_pos hv, if_pos rfl, if_pos hv]
  · rw [if_neg hv, if_neg (by decide), if_neg hv]

/-- What an `int` has come to. -/
theorem deliver_int {c : WaitContext} (hm : deliver sym addr m (.int v scanCode c) = .ok m') :
    isUser (m.regs .cs) = true ∧ ∃ r, intGate sym addr v scanCode m = .ok r ∧
      m' = if r.2.waiting.isSome then .waitIn c r.2 else restore addr (setStackTop r.1 r.2) := by
  simp only [deliver] at hm
  split_ifs at hm with hu
  obtain ⟨r, hr, hm⟩ := bind_eq_ok.mp hm
  refine ⟨hu.1, r, hr, ?_⟩
  split_ifs at hm ⊢ <;> exact (Except.ok.inj hm).symm

/-- What an interrupt of a device has come to. -/
theorem deliver_device (hm : deliver sym addr m (.device v scanCode) = .ok m') :
    0x20 ≤ v ∧ v < 0x30 ∧ ∃ r, atGate sym addr v [] scanCode m = .ok r ∧
      m' = restore addr (setStackTop r.1 r.2) := by
  simp only [deliver] at hm
  split_ifs at hm with hv
  obtain ⟨r, hr, hm⟩ := bind_eq_ok.mp hm
  exact ⟨hv.1, hv.2, r, hr, (Except.ok.inj hm).symm⟩

/-- **Timer, keyboard and `int $0x80`**, wherever they come from, are what `machineStep` says. -/
theorem deliver_asTrap {ev : TrapEvent} {e : GateEvent} (hsym : Function.Injective sym) (h : Kept w Q)
    (he : e.asTrap = some ev) (hm : deliver sym addr w.toMachine e = .ok m') :
    machineStep addr w.toMachine ev = .ok m' := by
  cases e with
  | user regs mem => exact Option.some.inj he ▸ hm
  | spin eip => exact Option.some.inj he ▸ hm
  | poll c => exact Option.some.inj he ▸ hm
  | fault v code => cases he
  | device v scanCode =>
    obtain ⟨-, -, r, hr, rfl⟩ := deliver_device hm
    simp only [GateEvent.asTrap] at he
    split_ifs at he with h20 h21
    · obtain rfl := Option.some.inj he
      subst h20
      obtain ⟨htf, hk⟩ := atGate_enter hsym rfl hr
      rw [htf]
      exact (machineStep_interrupt h hk).1 rfl
    · obtain rfl := Option.some.inj he
      subst h21
      obtain ⟨htf, hk⟩ := atGate_enter hsym rfl hr
      rw [htf]
      exact (machineStep_interrupt h hk).2 rfl
  | int v scanCode c =>
    obtain ⟨hu, r, hr, rfl⟩ := deliver_int hm
    rw [intGate_eq] at hr
    simp only [GateEvent.asTrap] at he
    split_ifs at he with h20 h21 h80
    · obtain rfl := Option.some.inj he
      subst h20
      obtain ⟨htf, hk⟩ := atGate_enter hsym rfl ((if_pos (.inl rfl)).symm.trans hr)
      rw [h.not_waiting hu (.inl rfl) hk, htf]
      exact (machineStep_interrupt h hk).1 rfl
    · obtain rfl := Option.some.inj he
      subst h21
      obtain ⟨htf, hk⟩ := atGate_enter hsym rfl ((if_pos (.inr (.inl rfl))).symm.trans hr)
      rw [h.not_waiting hu (.inr rfl) hk, htf]
      exact (machineStep_interrupt h hk).2 rfl
    · obtain rfl := Option.some.inj he
      subst h80
      obtain ⟨htf, hk⟩ := atGate_enter hsym rfl ((if_pos (.inr (.inr rfl))).symm.trans hr)
      rw [irqSwitch_scanCode (h.vector_any addr _) (by decide)] at hk
      rw [machineStep, if_pos hu, htf]
      change (irqSwitch 0 (enter addr (stubOf 0x80).irq w.toMachine).1
        (enter addr (stubOf 0x80).irq w.toMachine).2 >>= _) = _
      rw [hk, ok_bind]
      split_ifs <;> rfl

/-- **Exceptions, and every other `int`, stop the machine.** -/
theorem deliver_closed {e : GateEvent} (hsym : Function.Injective sym) (h : Kept w Q)
    (he : (∃ v code, e = .fault v code) ∨ ∃ v scanCode c, e = .int v scanCode c ∧ ¬forUsers v) :
    ∀ m', deliver sym addr w.toMachine e ≠ .ok m' := by
  intro m' hm
  rcases he with ⟨v, code, rfl⟩ | ⟨v, scanCode, c, rfl, hv⟩
  · have hcode : ∀ codes : List UInt32, codes.length ≤ 1 → (codes ++ (stubOf v).code).length ≤ 2 := by
      intro codes hc
      have hstub : (stubOf v).code.length ≤ 1 := by
        unfold Stub.code
        split
        · split_ifs <;> simp
        · simp
      rw [List.length_append]
      exact Nat.add_le_add hc hstub
    simp only [deliver] at hm
    by_cases hu : isUser (w.regs .cs) = true ∧ v < 15
    · rw [if_pos hu] at hm
      obtain ⟨r, hr, -⟩ := bind_eq_ok.mp hm
      rw [atGate_abort hsym h hu.1 hu.2 (hcode _ (by split_ifs <;> simp))] at hr
      cases hr
    · rw [if_neg hu] at hm
      cases hm
  · obtain ⟨hu, r, hr, -⟩ := deliver_int hm
    rw [intGate_eq, if_neg hv, atGate_abort hsym h hu (by decide) (by simp [stubOf, Stub.code])] at hr
    cases hr

/-- What `irqEmpty` comes to: the frame is stored, and popped again. -/
def emptied (addr : Node → ℕ) (m : Machine) : Machine :=
  restore addr (setStackTop (enter addr 0xFFFFFFFF m).1 (enter addr 0xFFFFFFFF m).2)

/-- A trap into `irqEmpty` comes back after the frame is pushed. -/
theorem atGate_empty (hsym : Function.Injective sym) (h : Kept w Q) (hv : stubOf v = .irqEmpty) :
    atGate sym addr v [] scanCode w.toMachine = .ok (enter addr 0xFFFFFFFF w.toMachine) := by
  have henter : enterAt addr Stub.irqEmpty.code Stub.irqEmpty.irq w.toMachine =
      enter addr 0xFFFFFFFF w.toMachine := enterAt_zero _
  rw [atGate_eq hsym, hv, List.nil_append, henter, irqSwitch_empty (h.vector_any addr _)]
  rfl

/-- The devices behind timer and keyboard have the stub `irqEmpty`. -/
theorem stubOf_device (hv : 0x22 ≤ v ∧ v < 0x30) : stubOf v = .irqEmpty := by
  unfold stubOf
  rw [if_neg (by omega), if_neg (by omega), if_neg (by omega), if_neg (by omega), dif_neg (by omega)]

/-- Their interrupts are delivered to it. -/
theorem deliver_empty (hsym : Function.Injective sym) (h : Kept w Q) (hv : 0x22 ≤ v ∧ v < 0x30) :
    deliver sym addr w.toMachine (.device v scanCode) = .ok (emptied addr w.toMachine) := by
  rw [deliver, if_pos ⟨by omega, hv.2⟩, atGate_empty hsym h (stubOf_device hv)]
  rfl

/-! ### The machine with its gates -/

/-- The history of an interrupt that nobody handles; it saves a frame as every trap does. -/
def watchEmpty (addr : Node → ℕ) (w : Watched) (m : Machine) : Watched :=
  if w.kernel.waiting.isSome then { m with last := w.last, called := w.called }
  else
    { m with
      last := fun p f =>
        if p = w.kernel.current ∧ f ∈ pushedFrom (w.regs .cs) then
          trapWord addr 0xFFFFFFFF (trapTop w.toMachine) w.regs f
        else w.last p f
      called := fun p => if p = w.kernel.current then false else w.called p }

/-- One event, and its history. -/
def gateStep (sym : Stub → UInt32) (addr : Node → ℕ) (w : Watched) (e : GateEvent) :
    Except Stop Watched := do
  let m ← deliver sym addr w.toMachine e
  .ok (match e.asTrap with
    | some ev => watch addr w ev m
    | none => watchEmpty addr w m)

/-- What an interrupt that nobody handles leaves: everything but memory below the interrupted code. -/
structure Untouched (w w' : Watched) : Prop where
  kernel : ∃ kmem top, w'.kernel = { w.kernel with kmem := kmem, currentstacktop := top }
  regs : ∀ f, f.popped → w'.regs f = w.regs f
  user : isUser (w.regs .cs) = true → w'.regs .esp = w.regs .esp ∧ w'.regs .ss = w.regs .ss
  ring0 : isUser (w.regs .cs) = false → w'.sp = w.sp
  others : ∀ p f, p ≠ w.kernel.current → w'.kernel.tf p f = w.kernel.tf p f

/-- The words for the stack of a process are not popped with the registers. -/
theorem ne_of_popped {f : TfField} (hf : f.popped) : f ≠ .esp ∧ f ≠ .ss := by
  constructor <;> (rintro rfl; cases hf)

/-- The stack top is no part of the placement. -/
theorem Sound.setStackTop {k : Kernel} (h : Sound k Q) (tf : Ptr) : Sound (setStackTop tf k) Q :=
  ⟨h.placed.congr rfl rfl rfl (fun _ => rfl) fun _ => rfl, h.sems, h.nesting, h.reader, h.top⟩

/-- A process that is interrupted this way goes on as it was. -/
theorem Kept.empty_current (h : Kept w Q) (hw : w.kernel.waiting = none) :
    Kept (watchEmpty addr w (emptied addr w.toMachine)) Q ∧
      Untouched w (watchEmpty addr w (emptied addr w.toMachine)) := by
  have hst := h.stored_enter addr hw 0xFFFFFFFF
  have htf := h.enter_tf addr hw 0xFFFFFFFF
  obtain ⟨-, hregs, huser, hsp⟩ := restore_current addr hst.sound hw (enter addr 0xFFFFFFFF w.toMachine).1
  have hcur : (enter addr 0xFFFFFFFF w.toMachine).2.current = w.kernel.current := rfl
  have hwatch : watchEmpty addr w (emptied addr w.toMachine) =
      { emptied addr w.toMachine with
        last := fun p f => if p = w.kernel.current ∧ f ∈ pushedFrom (w.regs .cs) then
          trapWord addr 0xFFFFFFFF (trapTop w.toMachine) w.regs f else w.last p f
        called := fun p => if p = w.kernel.current then false else w.called p } := by
    rw [watchEmpty, hw]
    rfl
  rw [hwatch]
  refine ⟨hst.kept hw _, ⟨_, _, rfl⟩, ?_, ?_, ?_, ?_⟩
  · intro f hf
    refine (hregs f (ne_of_popped hf).1 (ne_of_popped hf).2).trans ?_
    rw [hcur, htf, if_pos ⟨rfl, mem_pushedFrom_popped _ hf⟩, trapWord_popped _ _ _ hf]
  · intro hu
    have hcs : isUser ((enter addr 0xFFFFFFFF w.toMachine).2.tf w.kernel.current .cs) = true := by
      rw [htf, if_pos ⟨rfl, mem_pushedFrom_popped _ rfl⟩]
      exact hu
    have hsaved : ∀ f ∈ userPushes, (emptied addr w.toMachine).regs f =
        trapWord addr 0xFFFFFFFF (trapTop w.toMachine) w.regs f := by
      intro f hf
      refine (huser hcs f).trans ?_
      rw [hcur, htf, if_pos ⟨rfl, by rw [pushedFrom, hu]; exact hf⟩]
    exact ⟨hsaved .esp (by decide), hsaved .ss (by decide)⟩
  · intro hcs
    have hidle : w.kernel.current = .idle := by
      by_contra hc
      rw [h.runs hw hc] at hcs
      cases hcs
    rw [(h.idles hw hidle).2, ← hidle]
    exact hsp
  · intro p f hp
    exact (htf p f).trans (if_neg fun hc => hp hc.1)

/-- So does a read that waits. -/
theorem Kept.empty_waiting (h : Kept w Q) (hw : w.kernel.waiting.isSome) :
    Kept (watchEmpty addr w (emptied addr w.toMachine)) Q ∧
      Untouched w (watchEmpty addr w (emptied addr w.toMachine)) := by
  obtain ⟨hcs, hnode, h17, hoff⟩ := h.waits hw
  obtain ⟨htf, htop⟩ := h.enter_waiting addr hw 0xFFFFFFFF
  have hfit : (pushedFrom (w.regs .cs)).length ≤ (trapTop w.toMachine).off := by
    rw [htop, length_pushedFrom, hcs]
    exact h17
  have hs : Sound (enter addr 0xFFFFFFFF w.toMachine).2 Q := h.stored.sound.kmem (enter_snd _)
  obtain ⟨-, hregs, hsp⟩ := restore_nested addr (enter addr 0xFFFFFFFF w.toMachine).1
    (hs.nesting.trans hw)
  have hpop : ∀ f, f.popped → (emptied addr w.toMachine).regs f = w.regs f := by
    intro f hf
    refine (hregs f (ne_of_popped hf).1 (ne_of_popped hf).2).trans ?_
    rw [enter_frame _ hfit (mem_pushedFrom_popped _ hf), trapWord_popped _ _ _ hf]
  have hback : (emptied addr w.toMachine).sp = w.sp := by
    have hadd : w.sp.off - 17 + 17 = w.sp.off := Nat.sub_add_cancel h17
    refine hsp.trans ?_
    rw [htf, hadd, ← hnode]
  have hframes : ∀ p f, (emptied addr w.toMachine).kernel.tf p f = w.kernel.tf p f := by
    intro p f
    apply enter_kmem_of_outside 0xFFFFFFFF hfit
    intro _
    rw [htop]
    exact .inr (Nat.le_trans hoff (Nat.le_add_right _ _))
  have hwatch : watchEmpty addr w (emptied addr w.toMachine) =
      { emptied addr w.toMachine with last := w.last, called := w.called } := by
    rw [watchEmpty, if_pos hw]
  have hstays : ¬(emptied addr w.toMachine).kernel.waiting = none := fun hx => by
    rw [show w.kernel.waiting = none from hx] at hw
    cases hw
  rw [hwatch]
  refine ⟨⟨h.stored.congr (hs.setStackTop _) hframes, fun _ => ?_, fun hx => absurd hx hstays,
    fun hx => absurd hx hstays⟩, ⟨_, _, rfl⟩, hpop, fun hu => ?_, fun _ => hback,
    fun p f _ => hframes p f⟩
  · change isUser ((emptied addr w.toMachine).regs .cs) = false ∧
      (emptied addr w.toMachine).sp.node = w.kernel.current ∧ 17 ≤ (emptied addr w.toMachine).sp.off ∧
      (emptied addr w.toMachine).sp.off ≤ MAX_STACK_SIZE
    rw [hpop .cs rfl, hback]
    exact ⟨hcs, hnode, h17, hoff⟩
  · rw [hcs] at hu
    cases hu

/-- **An interrupt that nobody handles** goes unnoticed. -/
theorem Kept.empty (h : Kept w Q) : Kept (watchEmpty addr w (emptied addr w.toMachine)) Q ∧
    Untouched w (watchEmpty addr w (emptied addr w.toMachine)) := by
  by_cases hw : w.kernel.waiting = none
  · exact h.empty_current hw
  · exact h.empty_waiting (Option.isSome_iff_ne_none.mpr hw)

/-- The events that the kernel answers to. -/
def GateEvent.answered : GateEvent → Prop
  | .int v _ _ => forUsers v
  | .fault _ _ => False
  | _ => True

/-- What is not answered: a fault, and an `int` with a gate that is closed. -/
theorem GateEvent.answered_iff (e : GateEvent) : e.answered ↔
    ¬((∃ v code, e = .fault v code) ∨ ∃ v scanCode c, e = .int v scanCode c ∧ ¬forUsers v) := by
  cases e <;> simp [answered]

/-- **An event at the gates** that does not stop the kernel was answered and keeps the invariant. -/
theorem kept_gateStep {e : GateEvent} (hsym : Function.Injective sym) (h : Kept w Q)
    (hs : gateStep sym addr w e = .ok w') : e.answered ∧ ∃ Q', Kept w' Q' := by
  obtain ⟨m, hm, hs⟩ := bind_eq_ok.mp hs
  obtain rfl := Except.ok.inj hs
  refine ⟨e.answered_iff.mpr fun he => deliver_closed hsym h he m hm, ?_⟩
  cases hev : e.asTrap with
  | some ev =>
    have hstep : watchedStep addr w ev = .ok (watch addr w ev m) := by
      rw [watchedStep, deliver_asTrap hsym h hev hm]
      rfl
    exact kept_step h hstep
  | none =>
    refine ⟨Q, ?_⟩
    cases e with
    | user regs mem => cases hev
    | spin eip => cases hev
    | poll c => cases hev
    | fault v code => exact absurd hm (deliver_closed hsym h (.inl ⟨v, code, rfl⟩) m)
    | int v scanCode c =>
      have hv : ¬forUsers v := by
        rintro (rfl | rfl | rfl) <;> cases hev
      exact absurd hm (deliver_closed hsym h (.inr ⟨v, scanCode, c, rfl, hv⟩) m)
    | device v scanCode =>
      obtain ⟨h20, h30, -⟩ := deliver_device hm
      have hne : v ≠ 0x20 ∧ v ≠ 0x21 := by
        constructor <;> (rintro rfl; cases hev)
      obtain rfl := Except.ok.inj ((deliver_empty hsym h ⟨by omega, h30⟩).symm.trans hm)
      exact h.empty.1

/-- **A run at the gates.** -/
theorem kept_gates {img : Image} {k : Kernel} {regs : Regs} {es : List GateEvent}
    (hsym : Function.Injective sym) (hb : boot img = .ok k) (hcs : isUser (regs .cs) = false)
    (hr : run (gateStep sym addr) (.start k regs) es = .ok w) :
    (∃ Q, Kept w Q) ∧ ∀ e ∈ es, e.answered := by
  induction es using List.reverseRecOn generalizing w with
  | nil =>
    obtain rfl := Except.ok.inj hr
    exact ⟨⟨_, kept_start hb hcs⟩, nofun⟩
  | append_singleton es e ih =>
    obtain ⟨w1, h1, hs⟩ := run_snoc_eq_ok.mp hr
    obtain ⟨⟨Q1, hQ1⟩, hes⟩ := ih h1
    obtain ⟨he, hQ⟩ := kept_gateStep hsym hQ1 hs
    refine ⟨hQ, fun e' he' => ?_⟩
    rcases List.mem_append.mp he' with hmem | hmem
    · exact hes e' hmem
    · rw [List.mem_singleton.mp hmem]
      exact he

/-- Where a linker may put the entries. -/
def placedAt : Stub → UInt32
  | .irqEmpty => 0x100000
  | .irqGProtectFault => 0x100010
  | .irqSyscall => 0x100020
  | .irq0 => 0x100030
  | .irq1 => 0x100040
  | .vec i => 0x100050 + 8 * UInt32.ofNat i

/-- The stubs are at different addresses. -/
theorem placedAt_injective : Function.Injective placedAt := by
  have hall : ∀ a ∈ Stub.all, ∀ b ∈ Stub.all, placedAt a = placedAt b → a = b := by decide
  exact fun a b hab => hall a a.mem_all b b.mem_all hab

/-- The first process gets the CPU, raises the timer's vector itself, and the disk interrupts it. -/
def gateTrap : List GateEvent :=
  .replicate 10 (.device 0x20 0) ++
    [.int 0x20 0 ⟨fun _ => 0, 100, isUser_zero, hundred_fits⟩, .device 0x2e 0]

/-- A run in which every kind of gate is used. -/
theorem exists_gateTrap : ∃ k w, boot .blank = .ok k ∧
    run (gateStep placedAt fun _ => 0) (.start k fun _ => 0) gateTrap = .ok w ∧
    w.kernel.waiting = none := by
  have hrun : okAnd (boot .blank >>= fun k =>
      run (gateStep placedAt fun _ => 0) (.start k fun _ => 0) gateTrap >>= fun w => .ok (k, w))
      (fun r => r.2.kernel.waiting = none) := by decide +kernel
  obtain ⟨⟨k', w⟩, hrun, hw⟩ := okAnd_eq_true.mp hrun
  obtain ⟨k, hb, hrun⟩ := bind_eq_ok.mp hrun
  obtain ⟨w', hr, hrun⟩ := bind_eq_ok.mp hrun
  obtain ⟨rfl, rfl⟩ := Prod.mk.inj (Except.ok.inj hrun)
  exact ⟨k, w', hb, hr, of_decide_eq_true hw⟩

/-- The machine at the first instruction of `irqEmpty`: the CPU has pushed its part of the frame. -/
def Machine.atEmpty (sym : Stub → UInt32) (m : Machine) : Machine :=
  let cpu := (cpuPushes (m.regs .cs)).map m.regs
  { kernel := { m.kernel with
      kmem := Function.update m.kernel.kmem (trapTop m).node
        (pushes cpu (trapTop m).off (m.kernel.kmem (trapTop m).node)) }
    regs := Function.update (Function.update m.regs .cs (KSEL SEG_KCODE)) .eip (sym .irqEmpty)
    sp := ⟨(trapTop m).node, (trapTop m).off - cpu.length⟩ }

/-- It runs in ring 0, three words into the frame of the current process. -/
theorem Kept.atEmpty_top (addr : Node → ℕ) (h : Kept w Q) (hw : w.kernel.waiting = none) :
    isUser ((w.toMachine.atEmpty sym).regs .cs) = false ∧
      trapTop (w.toMachine.atEmpty sym) = ⟨w.kernel.current, MAX_STACK_SIZE + 14⟩ := by
  have hcs : isUser ((w.toMachine.atEmpty sym).regs .cs) = false := by
    simp only [Machine.atEmpty]
    rw [Function.update_of_ne (by decide), Function.update_self]
    rfl
  have htop : trapTop (w.toMachine.atEmpty sym) = (w.toMachine.atEmpty sym).sp :=
    if_neg (by rw [hcs]; exact Bool.false_ne_true)
  refine ⟨hcs, htop.trans ?_⟩
  simp only [Machine.atEmpty, (h.enter_fst addr hw 0).2, length_pushedFrom, cpuPushes]
  split_ifs <;> rfl

/-- **Until the `cli` of `irqEmpty`**, a timer interrupt stops the machine: its frame is not
`&(current->tf)`. The gate is a trap gate and does not keep it away. -/
theorem unmasked_entry {img : Image} {k : Kernel} {regs : Regs} {es : List GateEvent}
    (hsym : Function.Injective sym) (hb : boot img = .ok k) (hcs : isUser (regs .cs) = false)
    (hr : run (gateStep sym addr) (.start k regs) es = .ok w) (hw : w.kernel.waiting = none)
    (hv : 0x22 ≤ v ∧ v < 0x30) :
    gateUnmasked (initIdt sym v).quad ∧
      interrupt addr 0x20 scanCode (w.toMachine.atEmpty sym) = .error .abort := by
  obtain ⟨⟨Q, h⟩, -⟩ := kept_gates hsym hb hcs hr
  refine ⟨(gate_reads sym v).2.2.2.mpr (stubOf_device hv), ?_⟩
  obtain ⟨hring, htop⟩ := h.atEmpty_top addr hw
  have hfit : (pushedFrom ((w.toMachine.atEmpty sym).regs .cs)).length ≤
      (trapTop (w.toMachine.atEmpty sym)).off := by
    rw [htop, length_pushedFrom, hring]
    exact Nat.le_add_left 17 4093
  have hmem : TfField.irq ∈ pushedFrom ((w.toMachine.atEmpty sym).regs .cs) := by
    rw [pushedFrom, hring]
    decide
  have htf : (enter addr 0x20 (w.toMachine.atEmpty sym)).1 =
      ⟨w.kernel.current, MAX_STACK_SIZE - 3⟩ := by
    rw [enter_fst, htop, length_pushedFrom, hring]
    rfl
  have hnest : (enter addr 0x20 (w.toMachine.atEmpty sym)).2.intrNesting = false := by
    refine h.stored.sound.nesting.trans ?_
    rw [hw]
    rfl
  rw [interrupt, irqSwitch_timer (enter_frame 0x20 hfit hmem), timerHandle, hnest, if_neg Bool.false_ne_true, assert, if_neg]
  · rfl
  · rw [htf]
    intro heq
    have hoff : (4096 : ℕ) = 4093 := congrArg Ptr.off heq
    exact absurd hoff (by decide)

/-- A timer interrupt, at the address of `irqEmpty`. -/
theorem unmasked_entry_disk : ∃ k w, boot .blank = .ok k ∧
    run (gateStep placedAt fun _ => 0) (.start k fun _ => 0) gateTrap = .ok w ∧
    interrupt (fun _ => 0) 0x20 0 (w.toMachine.atEmpty placedAt) = .error .abort := by
  obtain ⟨k, w, hb, hr, hw⟩ := exists_gateTrap
  exact ⟨k, w, hb, hr, (unmasked_entry placedAt_injective hb (by decide) hr hw
    (show 0x22 ≤ 0x2e ∧ 0x2e < 0x30 by decide)).2⟩

end OsLab
