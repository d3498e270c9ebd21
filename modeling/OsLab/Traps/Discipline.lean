import OsLab.Kernel.Trap
import OsLab.Scheduler.Sound

/-!
# Every trap saves to and restores from the right frame

Three kinds of code get interrupted: a process in ring 3, the loop of `idle`, and the loop of
`wait_for_keyboard`. In the first two cases the frame that `irqHandle` gets is `&(current->tf)`,
because `tss.esp0`, or the stack pointer of `idle`, lies exactly one frame above (`Kept.enter_fst`).
In the third it lies deeper on the reader's kernel stack and touches no PCB's `tf`
(`Kept.enter_waiting`).

`Watched` carries two history variables: `last`, what was saved for a process at its last trap or
set by `preparePCB` or `fork_aux`, and `called`, whether that trap was a system call, which may
write its result to `eax`. `Kept` is the invariant of the machine; `Restoration` shows that every
event keeps it.
-/

namespace OsLab

open OsLab.Lib

variable {addr : Node → ℕ} {k k' : Kernel} {Q : Queues} {m m' : Machine} {p : Node} {f : TfField}

/-! ### The frame in memory -/

/-- The fields that a trap from this code saves. -/
def pushedFrom (cs : UInt32) : List TfField := if isUser cs then userPushes else kernelPushes

/-- Where they come in the list of pushes. -/
theorem pushedFrom_index {cs : UInt32} (hf : f ∈ pushedFrom cs) :
    (pushedFrom cs)[(pushedFrom cs).length - 1 - f.idx]? = some f ∧
      f.idx < (pushedFrom cs).length := by
  have hall : ∀ l, l = userPushes ∨ l = kernelPushes →
      ∀ f ∈ l, l[l.length - 1 - f.idx]? = some f ∧ f.idx < l.length := by
    rintro l (rfl | rfl) <;> decide
  apply hall _ _ _ hf
  unfold pushedFrom
  split_ifs
  · exact .inl rfl
  · exact .inr rfl

/-- The stack pointer that a trap starts from. -/
def trapTop (m : Machine) : Ptr := if isUser (m.regs .cs) then m.kernel.esp0 else m.sp

/-- The stack pointer goes down by the words that are pushed. -/
theorem enter_fst (irq : UInt32) :
    (enter addr irq m).1 = ⟨(trapTop m).node, (trapTop m).off - (pushedFrom (m.regs .cs)).length⟩ := by
  simp [enter, trapTop, pushedFrom]

/-- A trap changes nothing but memory, -/
theorem enter_snd (irq : UInt32) :
    (enter addr irq m).2 = { m.kernel with kmem := (enter addr irq m).2.kmem } := rfl

/-- The words go below the stack pointer of the `PCB` that is entered. -/
theorem enter_kmem (irq : UInt32) (p : Node) (o : ℕ) :
    (enter addr irq m).2.kmem p o = if p = (trapTop m).node then
      pushes ((pushedFrom (m.regs .cs)).map (trapWord addr irq (trapTop m) m.regs)) (trapTop m).off
        (m.kernel.kmem p) o else m.kernel.kmem p o := by
  simp only [enter]
  by_cases hp : p = (trapTop m).node
  · rw [if_pos hp]
    subst hp
    exact congrFun (Function.update_self ..) o
  · rw [if_neg hp]
    exact congrFun (Function.update_of_ne hp ..) o

/-- and leaves all memory outside the frame alone. -/
theorem enter_kmem_of_outside (irq : UInt32) {o : ℕ}
    (hfit : (pushedFrom (m.regs .cs)).length ≤ (trapTop m).off)
    (ho : p = (trapTop m).node → o < (enter addr irq m).1.off ∨ (trapTop m).off ≤ o) :
    (enter addr irq m).2.kmem p o = m.kernel.kmem p o := by
  rw [enter_kmem]
  split_ifs with hp
  · rcases ho hp with ho | ho
    · apply pushes_below (by simpa using hfit)
      simpa [enter_fst] using ho
    · exact pushes_above (by simpa using hfit) ho
  · rfl

/-- The frame holds what was pushed. -/
theorem enter_frame (irq : UInt32) (hfit : (pushedFrom (m.regs .cs)).length ≤ (trapTop m).off)
    (hf : f ∈ pushedFrom (m.regs .cs)) :
    (enter addr irq m).2.kmem (enter addr irq m).1.node ((enter addr irq m).1.off + f.idx) =
      trapWord addr irq (trapTop m) m.regs f := by
  obtain ⟨hget, hlt⟩ := pushedFrom_index hf
  have hpos : (trapTop m).off - (pushedFrom (m.regs .cs)).length + f.idx < (trapTop m).off := by omega
  have hidx : (trapTop m).off - 1 - ((trapTop m).off - (pushedFrom (m.regs .cs)).length + f.idx) =
      (pushedFrom (m.regs .cs)).length - 1 - f.idx := by omega
  rw [enter_kmem, enter_fst, if_pos rfl, pushes_apply (by simpa using hfit), if_pos hpos, hidx,
    List.getElem?_map, hget]
  rfl

/-- A process is entered with two words more than the kernel. -/
theorem length_pushedFrom (cs : UInt32) :
    (pushedFrom cs).length = if isUser cs then 19 else 17 := by
  unfold pushedFrom
  split_ifs <;> rfl

/-! ### The history variables -/

/-- The machine, what was saved for every process, and who was saved in a system call. -/
structure Watched extends Machine where
  last : Node → TfField → UInt32
  called : Node → Bool

/-- The vector of an event that traps. -/
def TrapEvent.irq : TrapEvent → Option UInt32
  | .timer => some 0x20
  | .key _ => some 0x21
  | .int80 _ => some 0x80
  | _ => none

/-- The PCB that a system call of the current process prepares. -/
def forkChild (w : Watched) : TrapEvent → Option Node
  | .int80 _ =>
    if decodeSyscall (w.regs .eax) (w.regs .ebx) (w.regs .ecx) (w.regs .edx) = some .fork then
      some (.pcb w.kernel.pNum)
    else none
  | _ => none

/-- The history variables after an event. A trap that interrupts a waiting read saves nothing for a
process. -/
def watch (addr : Node → ℕ) (w : Watched) (e : TrapEvent) (m : Machine) : Watched :=
  match e.irq with
  | none => { m with last := w.last, called := w.called }
  | some irq =>
    if w.kernel.waiting.isSome then { m with last := w.last, called := w.called }
    else
      { m with
        last := fun p f =>
          if forkChild w e = some p then m.kernel.tf p f
          else if p = w.kernel.current ∧ f ∈ pushedFrom (w.regs .cs) then
            trapWord addr irq (trapTop w.toMachine) w.regs f
          else w.last p f
        called := fun p =>
          if forkChild w e = some p then false
          else if p = w.kernel.current then irq = 0x80 else w.called p }

/-- One event, and its history. -/
def watchedStep (addr : Node → ℕ) (w : Watched) (e : TrapEvent) : Except Stop Watched := do
  let m ← machineStep addr w.toMachine e
  .ok (watch addr w e m)

/-- After start-up the frame of the first process is the one that `preparePCB` has set. -/
def Watched.start (k : Kernel) (regs : Regs) : Watched :=
  { Machine.start k regs with last := k.tf, called := fun _ => false }

/-! ### The invariant -/

/-- The frames hold what the history says. -/
structure Stored (k : Kernel) (Q : Queues) (last : Node → TfField → UInt32) (called : Node → Bool) :
    Prop where
  sound : Sound k Q
  frames : ∀ p f, f ≠ .eax → k.tf p f = last p f
  results : ∀ p, called p = false → k.tf p .eax = last p .eax
  /-- The frame of a process leads to ring 3, -/
  users : ∀ p ∈ procs, p ∉ Q .free → isUser (k.tf p .cs) = true
  /-- that of `idle` to ring 0. -/
  idleCs : isUser (k.tf .idle .cs) = false

/-- The frames, and the CPU. -/
structure Kept (w : Watched) (Q : Queues) : Prop where
  stored : Stored w.kernel Q w.last w.called
  waits : w.kernel.waiting.isSome → isUser (w.regs .cs) = false ∧ w.sp.node = w.kernel.current ∧
    17 ≤ w.sp.off ∧ w.sp.off ≤ MAX_STACK_SIZE
  idles : w.kernel.waiting = none → w.kernel.current = .idle →
    isUser (w.regs .cs) = false ∧ w.sp = ⟨.idle, MAX_STACK_SIZE + 17⟩
  runs : w.kernel.waiting = none → w.kernel.current ≠ .idle → isUser (w.regs .cs) = true

/-- A change that leaves the frames alone. -/
theorem Stored.congr {last : Node → TfField → UInt32} {called : Node → Bool}
    (h : Stored k Q last called) (hs : Sound k' Q) (hm : ∀ p f, k'.tf p f = k.tf p f) :
    Stored k' Q last called where
  sound := hs
  frames p f hf := by rw [hm, h.frames p f hf]
  results p hp := by rw [hm, h.results p hp]
  users p hp hf := by rw [hm]; exact h.users p hp hf
  idleCs := by rw [hm]; exact h.idleCs

/-! ### Into the kernel -/

variable {w w' : Watched}

/-- From `idle` or from a process the frame is `&(current->tf)`. -/
theorem Kept.enter_fst (addr : Node → ℕ) (h : Kept w Q) (hw : w.kernel.waiting = none)
    (irq : UInt32) :
    (enter addr irq w.toMachine).1 = tfPtr w.kernel.current ∧
      trapTop w.toMachine = ⟨w.kernel.current,
        MAX_STACK_SIZE + (pushedFrom (w.regs .cs)).length⟩ := by
  have htop : trapTop w.toMachine = ⟨w.kernel.current,
      MAX_STACK_SIZE + (pushedFrom (w.regs .cs)).length⟩ := by
    rw [length_pushedFrom]
    unfold trapTop
    by_cases hc : w.kernel.current = .idle
    · obtain ⟨hcs, hsp⟩ := h.idles hw hc
      rw [hcs, hsp, hc]
      rfl
    · rw [h.runs hw hc]
      exact h.stored.sound.top hc
  refine ⟨?_, htop⟩
  rw [OsLab.enter_fst, htop]
  simp [tfPtr]

/-- Inside a waiting read it lies on the reader's kernel stack. -/
theorem Kept.enter_waiting (addr : Node → ℕ) (h : Kept w Q) (hw : w.kernel.waiting.isSome)
    (irq : UInt32) :
    (enter addr irq w.toMachine).1 = ⟨w.kernel.current, w.sp.off - 17⟩ ∧
      trapTop w.toMachine = w.sp := by
  obtain ⟨hcs, hnode, h17, -⟩ := h.waits hw
  have htop : trapTop w.toMachine = w.sp := by
    unfold trapTop
    rw [hcs]
    rfl
  refine ⟨?_, htop⟩
  rw [OsLab.enter_fst, htop, length_pushedFrom, hcs, hnode]
  rfl

/-- The frames in memory after a trap from `idle` or from a process. -/
theorem Kept.enter_tf (addr : Node → ℕ) (h : Kept w Q) (hw : w.kernel.waiting = none)
    (irq : UInt32) (p : Node)
    (f : TfField) : (enter addr irq w.toMachine).2.tf p f =
      if p = w.kernel.current ∧ f ∈ pushedFrom (w.regs .cs) then
        trapWord addr irq (trapTop w.toMachine) w.regs f
      else w.kernel.tf p f := by
  obtain ⟨htf, htop⟩ := h.enter_fst addr hw irq
  have hfit : (pushedFrom (w.regs .cs)).length ≤ (trapTop w.toMachine).off := by
    rw [htop]
    exact Nat.le_add_left _ _
  by_cases hp : p = w.kernel.current
  · subst hp
    by_cases hf : f ∈ pushedFrom (w.regs .cs)
    · rw [if_pos ⟨rfl, hf⟩, ← enter_frame irq hfit hf, htf]
      rfl
    · rw [if_neg fun hc => hf hc.2]
      apply enter_kmem_of_outside irq hfit
      intro _
      right
      rw [htop, length_pushedFrom]
      -- only `esp` and `ss` are not pushed, and only from ring 0
      unfold pushedFrom at hf
      split_ifs at hf ⊢
      · exact absurd (by cases f <;> decide) hf
      · have hidx : 17 ≤ f.idx := by
          cases f <;> first | decide | exact absurd (by decide) hf
        simpa using hidx
  · rw [if_neg fun hc => hp hc.1]
    apply enter_kmem_of_outside irq hfit
    intro hn
    rw [htop] at hn
    exact absurd hn hp

/-- What the trap has saved. -/
theorem Kept.stored_enter (addr : Node → ℕ) (h : Kept w Q) (hw : w.kernel.waiting = none)
    (irq : UInt32) :
    Stored (enter addr irq w.toMachine).2 Q
      (fun p f => if p = w.kernel.current ∧ f ∈ pushedFrom (w.regs .cs) then
        trapWord addr irq (trapTop w.toMachine) w.regs f else w.last p f)
      (fun p => if p = w.kernel.current then irq = 0x80 else w.called p) := by
  have htf := h.enter_tf addr hw irq
  constructor
  · exact h.stored.sound.kmem (enter_snd irq)
  · intro p f hf
    rw [htf]
    split_ifs
    · rfl
    · exact h.stored.frames p f hf
  · intro p hp
    rw [htf]
    by_cases hc : p = w.kernel.current
    · have hmem : TfField.eax ∈ pushedFrom (w.regs .cs) := by
        unfold pushedFrom
        split_ifs <;> decide
      rw [if_pos ⟨hc, hmem⟩, if_pos ⟨hc, hmem⟩]
    · rw [if_neg fun hx => hc hx.1, if_neg fun hx => hc hx.1]
      rw [if_neg hc] at hp
      exact h.stored.results p hp
  · intro p hp hfree
    rw [htf]
    split_ifs with hc
    · have hne : w.kernel.current ≠ .idle := fun hi => idle_not_mem_procs (hi ▸ hc.1 ▸ hp)
      exact h.runs hw hne
    · exact h.stored.users p hp hfree
  · rw [htf]
    split_ifs with hc
    · exact (h.idles hw hc.1.symm).1
    · exact h.stored.idleCs

/-! ### Through the handlers -/

/-- Interrupts write nothing into the memory of the PCBs. -/
theorem kmem_of_interrupt {e : Event} (h : Sound k Q) (hk : step k e = .ok k')
    (he : e = .timer ∨ ∃ c, e = .key c) : k'.kmem = k.kmem := by
  rcases he with rfl | ⟨c, rfl⟩
  · exact (switched_of_alone h rfl hk).kmem
  · obtain ⟨k1, h1, hk⟩ := bind_eq_ok.mp hk
    rw [resume_rest hk, keyboardHandle_rest h1]

/-- The frames after an event of the kernel. -/
theorem Stored.step {last : Node → TfField → UInt32} {called : Node → Bool} {e : Event}
    (h : Stored k Q last called) (hk : step k e = .ok k')
    (he : e = .timer ∨ (∃ c, e = .key c) ∨ ∃ c, e = .sys c ∧ called k.current = true) :
    Stored k' (stepQueues k Q e)
      (fun p f => if e = .sys .fork ∧ p = .pcb k.pNum then k'.tf p f else last p f)
      (fun p => if e = .sys .fork ∧ p = .pcb k.pNum then false else called p) := by
  have hkeep : ∀ p f, ¬(e = .sys .fork ∧ p = .pcb k.pNum) → (f ≠ .eax ∨ called p = false) →
      k'.tf p f = k.tf p f := by
    intro p f hc hf
    rcases he with he | he | ⟨c, rfl, hcall⟩
    · exact congrFun (congrFun (kmem_of_interrupt h.sound hk (.inl he)) p) _
    · exact congrFun (congrFun (kmem_of_interrupt h.sound hk (.inr he)) p) _
    · apply kmem_of_step h.sound hk _ fun hfork hp => hc ⟨hfork, hp⟩
      rintro ⟨rfl, ho⟩
      rcases hf with hf | hf
      · exact hf (TfField.idx_inj.mp (by omega))
      · rw [hcall] at hf
        cases hf
  have hs := (sound_step h.sound hk).1
  -- only the child of a fork comes off `free_list`
  have hchild : ∀ p ∈ procs, p ∉ stepQueues k Q e .free → p ∈ Q .free →
      e = .sys .fork ∧ p = .pcb k.pNum := by
    intro p hp hn hfree
    by_cases hfork : e = .sys .fork
    · refine ⟨hfork, ?_⟩
      by_contra hne
      apply hn
      subst hfork
      simp only [stepQueues, forkQueues]
      rw [Queues.push_of_ne _ _ (by simp), Function.update_self]
      exact (List.mem_erase_of_ne hne).mpr hfree
    · exact absurd (mem_stepQueues_free hfork hfree) hn
  constructor
  · exact hs
  · intro p f hf
    by_cases hc : e = .sys .fork ∧ p = .pcb k.pNum
    · rw [if_pos hc]
    · rw [if_neg hc, hkeep p f hc (.inl hf)]
      exact h.frames p f hf
  · intro p hp
    by_cases hc : e = .sys .fork ∧ p = .pcb k.pNum
    · rw [if_pos hc]
    · rw [if_neg hc] at hp ⊢
      rw [hkeep p _ hc (.inr hp)]
      exact h.results p hp
  · intro p hp hn
    by_cases hc : e = .sys .fork ∧ p = .pcb k.pNum
    · obtain ⟨rfl, rfl⟩ := hc
      simp only [OsLab.step] at hk
      split_ifs at hk
      obtain ⟨hfree, -, -, nx, rfl⟩ := forkAux_placed h.sound.placed hk
      rw [tf_child_of_fork (h.sound.placed.ne_current hfree), forkFrame]
      decide
    · rw [hkeep p _ hc (.inl (by simp))]
      apply h.users p hp
      intro hfree
      exact hc (hchild p hp hn hfree)
  · rw [hkeep _ _ (fun hc => by cases hc.2) (.inl (by simp))]
    exact h.idleCs

/-! ### Out of the kernel -/

/-- **The stubs restore from `&(current->tf)`** when no read waits, and go on there. -/
theorem restore_current (addr : Node → ℕ) (h : Sound k Q) (hw : k.waiting = none) (tf : Ptr) :
    (restore addr (setStackTop tf k)).kernel.currentstacktop = tfPtr k.current ∧
      (∀ f, f ≠ .esp → f ≠ .ss → (restore addr (setStackTop tf k)).regs f = k.tf k.current f) ∧
      (isUser (k.tf k.current .cs) = true →
        ∀ f, (restore addr (setStackTop tf k)).regs f = k.tf k.current f) ∧
      (restore addr (setStackTop tf k)).sp = ⟨k.current, MAX_STACK_SIZE + 17⟩ := by
  have hn : k.intrNesting = false := by simpa [hw] using h.nesting
  have htop : (setStackTop tf k).currentstacktop = tfPtr k.current := by
    simp [setStackTop, hn, tfPtr]
  refine ⟨htop, ?_, ?_, ?_⟩
  · intro f h1 h2
    simp only [restore, htop, if_neg h1, if_neg h2, ite_self]
    rfl
  · intro hu f
    simp only [restore, htop]
    exact if_pos hu
  · simp only [restore, htop]
    rfl

/-- The machine after a trap that leaves no read waiting. -/
theorem Stored.kept {last : Node → TfField → UInt32} {called : Node → Bool}
    (h : Stored k Q last called) (hw : k.waiting = none) (tf : Ptr) :
    Kept { restore addr (setStackTop tf k) with last := last, called := called } Q := by
  obtain ⟨-, hregs, -, hsp⟩ := restore_current addr h.sound hw tf
  have hs : Sound (setStackTop tf k) Q :=
    ⟨h.sound.placed.congr rfl rfl rfl (fun _ => rfl) fun _ => rfl, h.sound.sems, h.sound.nesting,
      h.sound.reader, h.sound.top⟩
  have hcs := hregs .cs (by simp) (by simp)
  constructor
  · exact h.congr hs fun _ _ => rfl
  · intro hx
    rw [show (restore addr (setStackTop tf k)).kernel.waiting = none from hw] at hx
    cases hx
  · intro _ hc
    have hc : k.current = .idle := hc
    rw [hc] at hcs hsp
    exact ⟨by rw [hcs]; exact h.idleCs, hsp⟩
  · intro _ hc
    have hp := h.sound.placed.current_mem hc
    change isUser ((restore addr (setStackTop tf k)).regs .cs) = true
    rw [hcs]
    exact h.users _ hp (h.sound.placed.apart .free)

/-- The machine when a read waits. -/
theorem Stored.kept_wait {last : Node → TfField → UInt32} {called : Node → Bool}
    (h : Stored k Q last called) (hw : k.waiting.isSome) (c : WaitContext) :
    Kept { Machine.waitIn c k with last := last, called := called } Q := by
  constructor
  · exact h
  · exact fun _ => ⟨c.ring0, rfl, c.fits⟩
  · intro hx
    rw [show k.waiting = none from hx] at hw
    cases hw
  · intro hx
    rw [show k.waiting = none from hx] at hw
    cases hw

/-- **The stubs restore the interrupted loop** when a read waits. -/
theorem restore_nested (addr : Node → ℕ) (tf : Ptr) (hn : k.intrNesting = true) :
    (restore addr (setStackTop tf k)).kernel.currentstacktop = tf ∧
      (∀ f, f ≠ .esp → f ≠ .ss →
        (restore addr (setStackTop tf k)).regs f = k.kmem tf.node (tf.off + f.idx)) ∧
      (restore addr (setStackTop tf k)).sp = ⟨tf.node, tf.off + 17⟩ := by
  have htop : (setStackTop tf k).currentstacktop = tf := by simp [setStackTop, hn]
  refine ⟨htop, ?_, ?_⟩
  · intro f h1 h2
    simp only [restore, htop, if_neg h1, if_neg h2, ite_self]
    rfl
  · simp only [restore, htop]

/-! ### Interrupts of a waiting read -/

/-- The registers that come back from a frame in ring 0. -/
def TfField.popped : TfField → Bool
  | .irq | .error | .xxx | .esp | .ss => false
  | _ => true

/-- A register that is popped again was pushed as it was. -/
theorem trapWord_popped (irq : UInt32) (top : Ptr) (regs : Regs) (hf : f.popped) :
    trapWord addr irq top regs f = regs f := by
  cases f <;> first | rfl | cases hf

/-- Every register that is popped again was pushed. -/
theorem mem_pushedFrom_popped (cs : UInt32) (hf : f.popped) : f ∈ pushedFrom cs := by
  unfold pushedFrom
  cases f <;> first | (split_ifs <;> decide) | cases hf

/-- What a device interrupt does to the machine while a read waits. -/
structure Resumed (addr : Node → ℕ) (irq : UInt32) (w : Watched) (m : Machine) : Prop where
  current : m.kernel.current = w.kernel.current
  waiting : m.kernel.waiting = w.kernel.waiting
  stackTop : m.kernel.currentstacktop = (enter addr irq w.toMachine).1
  regs : ∀ f, f.popped → m.regs f = w.regs f
  sp : m.sp = w.sp
  /-- No PCB's frame is touched. -/
  frames : ∀ p f, m.kernel.tf p f = w.kernel.tf p f

/-- An interrupt while a read waits leaves the machine where it was. -/
theorem interrupt_waiting {irq : UInt32} {scanCode : ℕ} (h : Kept w Q)
    (hw : w.kernel.waiting.isSome) (hirq : irq = 0x20 ∨ irq = 0x21)
    (hk : interrupt addr irq scanCode w.toMachine = .ok m) :
    Resumed addr irq w m ∧ Sound m.kernel Q := by
  obtain ⟨hcs, hnode, h17, hoff⟩ := h.waits hw
  obtain ⟨htf, htop⟩ := h.enter_waiting addr hw irq
  have hlen : (pushedFrom (w.regs .cs)).length = 17 := by rw [length_pushedFrom, hcs]; rfl
  have hfit : (pushedFrom (w.regs .cs)).length ≤ (trapTop w.toMachine).off := by
    rw [htop, hlen]
    exact h17
  set tf := (enter addr irq w.toMachine).1 with hdef
  set k1 := (enter addr irq w.toMachine).2 with hk1
  have hs1 : Sound k1 Q := h.stored.sound.kmem (enter_snd irq)
  have hword : ∀ f ∈ pushedFrom (w.regs .cs),
      k1.kmem tf.node (tf.off + f.idx) = trapWord addr irq (trapTop w.toMachine) w.regs f :=
    fun f hf => enter_frame irq hfit hf
  have hframes : ∀ p f, k1.tf p f = w.kernel.tf p f := by
    intro p f
    apply enter_kmem_of_outside irq hfit
    intro _
    right
    rw [htop]
    omega
  have hn1 : k1.intrNesting = true := by rw [hs1.nesting]; exact hw
  have hvec : k1.kmem tf.node (tf.off + TfField.irq.idx) = irq := by
    rw [hword .irq (by unfold pushedFrom; split_ifs <;> decide)]
    rfl
  -- the handlers leave all but the screen and the key buffer alone
  obtain ⟨k2, h2, hk⟩ := bind_eq_ok.mp hk
  have hrest : Sound k2 Q ∧ k2.kmem = k1.kmem ∧ k2.current = k1.current ∧
      k2.waiting = k1.waiting ∧ k2.intrNesting = k1.intrNesting := by
    rcases hirq with rfl | rfl
    · have h2 : timerHandle tf k1 = .ok k2 := by simpa [irqSwitch, ← hdef, ← hk1, hvec] using h2
      obtain rfl : k1 = k2 := by simpa [timerHandle, hn1] using h2
      exact ⟨hs1, rfl, rfl, rfl, rfl⟩
    · have h2 : keyboardHandle scanCode k1 = .ok k2 := by
        simpa [irqSwitch, ← hdef, ← hk1, hvec] using h2
      refine ⟨hs1.keyboard h2, ?_⟩
      rw [keyboardHandle_rest h2]
      exact ⟨rfl, rfl, rfl, rfl⟩
  obtain ⟨hs2, hm2, hcur2, hw2, hn2⟩ := hrest
  obtain rfl := Except.ok.inj hk
  obtain ⟨hst, hregs, hsp⟩ := restore_nested addr tf (hn2.trans hn1)
  refine ⟨⟨hcur2, hw2, hst, ?_, ?_, ?_⟩, ?_⟩
  · intro f hf
    rw [hregs f (by rintro rfl; cases hf) (by rintro rfl; cases hf), hm2,
      hword f (mem_pushedFrom_popped _ hf), trapWord_popped irq _ _ hf]
  · rw [hsp, htf]
    have hback : w.sp.off - 17 + 17 = w.sp.off := by omega
    rw [hback, ← hnode]
  · intro p f
    rw [← hframes p f]
    exact congrFun (congrFun hm2 p) _
  · exact ⟨hs2.placed.congr rfl rfl rfl (fun _ => rfl) fun _ => rfl, hs2.sems, hs2.nesting,
      hs2.reader, hs2.top⟩

/-- It keeps the invariant. -/
theorem Kept.interrupt_waiting {irq : UInt32} {scanCode : ℕ} (h : Kept w Q)
    (hw : w.kernel.waiting.isSome) (hirq : irq = 0x20 ∨ irq = 0x21)
    (hk : interrupt addr irq scanCode w.toMachine = .ok m) :
    Kept { m with last := w.last, called := w.called } Q := by
  obtain ⟨hr, hs⟩ := OsLab.interrupt_waiting h hw hirq hk
  obtain ⟨hcs, hnode, h17, hoff⟩ := h.waits hw
  have hwm : m.kernel.waiting.isSome := by rw [hr.waiting]; exact hw
  constructor
  · exact h.stored.congr hs hr.frames
  · intro _
    change isUser (m.regs .cs) = false ∧ m.sp.node = m.kernel.current ∧ 17 ≤ m.sp.off ∧
      m.sp.off ≤ MAX_STACK_SIZE
    rw [hr.regs .cs rfl, hr.sp, hr.current]
    exact ⟨hcs, hnode, h17, hoff⟩
  · intro hx
    rw [show m.kernel.waiting = none from hx] at hwm
    cases hwm
  · intro hx
    rw [show m.kernel.waiting = none from hx] at hwm
    cases hwm

end OsLab
