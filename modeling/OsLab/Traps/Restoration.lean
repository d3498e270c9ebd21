import OsLab.Traps.Discipline

/-!
# Trap frames in every run

* `Kept.handled`: when no read waits, what `irqHandle` does after a trap is an event of the kernel
  (`Kernel.Step`), made in the state that the trap has left.
* `kept_step`: every event of the machine keeps the invariant `Kept`.
* `Disciplined`: what the frames and the stubs guarantee. `disciplined_of_run` reads it off the
  invariant for every run.
-/

namespace OsLab

open OsLab.Lib

variable {addr : Node → ℕ} {k k' : Kernel} {Q : Queues} {m m' : Machine} {w w' : Watched}
  {ev : TrapEvent} {irq : UInt32}

/-! ### A trap is an event of the kernel -/

/-- What the keyboard's port holds. -/
def TrapEvent.scanCode : TrapEvent → ℕ
  | .key scanCode => scanCode
  | _ => 0

/-- The parts of a trap: the frame, the handler, and where the machine goes on. -/
theorem machineStep_trap (he : ev.irq = some irq) (hm : machineStep addr m ev = .ok m') :
    ∃ k', irqSwitch ev.scanCode (enter addr irq m).1 (enter addr irq m).2 = .ok k' ∧
      ((∃ c, ev = .int80 c ∧ k'.waiting.isSome ∧ m' = .waitIn c k') ∨
        ((∀ c, ev = .int80 c → k'.waiting = none) ∧
          m' = restore addr (setStackTop (enter addr irq m).1 k'))) := by
  cases ev with
  | user regs mem => cases he
  | spin eip => cases he
  | poll c => cases he
  | timer =>
    obtain rfl := Option.some.inj he
    obtain ⟨k', hk, hm⟩ := bind_eq_ok.mp hm
    exact ⟨k', hk, .inr ⟨nofun, (Except.ok.inj hm).symm⟩⟩
  | key scanCode =>
    obtain rfl := Option.some.inj he
    obtain ⟨k', hk, hm⟩ := bind_eq_ok.mp hm
    exact ⟨k', hk, .inr ⟨nofun, (Except.ok.inj hm).symm⟩⟩
  | int80 c =>
    obtain rfl := Option.some.inj he
    simp only [machineStep] at hm
    split_ifs at hm
    obtain ⟨k', hk, hm⟩ := bind_eq_ok.mp hm
    refine ⟨k', hk, ?_⟩
    split_ifs at hm with hw
    · exact .inl ⟨c, rfl, hw, (Except.ok.inj hm).symm⟩
    · exact .inr ⟨fun _ _ => by simpa using hw, (Except.ok.inj hm).symm⟩

/-- Only a process makes system calls. -/
theorem isUser_of_int80 {c : WaitContext} (hm : machineStep addr m (.int80 c) = .ok m') :
    isUser (m.regs .cs) = true := by
  simp only [machineStep] at hm
  split_ifs at hm with hu
  exact hu

/-- The vector in the frame is the one of the trap. -/
theorem Kept.vector (addr : Node → ℕ) (h : Kept w Q) (hw : w.kernel.waiting = none) (irq : UInt32) :
    (enter addr irq w.toMachine).2.kmem (enter addr irq w.toMachine).1.node
      ((enter addr irq w.toMachine).1.off + TfField.irq.idx) = irq := by
  obtain ⟨-, htop⟩ := h.enter_fst addr hw irq
  apply enter_frame irq
  · rw [htop]
    exact Nat.le_add_left _ _
  · unfold pushedFrom
    split_ifs <;> decide

/-- So it is when a read waits. -/
theorem Kept.vector_waiting (addr : Node → ℕ) (h : Kept w Q) (hw : w.kernel.waiting.isSome)
    (irq : UInt32) :
    (enter addr irq w.toMachine).2.kmem (enter addr irq w.toMachine).1.node
      ((enter addr irq w.toMachine).1.off + TfField.irq.idx) = irq := by
  obtain ⟨hcs, -, h17, -⟩ := h.waits hw
  obtain ⟨-, htop⟩ := h.enter_waiting addr hw irq
  apply enter_frame irq
  · rw [htop, length_pushedFrom, hcs]
    exact h17
  · unfold pushedFrom
    split_ifs <;> decide

/-- The handler reads the registers of the process from the frame. -/
theorem Kept.argument (addr : Node → ℕ) (h : Kept w Q) (hw : w.kernel.waiting = none)
    (irq : UInt32) {f : TfField}
    (hf : f.popped) :
    (enter addr irq w.toMachine).2.kmem (enter addr irq w.toMachine).1.node
      ((enter addr irq w.toMachine).1.off + f.idx) = w.regs f := by
  obtain ⟨-, htop⟩ := h.enter_fst addr hw irq
  rw [enter_frame irq, trapWord_popped irq _ _ hf]
  · rw [htop]
    exact Nat.le_add_left _ _
  · exact mem_pushedFrom_popped _ hf

/-- What can happen to the kernel in a trap: an interrupt, or the system call that the registers ask
for. -/
structure Handled (w : Watched) (ev : TrapEvent) (e : Event) : Prop where
  kind : e = .timer ∨ (∃ c, e = .key c) ∨ ∃ c, e = .sys c ∧ ev.irq = some 0x80
  child : ∀ p, (e = .sys .fork ∧ p = .pcb w.kernel.pNum) ↔ forkChild w ev = some p

/-- **A trap that interrupts no waiting read** runs one event of the kernel. -/
theorem Kept.handled (h : Kept w Q) (hw : w.kernel.waiting = none) (he : ev.irq = some irq)
    (hm : machineStep addr w.toMachine ev = .ok m')
    (hk : irqSwitch ev.scanCode (enter addr irq w.toMachine).1 (enter addr irq w.toMachine).2 =
      .ok k') :
    ∃ e, step (enter addr irq w.toMachine).2 e = .ok k' ∧ Handled w ev e := by
  obtain ⟨htf, -⟩ := h.enter_fst addr hw irq
  have hvec := h.vector addr hw irq
  have harg := fun f hf => h.argument addr hw irq (f := f) hf
  have hs1 := (h.stored_enter addr hw irq).sound
  set tf := (enter addr irq w.toMachine).1 with hdef
  set k1 := (enter addr irq w.toMachine).2 with hk1
  have hw1 : k1.waiting = none := hw
  have hn1 : k1.intrNesting = false := by simpa [hw1] using hs1.nesting
  cases ev with
  | user regs mem => cases he
  | spin eip => cases he
  | poll c => cases he
  | timer =>
    obtain rfl := Option.some.inj he
    have hk : timerHandle tf k1 = .ok k' := by simpa [irqSwitch, hvec] using hk
    refine ⟨.timer, ?_, .inl rfl, ?_⟩
    · obtain ⟨k2, h2, -, -, hr, -⟩ := timerHandle_placed hs1.placed hn1
      rw [htf] at hk
      obtain rfl := Except.ok.inj (h2.symm.trans hk)
      simp only [OsLab.step, bind_eq_ok]
      exact ⟨_, h2, resume_of_none (hr.waiting.trans hw1)⟩
    · intro p
      simp [forkChild]
  | key scanCode =>
    obtain rfl := Option.some.inj he
    have hk : keyboardHandle scanCode k1 = .ok k' := by
      simpa [irqSwitch, hvec, TrapEvent.scanCode] using hk
    refine ⟨.key scanCode, ?_, .inr (.inl ⟨scanCode, rfl⟩), ?_⟩
    · simp only [OsLab.step, bind_eq_ok]
      refine ⟨_, hk, resume_of_none ?_⟩
      rw [keyboardHandle_rest hk]
      exact hw1
    · intro p
      simp [forkChild]
  | int80 c =>
    obtain rfl := Option.some.inj he
    have hk : syscallHandle tf k1 = .ok k' := by simpa [irqSwitch, hvec] using hk
    obtain ⟨-, -, hk⟩ := bind_eq_ok.mp hk
    dsimp only at hk
    rw [harg .eax rfl, harg .ebx rfl, harg .ecx rfl, harg .edx rfl] at hk
    have hne : w.kernel.current ≠ .idle := by
      intro hc
      have hu := isUser_of_int80 hm
      rw [(h.idles hw hc).1] at hu
      cases hu
    split at hk
    · cases hk
    · next call hcall =>
      refine ⟨.sys call, ?_, .inr (.inr ⟨call, rfl, rfl⟩), ?_⟩
      · exact (if_pos (show userMode k1 from ⟨hne, hw1⟩)).trans hk
      · intro p
        simp only [forkChild, hcall]
        constructor
        · rintro ⟨hf, rfl⟩
          rw [Event.sys.inj hf, if_pos rfl]
        · intro hp
          split_ifs at hp with hf
          exact ⟨by rw [Option.some.inj hf], (Option.some.inj hp).symm⟩

/-! ### Every event keeps the invariant -/

/-- A trap that interrupts no waiting read leaves the frames as the history says. -/
theorem Kept.stored_trap (h : Kept w Q) (hw : w.kernel.waiting = none) (he : ev.irq = some irq)
    (hm : machineStep addr w.toMachine ev = .ok m')
    (hk : irqSwitch ev.scanCode (enter addr irq w.toMachine).1 (enter addr irq w.toMachine).2 =
      .ok k') (htf : ∀ p f, m'.kernel.tf p f = k'.tf p f) :
    ∃ Q', Stored k' Q' (watch addr w ev m').last (watch addr w ev m').called := by
  obtain ⟨e, hs, hkind, hchild⟩ := h.handled hw he hm hk
  have hst := h.stored_enter addr hw irq
  have hkind' : e = .timer ∨ (∃ c, e = .key c) ∨ ∃ c, e = .sys c ∧
      (if (enter addr irq w.toMachine).2.current = w.kernel.current then decide (irq = 0x80)
        else w.called (enter addr irq w.toMachine).2.current) = true := by
    rcases hkind with rfl | hkey | ⟨c, rfl, hirq⟩
    · exact .inl rfl
    · exact .inr (.inl hkey)
    · refine .inr (.inr ⟨c, rfl, ?_⟩)
      exact (if_pos rfl).trans (decide_eq_true (Option.some.inj (he.symm.trans hirq)))
  refine ⟨stepQueues (enter addr irq w.toMachine).2 Q e, ?_⟩
  have hstep := hst.step hs hkind'
  have hlast : (watch addr w ev m').last = fun p f =>
      if e = .sys .fork ∧ p = .pcb w.kernel.pNum then k'.tf p f
      else if p = w.kernel.current ∧ f ∈ pushedFrom (w.regs .cs) then
        trapWord addr irq (trapTop w.toMachine) w.regs f
      else w.last p f := by
    funext p f
    simp only [watch, he, hw, Option.isSome_none, Bool.false_eq_true, if_false, ← hchild p, htf]
  have hcalled : (watch addr w ev m').called = fun p =>
      if e = .sys .fork ∧ p = .pcb w.kernel.pNum then false
      else if p = w.kernel.current then decide (irq = 0x80) else w.called p := by
    funext p
    simp only [watch, he, hw, Option.isSome_none, Bool.false_eq_true, if_false, ← hchild p]
  rw [hlast, hcalled]
  exact hstep

/-- Only a system call makes a read wait. -/
theorem Kept.waiting_of_interrupt (h : Kept w Q) (hw : w.kernel.waiting = none)
    (he : ev.irq = some irq) (hm : machineStep addr w.toMachine ev = .ok m')
    (hk : irqSwitch ev.scanCode (enter addr irq w.toMachine).1 (enter addr irq w.toMachine).2 =
      .ok k') (hi : ∀ c, ev ≠ .int80 c) : k'.waiting = none := by
  obtain ⟨e, hs, hkind, -⟩ := h.handled hw he hm hk
  have hs1 := (h.stored_enter addr hw irq).sound
  rcases hkind with rfl | ⟨c, rfl⟩ | ⟨c, rfl, hirq⟩
  · obtain ⟨k1, h1, hs⟩ := bind_eq_ok.mp hs
    have hn1 : (enter addr irq w.toMachine).2.intrNesting = false := by
      rw [hs1.nesting, show (enter addr irq w.toMachine).2.waiting = none from hw]
      rfl
    obtain ⟨k2, h2, -, -, hr, -⟩ := timerHandle_placed hs1.placed hn1
    obtain rfl := Except.ok.inj (h2.symm.trans h1)
    obtain rfl := Except.ok.inj ((resume_of_none (hr.waiting.trans hw)).symm.trans hs)
    exact hr.waiting.trans hw
  · obtain ⟨k1, h1, hs⟩ := bind_eq_ok.mp hs
    have hw1 : k1.waiting = none := by
      rw [keyboardHandle_rest h1]
      exact hw
    obtain rfl := Except.ok.inj ((resume_of_none hw1).symm.trans hs)
    exact hw1
  · cases ev with
    | int80 c => exact absurd rfl (hi c)
    | timer => cases hirq
    | key _ => cases hirq
    | user _ _ => cases hirq
    | spin _ => cases hirq
    | poll _ => cases hirq

/-- A trap keeps the invariant. -/
theorem Kept.trap (h : Kept w Q) (hw : w.kernel.waiting = none) (he : ev.irq = some irq)
    (hm : machineStep addr w.toMachine ev = .ok m') : ∃ Q', Kept (watch addr w ev m') Q' := by
  have hwatch : ∀ m, { m with last := (watch addr w ev m').last, called := (watch addr w ev m').called } =
      watch addr w ev m' ↔ m = m' := by
    intro m
    constructor
    · intro hx
      have hx := congrArg Watched.toMachine hx
      simpa [watch, he, hw] using hx
    · rintro rfl
      simp [watch, he, hw]
  obtain ⟨k', hk, ⟨c, rfl, hwait, rfl⟩ | ⟨hnone, rfl⟩⟩ := machineStep_trap he hm
  · obtain ⟨Q', hQ⟩ := h.stored_trap hw he hm hk fun _ _ => rfl
    refine ⟨Q', ?_⟩
    rw [← (hwatch _).mpr rfl]
    exact hQ.kept_wait hwait c
  · have hn : k'.waiting = none := by
      by_cases hi : ∃ c, ev = .int80 c
      · obtain ⟨c, hc⟩ := hi
        exact hnone c hc
      · exact h.waiting_of_interrupt hw he hm hk fun c hc => hi ⟨c, hc⟩
    obtain ⟨Q', hQ⟩ := h.stored_trap hw he hm hk fun _ _ => rfl
    refine ⟨Q', ?_⟩
    rw [← (hwatch _).mpr rfl]
    exact hQ.kept hn _

/-- A process that computes. -/
theorem Kept.user (h : Kept w Q) (hu : isUser (w.regs .cs) = true) {regs : Regs} (mem : ℕ → UInt8)
    (hr : isUser (regs .cs) = true) :
    Kept { w with regs := regs, kernel := { w.kernel with mem := mem } } Q := by
  have hs1 : Sound { w.kernel with mem := mem } Q :=
    ⟨h.stored.sound.placed.congr rfl rfl rfl (fun _ => rfl) fun _ => rfl, h.stored.sound.sems,
      h.stored.sound.nesting, h.stored.sound.reader, h.stored.sound.top⟩
  constructor
  · exact h.stored.congr hs1 fun _ _ => rfl
  · intro hx
    rw [(h.waits hx).1] at hu
    cases hu
  · intro hx hc
    rw [(h.idles hx hc).1] at hu
    cases hu
  · exact fun _ _ => hr

/-- A loop in ring 0. -/
theorem Kept.spin (h : Kept w Q) (eip : UInt32) :
    Kept { w with regs := Function.update w.regs .eip eip } Q := by
  have hcs : isUser (Function.update w.regs .eip eip .cs) = isUser (w.regs .cs) := by
    rw [Function.update_of_ne (by decide)]
  constructor
  · exact h.stored
  · exact fun hx => (h.waits hx).imp_left hcs.trans
  · exact fun hx hc => (h.idles hx hc).imp_left hcs.trans
  · exact fun hx hc => hcs.trans (h.runs hx hc)

/-- A round of `wait_for_keyboard`. -/
theorem Kept.poll {c : WaitContext} (h : Kept w Q)
    (hm : machineStep addr w.toMachine (.poll c) = .ok m) :
    Kept { m with last := w.last, called := w.called } Q := by
  simp only [machineStep] at hm
  split at hm
  · cases hm
  · next buf len hread =>
    obtain ⟨k1, hp, hm⟩ := bind_eq_ok.mp hm
    have hpol := pollRead_polled hp
    have hs1 := h.stored.sound.polled (h.stored.sound.reader (by simp [hread])) hpol
    have hst : Stored k1 Q w.last w.called :=
      h.stored.congr hs1 fun p f => by rw [Kernel.tf, hpol.rest]; rfl
    split_ifs at hm with hw1
    · obtain rfl := Except.ok.inj hm
      exact hst.kept_wait hw1 c
    · obtain rfl := Except.ok.inj hm
      exact hst.kept (by simpa using hw1) _

/-- **Every event of the machine keeps the invariant.** -/
theorem kept_step (h : Kept w Q) (hs : watchedStep addr w ev = .ok w') : ∃ Q', Kept w' Q' := by
  obtain ⟨m', hm, hs⟩ := bind_eq_ok.mp hs
  obtain rfl := Except.ok.inj hs
  cases ev with
  | user regs mem =>
    simp only [machineStep] at hm
    split_ifs at hm with hu
    obtain rfl := Except.ok.inj hm
    exact ⟨Q, h.user hu.1 mem hu.2⟩
  | spin eip =>
    simp only [machineStep] at hm
    split_ifs at hm
    obtain rfl := Except.ok.inj hm
    exact ⟨Q, h.spin eip⟩
  | poll c => exact ⟨Q, h.poll hm⟩
  | int80 c =>
    -- a process in ring 3 does not wait
    have hw : w.kernel.waiting = none := by
      by_contra hx
      have hu := isUser_of_int80 hm
      rw [(h.waits (Option.isSome_iff_ne_none.mpr hx)).1] at hu
      cases hu
    exact h.trap hw rfl hm
  | timer =>
    by_cases hw : w.kernel.waiting = none
    · exact h.trap hw rfl hm
    · have hw : w.kernel.waiting.isSome := Option.isSome_iff_ne_none.mpr hw
      refine ⟨Q, ?_⟩
      simp only [watch, TrapEvent.irq, hw, if_true]
      exact h.interrupt_waiting hw (.inl rfl) hm
  | key scanCode =>
    by_cases hw : w.kernel.waiting = none
    · exact h.trap hw rfl hm
    · have hw : w.kernel.waiting.isSome := Option.isSome_iff_ne_none.mpr hw
      refine ⟨Q, ?_⟩
      simp only [watch, TrapEvent.irq, hw, if_true]
      exact h.interrupt_waiting hw (.inr rfl) hm

/-- The code selector of the first frame. -/
theorem startFrame_cs (p : Node) (entry : UInt32) (k : Kernel) :
    (startFrame p entry k).tf p .cs = USEL SEG_UCODE1 := by
  simp [startFrame, setTf_tf]

/-- The frame of another PCB. -/
theorem startFrame_tf_of_ne {p q : Node} (h : q ≠ p) (entry : UInt32) (k : Kernel) (f : TfField) :
    (startFrame p entry k).tf q f = k.tf q f := by
  simp [startFrame, setTf_tf, h]

/-- The frames at the start: only the first process has one. -/
theorem started_tf (img : Image) (nx : Node → Option Node) :
    ((started img).relink nx).tf = (startFrame (.pcb 1) img.entry (Kernel.bss img)).tf := rfl

/-- The first process runs user code. -/
theorem started_users (img : Image) (nx : Node → Option Node) {p : Node} (hp : p ∈ procs)
    (hfree : p ∉ startQueues .free) : isUser (((started img).relink nx).tf p .cs) = true := by
  obtain rfl := (mem_startQueues p hp).resolve_right hfree
  rw [started_tf, startFrame_cs]
  decide

/-- The idle process runs kernel code. -/
theorem started_idle (img : Image) (nx : Node → Option Node) :
    isUser (((started img).relink nx).tf .idle .cs) = false := by
  rw [started_tf, startFrame_tf_of_ne (by decide)]
  change isUser 0 = false
  decide

/-- After start-up the kernel runs in ring 0, on the stack of `idle`. -/
theorem kept_start {img : Image} {regs : Regs} (hb : boot img = .ok k)
    (hcs : isUser (regs .cs) = false) : Kept (.start k regs) startQueues := by
  have hs := sound_boot hb
  obtain ⟨-, nx, rfl⟩ := placed_boot hb
  constructor
  · constructor
    · exact hs
    · exact fun _ _ _ => rfl
    · exact fun _ _ => rfl
    · exact fun p hp hfree => started_users img nx hp hfree
    · exact started_idle img nx
  · intro hx
    cases hx
  · exact fun _ _ => ⟨hcs, rfl⟩
  · exact fun _ hc => absurd rfl hc

/-! ### The discipline -/

/-- What the frames and the stubs guarantee in a state of the machine. -/
structure Disciplined (addr : Node → ℕ) (w : Watched) : Prop where
  /-- The assertion of `timerHandle`, which is not reached while a read waits. -/
  timerAssert : (enter addr 0x20 w.toMachine).2.intrNesting = true ∨
    tfPtr (enter addr 0x20 w.toMachine).2.current = (enter addr 0x20 w.toMachine).1
  /-- The assertion of `syscallHandle`, for the traps of a process. -/
  syscallAssert : isUser (w.regs .cs) = true →
    tfPtr (enter addr 0x80 w.toMachine).2.current = (enter addr 0x80 w.toMachine).1
  /-- A timer interrupt never stops the machine. -/
  ticks : ∃ w', watchedStep addr w .timer = .ok w'
  /-- Every frame holds what was saved, but for the result of a system call. -/
  frames : ∀ p f, (f = .eax → w.called p = false) → w.kernel.tf p f = w.last p f
  /-- With no read waiting afterwards, a trap ends with the registers of the current process. -/
  restored : ∀ ev w', watchedStep addr w ev = .ok w' → (ev.irq.isSome ∨ ∃ c, ev = .poll c) →
    w'.kernel.waiting = none →
    w'.kernel.currentstacktop = tfPtr w'.kernel.current ∧
      (∀ f, (f = .esp ∨ f = .ss → w'.kernel.current ≠ .idle) →
        w'.regs f = w'.kernel.tf w'.kernel.current f)
  /-- An interrupt of a waiting read ends with the registers it has interrupted. -/
  nested : w.kernel.waiting.isSome → ∀ ev w', watchedStep addr w ev = .ok w' →
    (ev = .timer ∨ ∃ c, ev = .key c) →
    w'.kernel.current = w.kernel.current ∧ w'.kernel.waiting = w.kernel.waiting ∧
      (∀ irq, ev.irq = some irq → w'.kernel.currentstacktop = (enter addr irq w.toMachine).1) ∧
      (∀ f, f.popped → w'.regs f = w.regs f) ∧ w'.sp = w.sp

/-- The vector of the timer goes to its handler. -/
theorem irqSwitch_timer {tf : Ptr} {scanCode : ℕ}
    (hvec : k.kmem tf.node (tf.off + TfField.irq.idx) = 0x20) :
    irqSwitch scanCode tf k = timerHandle tf k := by
  simp [irqSwitch, hvec]

/-- A timer interrupt never stops the machine. -/
theorem Kept.ticks (h : Kept w Q) : ∃ w', watchedStep addr w .timer = .ok w' := by
  have hirq : ∃ k', irqSwitch 0 (enter addr 0x20 w.toMachine).1 (enter addr 0x20 w.toMachine).2 =
      .ok k' := by
    by_cases hw : w.kernel.waiting = none
    · obtain ⟨htf, -⟩ := h.enter_fst addr hw 0x20
      have hs1 := (h.stored_enter addr hw 0x20).sound
      have hn1 : (enter addr 0x20 w.toMachine).2.intrNesting = false := by
        rw [hs1.nesting, show (enter addr 0x20 w.toMachine).2.waiting = none from hw]
        rfl
      obtain ⟨k2, h2, -⟩ := timerHandle_placed hs1.placed hn1
      refine ⟨k2, ?_⟩
      rw [irqSwitch_timer (h.vector addr hw 0x20), htf]
      exact h2
    · have hw : w.kernel.waiting.isSome := Option.isSome_iff_ne_none.mpr hw
      have hn1 : (enter addr 0x20 w.toMachine).2.intrNesting = true :=
        h.stored.sound.nesting.trans hw
      refine ⟨(enter addr 0x20 w.toMachine).2, ?_⟩
      rw [irqSwitch_timer (h.vector_waiting addr hw 0x20), timerHandle, if_pos hn1]
  obtain ⟨k', hk⟩ := hirq
  simp only [watchedStep, machineStep, interrupt, hk, ok_bind]
  exact ⟨_, rfl⟩

/-- The stack top is no part of the placement. -/
theorem sound_of_setStackTop {tf : Ptr} (h : Sound (setStackTop tf k) Q) : Sound k Q :=
  ⟨h.placed.congr rfl rfl rfl (fun _ => rfl) fun _ => rfl, h.sems, h.nesting, h.reader, h.top⟩

/-- How a trap ends that leaves no read waiting. -/
theorem watchedStep_ends (hs : watchedStep addr w ev = .ok w')
    (hev : ev.irq.isSome ∨ ∃ c, ev = .poll c) (hw' : w'.kernel.waiting = none) :
    ∃ tf k1, w'.toMachine = restore addr (setStackTop tf k1) := by
  obtain ⟨m', hm, hs⟩ := bind_eq_ok.mp hs
  obtain rfl := Except.ok.inj hs
  have hmach : (watch addr w ev m').toMachine = m' := by
    unfold watch
    split
    · rfl
    · split_ifs <;> rfl
  rw [hmach] at hw' ⊢
  rcases hev with hev | ⟨c, rfl⟩
  · obtain ⟨irq, hirq⟩ := Option.isSome_iff_exists.mp hev
    obtain ⟨k', -, ⟨c, -, hwait, rfl⟩ | ⟨-, rfl⟩⟩ := machineStep_trap hirq hm
    · rw [show k'.waiting = none from hw'] at hwait
      cases hwait
    · exact ⟨_, _, rfl⟩
  · simp only [machineStep] at hm
    split at hm
    · cases hm
    · obtain ⟨k1, -, hm⟩ := bind_eq_ok.mp hm
      split_ifs at hm with hw1
      · obtain rfl := Except.ok.inj hm
        rw [show k1.waiting = none from hw'] at hw1
        cases hw1
      · exact ⟨_, _, (Except.ok.inj hm).symm⟩

/-- It ends with the registers of the current process. -/
theorem Kept.restored {Q' : Queues} (h' : Kept w' Q')
    (hs : watchedStep addr w ev = .ok w') (hev : ev.irq.isSome ∨ ∃ c, ev = .poll c)
    (hw' : w'.kernel.waiting = none) :
    w'.kernel.currentstacktop = tfPtr w'.kernel.current ∧
      (∀ f, (f = .esp ∨ f = .ss → w'.kernel.current ≠ .idle) →
        w'.regs f = w'.kernel.tf w'.kernel.current f) := by
  obtain ⟨tf, k1, hm⟩ := watchedStep_ends hs hev hw'
  have hker : w'.kernel = setStackTop tf k1 := congrArg Machine.kernel hm
  have hs1 : Sound k1 Q' := sound_of_setStackTop (hker ▸ h'.stored.sound)
  have hw1 : k1.waiting = none := by
    rw [hker] at hw'
    exact hw'
  obtain ⟨htop, hregs, huser, -⟩ := restore_current addr hs1 hw1 tf
  have husers : w'.kernel.current ≠ .idle → isUser (w'.kernel.tf w'.kernel.current .cs) = true :=
    fun hne => h'.stored.users _ (h'.stored.sound.placed.current_mem hne)
      (h'.stored.sound.placed.apart .free)
  rw [hm]
  rw [hker] at husers
  refine ⟨htop, ?_⟩
  intro f hf
  by_cases hsp : f = .esp ∨ f = .ss
  · exact huser (husers (hf hsp)) f
  · rw [not_or] at hsp
    exact hregs f hsp.1 hsp.2

/-- The invariant gives the discipline. -/
theorem Kept.disciplined (h : Kept w Q) : Disciplined addr w where
  timerAssert := by
    by_cases hw : w.kernel.waiting = none
    · exact .inr (h.enter_fst addr hw 0x20).1.symm
    · exact .inl (h.stored.sound.nesting.trans (Option.isSome_iff_ne_none.mpr hw))
  syscallAssert := by
    intro hu
    by_cases hw : w.kernel.waiting = none
    · exact (h.enter_fst addr hw 0x80).1.symm
    · rw [(h.waits (Option.isSome_iff_ne_none.mpr hw)).1] at hu
      cases hu
  ticks := h.ticks
  frames := by
    intro p f hf
    by_cases he : f = .eax
    · subst he
      exact h.stored.results p (hf rfl)
    · exact h.stored.frames p f he
  restored := by
    intro ev w' hs hev hw'
    obtain ⟨Q', h'⟩ := kept_step h hs
    exact h'.restored hs hev hw'
  nested := by
    intro hw ev w' hs hev
    obtain ⟨m', hm, hs⟩ := bind_eq_ok.mp hs
    obtain rfl := Except.ok.inj hs
    have hr : ∃ irq, ev.irq = some irq ∧ Resumed addr irq w m' := by
      rcases hev with rfl | ⟨c, rfl⟩
      · exact ⟨_, rfl, (OsLab.interrupt_waiting h hw (.inl rfl) hm).1⟩
      · exact ⟨_, rfl, (OsLab.interrupt_waiting h hw (.inr rfl) hm).1⟩
    obtain ⟨irq, hirq, hr⟩ := hr
    have hmach : (watch addr w ev m').toMachine = m' := by
      simp only [watch, hirq, hw, if_true]
    rw [hmach]
    refine ⟨hr.current, hr.waiting, ?_, hr.regs, hr.sp⟩
    intro irq' hirq'
    obtain rfl := Option.some.inj (hirq.symm.trans hirq')
    exact hr.stackTop

/-- A run keeps the invariant. -/
theorem kept_run {ws : Watched} (h : Kept ws Q) {es : List TrapEvent}
    (hr : run (watchedStep addr) ws es = .ok w) : ∃ Q', Kept w Q' := by
  apply run_invariant (G := fun _ => True) hr (fun _ _ => trivial) ⟨Q, h⟩
  rintro w1 w2 e ⟨Q1, h1⟩ - hs
  exact kept_step h1 hs

/-- The registers of a process that reads one character from `stdin` to address `0x280000`. -/
def readCall : Regs
  | .eax => 3
  | .ebx => 0
  | .ecx => 0x280000
  | .edx => 1
  | .cs => USEL SEG_UCODE1
  | _ => 0

/-- A stack with a hundred words left has room for another frame. -/
theorem hundred_fits : 17 ≤ 100 ∧ 100 ≤ MAX_STACK_SIZE := by
  decide

/-- A code selector of ring 0. -/
theorem isUser_zero : isUser 0 = false := rfl

/-- `idle` runs until the first process gets the CPU, which reads a character; a timer interrupt and
the key arrive while it waits. -/
def readTrap : List TrapEvent :=
  let c : WaitContext := ⟨fun _ => 0, 100, by decide, by decide⟩
  .replicate 10 .timer ++ [.user readCall fun _ => 0, .int80 c, .timer, .key 30, .poll c, .timer]

end OsLab
