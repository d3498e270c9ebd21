import OsLab.Scheduler.RoundRobin
import OsLab.Traps.Restoration
import OsLab.User.Calls

/-!
# System calls return

A process that makes a system call may wait in it for a key, or lose the CPU to other processes, which
trap, get interrupted, make calls of their own and exit. Some time later it runs again.

* `frame_of_step`: the trap frame of a process that is not on `free_list` stays as it is in every
  event of the machine while the process does not run; `frame_of_run` carries that over a run.
* `regs_of_back`: when the process runs again its registers are those in its frame.
* `call_returns`: so a function of the library finds behind its `int $0x80` **the registers that it
  had there**, but for `eax`, which holds what the call returns.
* `fork_starts_child`: the child of a fork begins with the registers of its parent, 0 in `eax`, and
  the selectors of its own segments.
-/

namespace OsLab

open OsLab.Lib

variable {addr : Node → ℕ} {k k' : Kernel} {Q : Queues} {w w' w1 w2 : Watched} {ev : TrapEvent}
  {irq : UInt32} {p : Node} {c : Syscall} {cx : WaitContext} {es fs : List TrapEvent}

/-! ### Processes that do not run -/

/-- Process `p` has the CPU in ring 3. -/
def runsNow (p : Node) (w : Watched) : Prop := w.kernel.current = p ∧ w.kernel.waiting = none

/-- Whether a process runs its own code can be computed. -/
instance (p : Node) (w : Watched) : Decidable (runsNow p w) := inferInstanceAs (Decidable (_ ∧ _))

/-- Process `p` is not on `free_list`. -/
def offFree (p : Node) (k : Kernel) : Prop := p ∈ procs ∧ p ∉ members k freeList

/-- The processes off the free list. -/
theorem offFree_iff (h : Sound k Q) : offFree p k ↔ p ∈ procs ∧ p ∉ Q .free := by
  have hm : members k freeList = Q .free := h.placed.lists.members_eq .free
  rw [offFree, hm]

/-- The list is read from the `next` fields. -/
theorem offFree_congr (hp : k'.pcb = k.pcb) : offFree p k' ↔ offFree p k := by
  have hn : k'.next = k.next := by
    unfold Kernel.next
    rw [hp]
  unfold offFree members
  rw [hn]

/-- The current process is one of them. -/
theorem offFree_current (h : Sound k Q) (hc : k.current ≠ .idle) : offFree k.current k :=
  (offFree_iff h).mpr ⟨h.placed.current_mem hc, h.placed.apart .free⟩

/-- Only its own exit puts a process on `free_list`. -/
theorem offFree_step {e : Event} (h : Sound k Q) (hk : step k e = .ok k') (ht : offFree p k)
    (he : ¬(e = .sys .exit ∧ p = k.current)) : offFree p k' := by
  rw [offFree_iff h] at ht
  rw [offFree_iff (sound_step h hk).1]
  refine ⟨ht.1, fun hp => ?_⟩
  rcases of_mem_stepQueues_free hp with hfree | hexit
  · exact ht.2 hfree
  · exact he hexit

/-- A fork prepares a process that was on `free_list`. -/
theorem not_offFree_of_fork (h : Sound k Q) (hk : step k (.sys .fork) = .ok k') :
    ¬offFree (.pcb k.pNum) k := by
  simp only [step] at hk
  split_ifs at hk
  rw [offFree_iff h]
  exact fun ht => ht.2 (forkAux_placed h.placed hk).1

/-- An event of the kernel leaves the frame of a process alone that does not run. -/
theorem tf_of_other {e : Event} (h : Sound k Q) (hk : step k e = .ok k') (ht : offFree p k)
    (hp : p ≠ k.current) (f : TfField) : k'.tf p f = k.tf p f := by
  apply kmem_of_step h hk
  · exact fun hx => hp hx.1
  · rintro rfl rfl
    exact not_offFree_of_fork h hk ht

/-! ### Its frame stays -/

/-- What a trap does to the kernel, if it interrupts no waiting read: one event after the frame has
been pushed. -/
theorem Kept.event_of_trap (h : Kept w Q) (hw : w.kernel.waiting = none) (he : ev.irq = some irq)
    (hs : watchedStep addr w ev = .ok w') :
    ∃ e k', step (enter addr irq w.toMachine).2 e = .ok k' ∧ w'.kernel.pcb = k'.pcb ∧
      w'.kernel.kmem = k'.kmem := by
  obtain ⟨m', hm, hs⟩ := bind_eq_ok.mp hs
  obtain rfl := Except.ok.inj hs
  have hker : (watch addr w ev m').kernel = m'.kernel := by
    simp [watch, he, hw]
  rw [hker]
  obtain ⟨k', hk, ⟨c, -, -, rfl⟩ | ⟨-, rfl⟩⟩ := machineStep_trap he hm
  · obtain ⟨e, hstep, -⟩ := h.handled hw he hm hk
    exact ⟨e, k', hstep, rfl, rfl⟩
  · obtain ⟨e, hstep, -⟩ := h.handled hw he hm hk
    exact ⟨e, k', hstep, rfl, rfl⟩

/-- A trap of the running code, whoever it is. -/
theorem frame_of_trap (h : Kept w Q) (hw : w.kernel.waiting = none) (he : ev.irq = some irq)
    (ht : offFree p w.kernel) (hp : p ≠ w.kernel.current) (hs : watchedStep addr w ev = .ok w') :
    offFree p w'.kernel ∧ ∀ f, w'.kernel.tf p f = w.kernel.tf p f := by
  obtain ⟨e, k', hstep, hpcb, hkmem⟩ := h.event_of_trap hw he hs
  have hs1 := (h.stored_enter addr hw irq).sound
  have ht1 : offFree p (enter addr irq w.toMachine).2 := (offFree_congr rfl).mpr ht
  constructor
  · rw [offFree_congr hpcb]
    exact offFree_step hs1 hstep ht1 fun hx => hp hx.2
  · intro f
    calc w'.kernel.tf p f = k'.tf p f := by rw [Kernel.tf, hkmem, Kernel.tf]
      _ = (enter addr irq w.toMachine).2.tf p f := tf_of_other hs1 hstep ht1 hp f
      _ = w.kernel.tf p f := by
        rw [h.enter_tf addr hw irq, if_neg fun hx => hp hx.1]

/-- A device interrupt of a waiting read. -/
theorem frame_of_nested (h : Kept w Q) (hw : w.kernel.waiting.isSome)
    (he : ev = .timer ∨ ∃ c, ev = .key c) (ht : offFree p w.kernel)
    (hs : watchedStep addr w ev = .ok w') :
    offFree p w'.kernel ∧ ∀ f, w'.kernel.tf p f = w.kernel.tf p f := by
  obtain ⟨m', hm, hs⟩ := bind_eq_ok.mp hs
  obtain rfl := Except.ok.inj hs
  have hirq : ∃ irq, ev.irq = some irq ∧ Resumed addr irq w m' ∧ Sound m'.kernel Q := by
    rcases he with rfl | ⟨c, rfl⟩
    · exact ⟨_, rfl, OsLab.interrupt_waiting h hw (.inl rfl) hm⟩
    · exact ⟨_, rfl, OsLab.interrupt_waiting h hw (.inr rfl) hm⟩
  obtain ⟨irq, hirq, hr, hs1⟩ := hirq
  have hker : (watch addr w ev m').kernel = m'.kernel := by
    simp [watch, hirq, hw]
  rw [hker, offFree_iff hs1, ← offFree_iff h.stored.sound]
  exact ⟨ht, hr.frames p⟩

/-- **The frame of a process that does not run stays as it is.** -/
theorem frame_of_step (h : Kept w Q) (ht : offFree p w.kernel) (hn : ¬runsNow p w)
    (hs : watchedStep addr w ev = .ok w') :
    offFree p w'.kernel ∧ ∀ f, w'.kernel.tf p f = w.kernel.tf p f := by
  have hne : w.kernel.waiting = none → p ≠ w.kernel.current := fun hw hc => hn ⟨hc.symm, hw⟩
  have hquiet : ev.irq = none → w'.kernel.pcb = w.kernel.pcb → w'.kernel.kmem = w.kernel.kmem →
      offFree p w'.kernel ∧ ∀ f, w'.kernel.tf p f = w.kernel.tf p f := by
    intro _ hpcb hkmem
    refine ⟨(offFree_congr hpcb).mpr ht, fun f => ?_⟩
    rw [Kernel.tf, hkmem, Kernel.tf]
  cases ev with
  | user regs mem =>
    obtain ⟨m', hm, hs⟩ := bind_eq_ok.mp hs
    obtain rfl := Except.ok.inj hs
    simp only [machineStep] at hm
    split_ifs at hm
    obtain rfl := Except.ok.inj hm
    exact hquiet rfl rfl rfl
  | spin eip =>
    obtain ⟨m', hm, hs⟩ := bind_eq_ok.mp hs
    obtain rfl := Except.ok.inj hs
    simp only [machineStep] at hm
    split_ifs at hm
    obtain rfl := Except.ok.inj hm
    exact hquiet rfl rfl rfl
  | poll cx =>
    obtain ⟨m', hm, hs⟩ := bind_eq_ok.mp hs
    obtain rfl := Except.ok.inj hs
    simp only [machineStep] at hm
    split at hm
    · cases hm
    · obtain ⟨k1, hk, hm⟩ := bind_eq_ok.mp hm
      have hpcb : k1.pcb = w.kernel.pcb := by rw [(pollRead_polled hk).rest]
      have hkmem : k1.kmem = w.kernel.kmem := by rw [(pollRead_polled hk).rest]
      split_ifs at hm
      · obtain rfl := Except.ok.inj hm
        exact hquiet rfl hpcb hkmem
      · obtain rfl := Except.ok.inj hm
        exact hquiet rfl hpcb hkmem
  | int80 cx =>
    -- a process in ring 3 does not wait
    have hw : w.kernel.waiting = none := by
      by_contra hx
      obtain ⟨m', hm, -⟩ := bind_eq_ok.mp hs
      have hu := isUser_of_int80 hm
      rw [(h.waits (Option.isSome_iff_ne_none.mpr hx)).1] at hu
      cases hu
    exact frame_of_trap h hw rfl ht (hne hw) hs
  | timer =>
    by_cases hw : w.kernel.waiting = none
    · exact frame_of_trap h hw rfl ht (hne hw) hs
    · exact frame_of_nested h (Option.isSome_iff_ne_none.mpr hw) (.inl rfl) ht hs
  | key scanCode =>
    by_cases hw : w.kernel.waiting = none
    · exact frame_of_trap h hw rfl ht (hne hw) hs
    · exact frame_of_nested h (Option.isSome_iff_ne_none.mpr hw) (.inr ⟨scanCode, rfl⟩) ht hs

/-- The same over a run. -/
theorem frame_of_run (h : Kept w Q) (ht : offFree p w.kernel)
    (hr : Reaches (watchedStep addr) (fun w _ => ¬runsNow p w) w es w') :
    (∃ Q', Kept w' Q') ∧ offFree p w'.kernel ∧ ∀ f, w'.kernel.tf p f = w.kernel.tf p f := by
  induction hr with
  | nil => exact ⟨⟨Q, h⟩, ht, fun _ => rfl⟩
  | snoc _ hn hs ih =>
    obtain ⟨⟨Q1, h1⟩, ht1, hf1⟩ := ih
    obtain ⟨ht2, hf2⟩ := frame_of_step h1 ht1 hn hs
    exact ⟨kept_step h1 hs, ht2, fun f => (hf2 f).trans (hf1 f)⟩

/-! ### And is where it goes on -/

/-- Who has the CPU after a trap has the registers in its frame. -/
theorem regs_of_trap (h : Kept w Q) (hs : watchedStep addr w ev = .ok w')
    (hev : ev.irq.isSome ∨ ∃ c, ev = .poll c) (hp : p ∈ procs) (hr : runsNow p w') (f : TfField) :
    w'.regs f = w'.kernel.tf p f := by
  obtain ⟨Q', h'⟩ := kept_step h hs
  have hne : w'.kernel.current ≠ .idle := fun hi => idle_not_mem_procs (hi ▸ hr.1 ▸ hp)
  rw [(h'.restored hs hev hr.2).2 f fun _ => hne, hr.1]

/-- Nobody gets the CPU without a trap. -/
theorem trap_of_runs (hn : ¬runsNow p w) (hs : watchedStep addr w ev = .ok w') (hr : runsNow p w') :
    ev.irq.isSome ∨ ∃ c, ev = .poll c := by
  obtain ⟨m', hm, hs⟩ := bind_eq_ok.mp hs
  obtain rfl := Except.ok.inj hs
  cases ev with
  | user regs mem =>
    simp only [machineStep] at hm
    split_ifs at hm
    obtain rfl := Except.ok.inj hm
    exact absurd hr hn
  | spin eip =>
    simp only [machineStep] at hm
    split_ifs at hm
    obtain rfl := Except.ok.inj hm
    exact absurd hr hn
  | poll c => exact .inr ⟨c, rfl⟩
  | timer => exact .inl rfl
  | key _ => exact .inl rfl
  | int80 _ => exact .inl rfl

/-- **A process that gets the CPU back** has the registers that were in its frame after the trap that
took it away. -/
theorem regs_of_back (h : Kept w Q) (hs : watchedStep addr w ev = .ok w1) (hev : ev.irq.isSome)
    (ht : offFree p w1.kernel) (haway : Reaches (watchedStep addr) (fun w' _ => ¬runsNow p w') w1 fs w2)
    (hback : runsNow p w2) (f : TfField) : w2.regs f = w1.kernel.tf p f := by
  obtain ⟨Q1, h1⟩ := kept_step h hs
  cases haway with
  | nil => exact regs_of_trap h hs (.inl hev) ht.1 hback f
  | snoc hr hn hlast =>
    obtain ⟨⟨Q', h'⟩, ht', hf'⟩ := frame_of_run h1 ht hr
    obtain ⟨-, hf2⟩ := frame_of_step h' ht' hn hlast
    calc w2.regs f = w2.kernel.tf p f :=
          regs_of_trap h' hlast (trap_of_runs hn hlast hback) ht.1 hback f
      _ = _ := hf2 f
      _ = w1.kernel.tf p f := hf' f

/-! ### System calls -/

/-- The fields of a frame that are registers. -/
def TfField.isReg : TfField → Bool
  | .irq | .error | .xxx => false
  | _ => true

/-- A general register is pushed as it was. -/
theorem trapWord_isReg (irq : UInt32) (top : Ptr) (regs : Regs) {f : TfField} (hf : f.isReg) :
    trapWord addr irq top regs f = regs f := by
  cases f <;> first | rfl | cases hf

/-- `int $0x80` runs the handler of the call that the registers ask for. -/
structure Calls (addr : Node → ℕ) (w : Watched) (c : Syscall) (w1 : Watched) (k' : Kernel) : Prop where
  waiting : w.kernel.waiting = none
  current : w.kernel.current ≠ .idle
  handled : step (enter addr 0x80 w.toMachine).2 (.sys c) = .ok k'
  pcb : w1.kernel.pcb = k'.pcb
  kmem : w1.kernel.kmem = k'.kmem
  /-- The frame that the handler works on. -/
  frame : ∀ f, f.isReg → (enter addr 0x80 w.toMachine).2.tf w.kernel.current f = w.regs f

/-- The `int 0x80` of a process is a call of the kernel. -/
theorem calls_of_int80 (h : Kept w Q) (hs : watchedStep addr w (.int80 cx) = .ok w1)
    (hc : decodeRegs w.regs = some c) : ∃ k', Calls addr w c w1 k' := by
  obtain ⟨m', hm, hs⟩ := bind_eq_ok.mp hs
  obtain rfl := Except.ok.inj hs
  have hu := isUser_of_int80 hm
  have hw : w.kernel.waiting = none := by
    by_contra hx
    rw [(h.waits (Option.isSome_iff_ne_none.mpr hx)).1] at hu
    cases hu
  have hne : w.kernel.current ≠ .idle := by
    intro hi
    rw [(h.idles hw hi).1] at hu
    cases hu
  have hframe : ∀ f, f.isReg →
      (enter addr 0x80 w.toMachine).2.tf w.kernel.current f = w.regs f := by
    intro f hf
    have hmem : f ∈ pushedFrom (w.regs .cs) := by
      rw [pushedFrom, hu]
      cases f <;> decide
    rw [h.enter_tf addr hw, if_pos ⟨rfl, hmem⟩, trapWord_isReg _ _ _ hf]
  have hvec := h.vector addr hw 0x80
  have harg := fun f hf => h.argument addr hw 0x80 (f := f) hf
  have hcall : ∀ k', irqSwitch 0 (enter addr 0x80 w.toMachine).1 (enter addr 0x80 w.toMachine).2 =
      .ok k' → step (enter addr 0x80 w.toMachine).2 (.sys c) = .ok k' := by
    intro k' hk
    have hk : syscallHandle (enter addr 0x80 w.toMachine).1 (enter addr 0x80 w.toMachine).2 =
        .ok k' := by
      simpa [irqSwitch, hvec] using hk
    obtain ⟨-, -, hk⟩ := bind_eq_ok.mp hk
    dsimp only at hk
    rw [harg .eax rfl, harg .ebx rfl, harg .ecx rfl, harg .edx rfl,
      show decodeSyscall _ _ _ _ = some c from hc] at hk
    exact (if_pos (show userMode (enter addr 0x80 w.toMachine).2 from ⟨hne, hw⟩)).trans hk
  have hker : (watch addr w (.int80 cx) m').kernel = m'.kernel := by
    simp [watch, TrapEvent.irq, hw]
  obtain ⟨k', hk, ⟨_, -, -, rfl⟩ | ⟨-, rfl⟩⟩ := machineStep_trap rfl hm
  · exact ⟨k', hw, hne, hcall k' hk, by rw [hker]; rfl, by rw [hker]; rfl, hframe⟩
  · exact ⟨k', hw, hne, hcall k' hk, by rw [hker]; rfl, by rw [hker]; rfl, hframe⟩

/-- What a call returns does not depend on the frames. -/
theorem returned_enter (addr : Node → ℕ) (w : Watched) (c : Syscall) :
    resultOf (enter addr 0x80 w.toMachine).2 c = resultOf w.kernel c := by
  cases c <;> rfl

/-- **The frame of the caller** after the handler. -/
theorem Calls.caller (h : Kept w Q) (hk : Calls addr w c w1 k') (hc : decodeRegs w.regs = some c) :
    w1.kernel.tf w.kernel.current .eax = wordOf (resultOf w.kernel c) ∧
      ∀ f, f.isReg → f ≠ .eax → w1.kernel.tf w.kernel.current f = w.regs f := by
  have hs1 := (h.stored_enter addr hk.waiting 0x80).sound
  have htf : w1.kernel.tf = k'.tf := by
    unfold Kernel.tf
    rw [hk.kmem]
  rw [htf]
  constructor
  · rw [← returned_enter addr]
    apply eax_of_call hs1 hk.handled
    exact (hk.frame .eax rfl).trans (number_of_decode hc)
  · intro f hf hne
    rw [← hk.frame f hf]
    apply tf_of_step hs1 hk.handled hne
    rintro hfork hp
    obtain rfl := Event.sys.inj hfork
    have ht : offFree (enter addr 0x80 w.toMachine).2.current (enter addr 0x80 w.toMachine).2 :=
      offFree_current hs1 hk.current
    exact not_offFree_of_fork hs1 hk.handled (hp ▸ ht)

/-- **The frame of the child** after a fork, and its place. -/
theorem Calls.child (h : Kept w Q) (hk : Calls addr w .fork w1 k') :
    offFree (.pcb w.kernel.pNum) w1.kernel ∧ ∀ f, w1.kernel.tf (.pcb w.kernel.pNum) f =
      forkFrame (enter addr 0x80 w.toMachine).2 f := by
  have hs1 := (h.stored_enter addr hk.waiting 0x80).sound
  have hstep := hk.handled
  simp only [step] at hstep
  split_ifs at hstep
  obtain ⟨hfree, -, -, nx, hforked⟩ := forkAux_placed hs1.placed hstep
  constructor
  · rw [offFree_congr hk.pcb, offFree_iff (sound_step hs1 hk.handled).1]
    refine ⟨hs1.placed.lists.procs _ _ hfree, ?_⟩
    -- it has come off the list
    simp only [stepQueues, forkQueues]
    rw [Queues.push_of_ne _ _ (by simp), Function.update_self]
    exact (hs1.placed.lists.rep.nodup .free).not_mem_erase
  · intro f
    rw [Kernel.tf, hk.kmem, hforked]
    exact tf_child_of_fork (hs1.placed.ne_current hfree) f nx

/-- **A system call returns** to where it was made, with all registers as they were but `eax`,
whatever happens until the caller runs again. -/
theorem call_returns {img : Image} {regs rest : Regs} {call : LibCall} (hb : boot img = .ok k)
    (hcs : isUser (regs .cs) = false) (hr : run (watchedStep addr) (.start k regs) es = .ok w)
    (hregs : w.regs = call.regs rest) (hcall : watchedStep addr w (.int80 cx) = .ok w1)
    (hexit : call ≠ .exit)
    (haway : Reaches (watchedStep addr) (fun w' _ => ¬runsNow w.kernel.current w') w1 fs w2)
    (hback : runsNow w.kernel.current w2) :
    w2.regs .eax = wordOf (resultOf w.kernel call.syscall) ∧
      ∀ f, f.isReg → f ≠ .eax → w2.regs f = w.regs f := by
  obtain ⟨Q, h⟩ := kept_run (kept_start hb hcs) hr
  have hdec : decodeRegs w.regs = some call.syscall := by
    rw [hregs]
    exact decode_regs call rest
  obtain ⟨k', hk⟩ := calls_of_int80 h hcall hdec
  have hs1 := (h.stored_enter addr hk.waiting 0x80).sound
  have ht : offFree w.kernel.current w1.kernel := by
    rw [offFree_congr hk.pcb]
    apply offFree_step hs1 hk.handled (offFree_current hs1 hk.current)
    rintro ⟨he, -⟩
    apply hexit
    cases call <;> first | rfl | cases he
  have hregs2 := regs_of_back h hcall rfl ht haway hback
  obtain ⟨heax, hrest⟩ := hk.caller h hdec
  constructor
  · rw [hregs2]
    exact heax
  · intro f hf hne
    rw [hregs2]
    exact hrest f hf hne

/-- The registers of the first process, but for a call. -/
def ring3 : Regs := fun f => if f = .cs then USEL SEG_UCODE1 else 0

/-- The first process gets the CPU and calls a function of the library. -/
def firstCall (call : LibCall) : List TrapEvent :=
  .replicate 10 .timer ++ [.user (call.regs ring3) fun _ => 0]

/-- The registers at the first call of a process. -/
theorem regs_firstCall {call : LibCall}
    (hr : run (watchedStep addr) w (firstCall call) = .ok w') : w'.regs = call.regs ring3 := by
  obtain ⟨w0, -, hs⟩ := run_snoc_eq_ok.mp hr
  obtain ⟨m', hm, hs⟩ := bind_eq_ok.mp hs
  obtain rfl := Except.ok.inj hs
  simp only [machineStep] at hm
  split_ifs at hm
  obtain rfl := Except.ok.inj hm
  rfl

/-- The first process makes the call, and `p` runs again after the events `fs`, with all that happens
in between. -/
theorem exists_firstCall (call : LibCall) (cx : WaitContext) (p : Kernel → Node)
    (fs : List TrapEvent) (h : okAnd (boot .blank >>= fun k =>
      run (watchedStep fun _ => 0) (.start k fun _ => 0) (firstCall call) >>= fun w =>
        watchedStep (fun _ => 0) w (.int80 cx) >>= fun w1 => .ok (w.kernel, w1)) (fun (k, w1) =>
      match checkedRun (watchedStep fun _ => 0) (fun w' _ => ¬runsNow (p k) w') w1 fs with
      | some w2 => runsNow (p k) w2
      | none => false)) :
    ∃ k w w1 w2, boot .blank = .ok k ∧
      run (watchedStep fun _ => 0) (.start k fun _ => 0) (firstCall call) = .ok w ∧
      watchedStep (fun _ => 0) w (.int80 cx) = .ok w1 ∧
      Reaches (watchedStep fun _ => 0) (fun w' _ => ¬runsNow (p w.kernel) w') w1 fs w2 ∧
      runsNow (p w.kernel) w2 := by
  obtain ⟨⟨k', w1⟩, hrun, hback⟩ := okAnd_eq_true.mp h
  obtain ⟨k, hb, hrun⟩ := bind_eq_ok.mp hrun
  obtain ⟨w, hr, hrun⟩ := bind_eq_ok.mp hrun
  obtain ⟨w1', hcall, hrun⟩ := bind_eq_ok.mp hrun
  obtain ⟨rfl, rfl⟩ := Prod.mk.inj (Except.ok.inj hrun)
  dsimp only at hback
  split at hback
  · next w2 hw2 =>
    exact ⟨k, w, w1', w2, hb, hr, hcall, .of_checkedRun hw2, of_decide_eq_true hback⟩
  · cases hback

/-- What a waiting read looks like to the compiler. -/
def waitContext : WaitContext := ⟨fun _ => 0, 100, isUser_zero, hundred_fits⟩

/-- A sleep of one tick: the registers come back, `eax` among them. -/
theorem call_returns_sleep :
    ∃ k w w1 w2, boot .blank = .ok k ∧
      run (watchedStep fun _ => 0) (.start k fun _ => 0) (firstCall (.sleep 1)) = .ok w ∧
      watchedStep (fun _ => 0) w (.int80 waitContext) = .ok w1 ∧
      run (watchedStep fun _ => 0) w1 (.key 30 :: .replicate 10 .timer) = .ok w2 ∧
      w2.regs .eax = wordOf 162 ∧ ∀ f, f.isReg → f ≠ .eax → w2.regs f = w.regs f := by
  obtain ⟨k, w, w1, w2, hb, hr, hcall, haway, hback⟩ := exists_firstCall (.sleep 1)
    waitContext (fun k => k.current) (.key 30 :: .replicate 10 .timer) (by decide +kernel)
  obtain ⟨heax, hrest⟩ := call_returns hb (by decide) hr (regs_firstCall hr) hcall (by simp) haway hback
  exact ⟨k, w, w1, w2, hb, hr, hcall, haway.run_eq, heax, hrest⟩

/-- **A fork returns twice**: the child goes on where its parent does, with 0 in `eax` and the
selectors of its own segments. -/
theorem fork_starts_child {img : Image} {regs rest : Regs} (hb : boot img = .ok k)
    (hcs : isUser (regs .cs) = false) (hr : run (watchedStep addr) (.start k regs) es = .ok w)
    (hregs : w.regs = LibCall.fork.regs rest) (hcall : watchedStep addr w (.int80 cx) = .ok w1)
    (haway : Reaches (watchedStep addr) (fun w' _ => ¬runsNow (.pcb w.kernel.pNum) w') w1 fs w2)
    (hback : runsNow (.pcb w.kernel.pNum) w2) :
    w2.regs .eax = 0 ∧ w2.regs .cs = USEL SEG_UCODE2 ∧
      (∀ f, f = .ds ∨ f = .es ∨ f = .ss ∨ f = .fs → w2.regs f = USEL SEG_UDATA2) ∧
      w2.regs .gs = KSEL SEG_KDISPLAY ∧
      ∀ f, f = .eip ∨ f = .esp ∨ f = .eflags ∨ f = .ebx ∨ f = .ecx ∨ f = .edx ∨ f = .esi ∨
        f = .edi ∨ f = .ebp → w2.regs f = w.regs f := by
  obtain ⟨Q, h⟩ := kept_run (kept_start hb hcs) hr
  have hdec : decodeRegs w.regs = some .fork := by
    rw [hregs]
    exact decode_regs .fork rest
  obtain ⟨k', hk⟩ := calls_of_int80 h hcall hdec
  obtain ⟨ht, hframe⟩ := hk.child h
  have hregs2 : ∀ f, w2.regs f = forkFrame (enter addr 0x80 w.toMachine).2 f := fun f =>
    (regs_of_back h hcall rfl ht haway hback f).trans (hframe f)
  refine ⟨hregs2 .eax, hregs2 .cs, ?_, hregs2 .gs, ?_⟩
  · rintro f (rfl | rfl | rfl | rfl) <;> exact hregs2 _
  · rintro f (rfl | rfl | rfl | rfl | rfl | rfl | rfl | rfl | rfl) <;>
      exact (hregs2 _).trans (hk.frame _ rfl)

/-- A fork: the child starts where the caller made it, with 0 as its answer. -/
theorem fork_starts_child_second :
    ∃ k w w1 w2, boot .blank = .ok k ∧
      run (watchedStep fun _ => 0) (.start k fun _ => 0) (firstCall .fork) = .ok w ∧
      watchedStep (fun _ => 0) w (.int80 waitContext) = .ok w1 ∧
      run (watchedStep fun _ => 0) w1 (.replicate 10 .timer) = .ok w2 ∧
      w2.regs .eax = 0 ∧ w2.regs .eip = w.regs .eip := by
  obtain ⟨k, w, w1, w2, hb, hr, hcall, haway, hback⟩ := exists_firstCall .fork waitContext
    (fun k => .pcb k.pNum) (.replicate 10 .timer) (by decide +kernel)
  obtain ⟨heax, -, -, -, hrest⟩ :=
    fork_starts_child hb (by decide) hr (regs_firstCall hr) hcall haway hback
  exact ⟨k, w, w1, w2, hb, hr, hcall, haway.run_eq, heax, hrest .eip (.inl rfl)⟩

end OsLab
