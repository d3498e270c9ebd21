import OsLab.Kernel.Files
import OsLab.Kernel.Boot

/-!
# Events and runs

The kernel moves when a timer interrupt, a key press or a system call arrives; in between the
current process runs and stores to its memory. A system call or a store is made by the current
process, which is not `idle`, and not while that process waits inside a `stdin` read; interrupts can
arrive at any time. After an interrupt that arrived during such a read the loop of
`wait_for_keyboard` goes round once more (`resume`).

`step` is a deterministic function of the state and the event, so a run is a list of events
(`Lib.run`, `Lib.Reaches`). An `assert` that fails, or an access outside an object, ends the run.
-/

namespace OsLab

open OsLab.Lib

/-- The system calls of `syscallHandle`, with their arguments as the handler reads them from the
trap frame. -/
inductive Syscall
  | exit
  | fork
  | read (fd : ℤ) (buf : ℕ) (len : ℤ)
  | write (fd : ℤ) (buf : ℕ) (len : ℤ)
  | seek (fd offset whence : ℤ)
  | openPath (path : ℕ) (flags : ℤ)
  | close (fd : ℤ)
  | remove (path : ℕ)
  | semInit (sem : ℕ) (value : ℤ)
  | semDestroy (sem : ℕ)
  | semWait (sem : ℕ)
  | semPost (sem : ℕ)
  | ls (path : ℕ)
  | cat (path : ℕ)
  | sleep (n : ℤ)
  deriving DecidableEq, Repr

/-- The branches of `syscallHandle`. -/
def doSyscall (k : Kernel) : Syscall → Except Stop Kernel
  | .exit => exitAux k
  | .fork => forkAux k
  | .read fd buf len => readAux fd buf len k
  | .write fd buf len => writeAux fd buf len k
  | .seek fd offset whence => lseekAux fd offset whence k
  | .openPath path _ => openAux path k
  | .close fd => closeAux fd k
  | .remove path => removeAux path k
  | .semInit sem value => semInitAux sem value k
  | .semDestroy _ => semDestroyAux k
  | .semWait sem => semWaitAux sem k
  | .semPost sem => semPostAux sem k
  | .ls path => lsAux path k
  | .cat path => catAux path k
  | .sleep n => sleepAux n k

/-- The `switch` of `syscallHandle` on `tf->eax`, with the arguments from `tf->ebx`, `tf->ecx` and
`tf->edx`; `none` is the `default` branch. -/
def decodeSyscall (eax ebx ecx edx : UInt32) : Option Syscall :=
  match eax.toNat with
  | 1 => some .exit
  | 2 => some .fork
  | 3 => some (.read (intOf ebx) ecx.toNat (intOf edx))
  | 4 => some (.write (intOf ebx) ecx.toNat (intOf edx))
  | 11 => some (.seek (intOf ebx) (intOf ecx) (intOf edx))
  | 5 => some (.openPath ebx.toNat (intOf ecx))
  | 6 => some (.close (intOf ebx))
  | 12 => some (.remove ebx.toNat)
  | 7 => some (.semInit ebx.toNat (intOf ecx))
  | 8 => some (.semDestroy ebx.toNat)
  | 9 => some (.semWait ebx.toNat)
  | 10 => some (.semPost ebx.toNat)
  | 13 => some (.ls ebx.toNat)
  | 14 => some (.cat ebx.toNat)
  | 162 => some (.sleep (intOf ebx))
  | _ => none

/-- `syscallHandle`. -/
def syscallHandle (tf : Ptr) (k : Kernel) : Except Stop Kernel := do
  assert (tfPtr k.current = tf)
  let reg := fun f : TfField => k.kmem tf.node (tf.off + f.idx)
  match decodeSyscall (reg .eax) (reg .ebx) (reg .ecx) (reg .edx) with
  | none => .error .abort
  | some c => doSyscall k c

/-- What can happen to the kernel. -/
inductive Event
  | timer
  | key (scanCode : ℕ)
  | store (a : ℕ) (b : UInt8)
  | sys (c : Syscall)
  deriving DecidableEq, Repr

/-- The loop of `wait_for_keyboard` after an interrupt, if a read waits. -/
def resume (k : Kernel) : Except Stop Kernel :=
  match k.waiting with
  | none => .ok k
  | some (buf, len) => pollRead buf len k

/-- The current process is a process and runs user code. -/
def userMode (k : Kernel) : Prop := k.current ≠ .idle ∧ k.waiting = none

/-- Whether a process runs user code can be computed. -/
instance (k : Kernel) : Decidable (userMode k) := inferInstanceAs (Decidable (_ ∧ _))

/-- The physical address of address `a` in the data segment of process `p`. -/
def dataAddr (p : Node) (a : ℕ) (k : Kernel) : ℕ := (segBase (k.tf p .ds) + a) % 2 ^ 32

/-- A store of the current process. Its memory is all of `mem`; that it is away from the `sem_t` objects
and the kernel's own data is assumed (`AwayFromKernel`). -/
def userStore (a : ℕ) (b : UInt8) (k : Kernel) : Kernel :=
  { k with mem := Function.update k.mem (dataAddr k.current a k) b }

/-- One event. The trap frame of a timer interrupt is only looked at when no read waits; it is then
that of the current process. -/
def step (k : Kernel) : Event → Except Stop Kernel
  | .timer => timerHandle (tfPtr k.current) k >>= resume
  | .key scanCode => keyboardHandle scanCode k >>= resume
  | .store a b => if userMode k then .ok (userStore a b k) else .error .disabled
  | .sys c => if userMode k then doSyscall k c else .error .disabled

/-- A system call leaves no object if its handler leaves none. -/
theorem step_sys_not_wild {k : Kernel} {c : Syscall} {w : Access}
    (h : userMode k → doSyscall k c ≠ .error (.wild w)) : step k (.sys c) ≠ .error (.wild w) := by
  rw [step]
  split_ifs with hu
  · exact h hu
  · simp

/-- A run from the state after start-up. -/
def runFrom (img : Image) (es : List Event) : Except Stop Kernel := do
  let k ← boot img
  run step k es

/-- A run and one event more. -/
theorem runFrom_snoc_eq_ok {img : Image} {es : List Event} {e : Event} {k' : Kernel} :
    runFrom img (es ++ [e]) = .ok k' ↔ ∃ k, runFrom img es = .ok k ∧ step k e = .ok k' := by
  unfold runFrom
  simp only [bind_eq_ok, run_snoc_eq_ok]
  constructor
  · rintro ⟨k0, hb, k, hr, hs⟩
    exact ⟨k, ⟨k0, hb, hr⟩, hs⟩
  · rintro ⟨k, ⟨k0, hb, hr⟩, hs⟩
    exact ⟨k0, hb, k, hr, hs⟩

/-- What holds after start-up and is kept by every event holds in every state reached. -/
theorem runFrom_invariant {img : Image} {es : List Event} {k : Kernel} {P : Kernel → Prop}
    (hk : runFrom img es = .ok k) (h0 : ∀ k, boot img = .ok k → P k)
    (hstep : ∀ k k' e, P k → step k e = .ok k' → P k') : P k := by
  obtain ⟨k0, hb, hr⟩ := bind_eq_ok.mp hk
  apply run_invariant (G := fun _ => True) hr (fun _ _ => trivial) (h0 k0 hb)
  intro t t' e hP _ hs
  exact hstep t t' e hP hs

/-- A run from start-up, with a condition checked before every step. -/
def checkedFrom (img : Image) (ok : Kernel → Event → Bool) (es : List Event) : Option Kernel :=
  match boot img with
  | .ok k => checkedRun step (fun k e => ok k e) k es
  | .error _ => none

/-- A checked run is a run whose events all met the condition. -/
theorem reaches_of_checkedFrom {img : Image} {ok : Kernel → Event → Bool} {es : List Event}
    {k : Kernel} (h : checkedFrom img ok es = some k) :
    ∃ k0, boot img = .ok k0 ∧ Reaches step (fun k e => ok k e) k0 es k := by
  unfold checkedFrom at h
  split at h
  · next k0 hb => exact ⟨k0, hb, .of_checkedRun h⟩
  · cases h

end OsLab
