import OsLab.Scheduler.Start
import OsLab.Files.Calls

/-!
# The process table in every run

`stepQueues` and `stepNext` say what an event does to the four lists and to `current`, as functions
of the queues alone. `Sound` is what holds in every state the kernel can reach, whatever the
processes do; `sound_step` shows that every event keeps it and moves the processes as `stepQueues`
and `stepNext` say. What else an event does is read off `Does` (`does_of_step`), so that nothing
behind this file has to look at the handlers for it.

`Complete` is not part of it: a second `sem_init_aux` empties a list with processes on it. It is
kept by every other event (`Complete.step`).
-/

namespace OsLab

open OsLab.Lib

variable {k k' : Kernel} {Q : Queues} {e : Event}

/-- The queues after an event. -/
def stepQueues (k : Kernel) (Q : Queues) : Event → Queues
  | .timer => if k.intrNesting then Q else timerQueues k Q
  | .sys .exit => schedQueues .dead k.current Q
  | .sys .fork => forkQueues k Q
  | .sys (.sleep _) => schedQueues .blocked k.current Q
  | .sys (.semInit _ _) => Function.update Q .sem []
  | .sys (.semWait a) => if blocks a k then schedQueues .semBlocked k.current Q else Q
  | .sys (.semPost a) => if (k.sem a).value < 0 then wakeQueues Q else Q
  | _ => Q

/-- The current process after an event. -/
def stepNext (k : Kernel) (Q : Queues) : Event → Node
  | .timer => if k.intrNesting then k.current else timerNext k Q
  | .sys .exit => schedNext .dead k.current Q
  | .sys (.sleep _) => schedNext .blocked k.current Q
  | .sys (.semWait a) => if blocks a k then schedNext .semBlocked k.current Q else k.current
  | _ => k.current

/-- What holds in every state the kernel reaches. -/
structure Sound (k : Kernel) (Q : Queues) : Prop where
  placed : Placed k Q .running
  /-- A semaphore's list, once set, is the one behind `dummysem`. -/
  sems : ∀ a, (k.sem a).list = none ∨ (k.sem a).list = some .dummysem
  /-- `intr_nesting` says that a read waits. -/
  nesting : k.intrNesting = k.waiting.isSome
  /-- It is a process that reads. -/
  reader : k.waiting.isSome → k.current ≠ .idle
  top : StackTop k

/-- Start-up puts every process in its place. -/
theorem sound_boot {img : Image} (hb : boot img = .ok k) : Sound k startQueues := by
  obtain ⟨hp, nx, rfl⟩ := placed_boot hb
  exact ⟨hp, fun _ => .inl rfl, rfl, fun h => (Bool.false_ne_true h).elim, fun h => absurd rfl h⟩

/-- A semaphore list that can be walked is the one behind `dummysem`. -/
theorem psemList_eq (hs : ∀ a, (k.sem a).list = none ∨ (k.sem a).list = some .dummysem) {p : Node}
    (hp : psemList k = .ok p) : p = .dummysem := by
  unfold psemList at hp
  split at hp
  · cases hp
  · rename_i a _
    rcases hs a with h | h
    · simp [h] at hp
    · simpa [h, eq_comm] using hp

/-- The memory of the PCBs does not matter. -/
theorem Sound.kmem (h : Sound k Q) (hk : OnlyKmem k k') : Sound k' Q := by
  unfold OnlyKmem at hk
  rw [hk]
  exact ⟨h.placed.congr rfl rfl rfl (fun _ => rfl) fun _ => rfl, h.sems, h.nesting, h.reader, h.top⟩

/-! ### One lemma for each kind of event -/

/-- Sound through a change that only reschedules. -/
theorem Sound.rescheduled {Q' : Queues} (h : Sound k Q) (hw : k.waiting = none)
    (hp : Placed k' Q' .running) (hr : Rescheduled k k') (ht : StackTop k → StackTop k') :
    Sound k' Q' := by
  have hw' : k'.waiting = none := by rw [hr.waiting, hw]
  refine ⟨hp, ?_, ?_, ?_, ht h.top⟩
  · rw [hr.sem]; exact h.sems
  · rw [hr.intrNesting, hr.waiting]; exact h.nesting
  · simp [hw']

/-- A call on files leaves the places as they are. -/
theorem Sound.fileCall (h : Sound k Q) (hf : FileCall k k') : Sound k' Q where
  placed := h.placed.congr hf.current hf.pNum hf.next hf.state hf.pid
  sems := by rw [hf.sem]; exact h.sems
  nesting := by rw [hf.intrNesting, hf.waiting]; exact h.nesting
  reader := by rw [hf.waiting, hf.current]; exact h.reader
  top := by unfold StackTop; rw [hf.current, hf.esp0]; exact h.top

/-- So does a round of a read. -/
theorem Sound.polled (h : Sound k Q) (hc : k.current ≠ .idle) (hp : Polled k k') : Sound k' Q where
  placed := h.placed.congr (by rw [hp.rest]) (by rw [hp.rest]) (by rw [hp.rest]; rfl)
    (fun _ => by rw [hp.rest]) fun _ => by rw [hp.rest]
  sems := by rw [hp.rest]; exact h.sems
  nesting := hp.nesting
  reader := by rw [hp.rest]; exact fun _ => hc
  top := by rw [hp.rest]; exact h.top

/-- So does the end of a read. -/
theorem Sound.resume (h : Sound k Q) (hk : resume k = .ok k') : Sound k' Q := by
  unfold OsLab.resume at hk
  split at hk
  · obtain rfl := Except.ok.inj hk
    exact h
  · rename_i buf len hw
    exact h.polled (h.reader (by simp [hw])) (pollRead_polled hk)

/-- What `resume` changes, if a read waits. -/
theorem resume_rest (hk : resume k = .ok k') :
    k' = { k with
      intrNesting := k'.intrNesting
      waiting := k'.waiting
      mem := k'.mem
      bufOut := k'.bufOut } := by
  unfold resume at hk
  split at hk
  · rw [Except.ok.inj hk]
  · exact (pollRead_polled hk).rest

/-- `resume` does nothing when no read waits. -/
theorem resume_of_none (hw : k.waiting = none) : resume k = .ok k := by
  simp [resume, hw]

/-- The read that waits goes on. -/
theorem resume_of_some {r : ℕ × ℤ} (hw : k.waiting = some r) : resume k = pollRead r.1 r.2 k := by
  rw [OsLab.resume, hw]

/-- **A timer interrupt** moves the processes as `stepQueues` says. -/
theorem sound_timer (h : Sound k Q) (hk : step k .timer = .ok k') :
    Sound k' (stepQueues k Q .timer) ∧ k'.current = stepNext k Q .timer := by
  obtain ⟨k1, h1, hk⟩ := bind_eq_ok.mp hk
  by_cases hn : k.intrNesting = true
  · -- a read waits: the handler does nothing
    obtain rfl : k = k1 := by simpa [timerHandle, hn] using h1
    simp only [stepQueues, stepNext, hn, if_true]
    exact ⟨h.resume hk, by rw [resume_rest hk]⟩
  · have hn' : k.intrNesting = false := by simpa using hn
    have hw : k.waiting = none := by simpa [hn'] using h.nesting.symm
    obtain ⟨k2, h2, hp, hcur, hr, ht⟩ := timerHandle_placed h.placed hn'
    obtain rfl := Except.ok.inj (h2.symm.trans h1)
    have hw2 : k2.waiting = none := by rw [hr.waiting, hw]
    obtain rfl := Except.ok.inj ((resume_of_none hw2).symm.trans hk)
    simp only [stepQueues, stepNext, hn', Bool.false_eq_true, if_false]
    exact ⟨h.rescheduled hw hp hr ht, hcur⟩

/-- A key leaves the places as they are. -/
theorem Sound.keyboard {scanCode : ℕ} (h : Sound k Q) (hk : keyboardHandle scanCode k = .ok k') :
    Sound k' Q := by
  rw [keyboardHandle_rest hk]
  exact ⟨h.placed.congr rfl rfl rfl (fun _ => rfl) fun _ => rfl, h.sems, h.nesting, h.reader, h.top⟩

/-- **A key interrupt** switches to nobody. -/
theorem sound_key {scanCode : ℕ} (h : Sound k Q) (hk : step k (.key scanCode) = .ok k') :
    Sound k' Q ∧ k'.current = k.current := by
  obtain ⟨k1, h1, hk⟩ := bind_eq_ok.mp hk
  exact ⟨(h.keyboard h1).resume hk, by rw [resume_rest hk, keyboardHandle_rest h1]⟩

/-- **`exit_aux`** gives the process up and lets the next one run. -/
theorem sound_exit (h : Sound k Q) (hu : userMode k) (hk : exitAux k = .ok k') :
    Sound k' (schedQueues .dead k.current Q) ∧ k'.current = schedNext .dead k.current Q := by
  obtain ⟨k2, d, -, h2, hp, hcur, hr, ht⟩ := exitAux_placed h.placed hu.1
  obtain rfl := Except.ok.inj (h2.symm.trans hk)
  refine ⟨⟨hp, ?_, ?_, ?_, ht h.top⟩, hcur⟩
  · rw [hr.sem]; exact h.sems
  · rw [hr.intrNesting, hr.waiting]; exact h.nesting
  · rw [hr.waiting]; simp [hu.2]

/-- **`fork_aux`** makes the child ready and goes on with the caller. -/
theorem sound_fork (h : Sound k Q) (hk : forkAux k = .ok k') :
    Sound k' (forkQueues k Q) ∧ k'.current = k.current := by
  obtain ⟨-, -, hp, nx, rfl⟩ := forkAux_placed h.placed hk
  refine ⟨⟨hp, fun a => ?_, h.nesting, h.reader, h.top⟩, rfl⟩
  change (copySems k.sem a).list = none ∨ (copySems k.sem a).list = some .dummysem
  simp only [copySems]
  split_ifs
  · exact h.sems _
  · exact h.sems _

/-- A change of one semaphore that leaves its list alone or sets it. -/
theorem Sound.setSem (h : Sound k Q) (a : ℕ) (f : Sem → Sem)
    (hf : (f (k.sem a)).list = (k.sem a).list) : Sound (k.setSem a f) Q := by
  refine ⟨h.placed.congr rfl rfl rfl (fun _ => rfl) fun _ => rfl, fun b => ?_, h.nesting,
    h.reader, h.top⟩
  by_cases hb : b = a
  · subst hb; simpa [hf] using h.sems b
  · simpa [hb] using h.sems b

/-- **`sem_wait_aux`** lets the caller go on or puts it behind the others. -/
theorem sound_wait {a : ℕ} (h : Sound k Q) (hu : userMode k) (hk : semWaitAux a k = .ok k') :
    Sound k' (stepQueues k Q (.sys (.semWait a))) ∧
      k'.current = stepNext k Q (.sys (.semWait a)) ∧ Rescheduled (takeSem a (k.setEax 0)) k' := by
  have h1 : Sound (k.setEax 0) Q := h.fileCall (.setEax k 0)
  have htake : Sound (takeSem a (k.setEax 0)) Q := h1.setSem a _ rfl
  simp only [stepQueues, stepNext]
  by_cases hb : blocks a k
  · simp only [hb, if_true]
    -- the call can only return if the caller's `psem` has a list
    have hsched : schedule ((takeSem a (k.setEax 0)).setState k.current .semBlocked) = .ok k' := by
      have hv : i32 ((k.sem a).value - 1) < 0 := hb
      simpa [semWaitAux, P, hv] using hk
    obtain ⟨head, hhead⟩ := psemList_of_schedule (by simp) hsched
    have hps : psemList (takeSem a (k.setEax 0)) = .ok head := by
      rw [← hhead]
      simp [psemList]
    obtain rfl := psemList_eq htake.sems hps
    obtain ⟨k2, h2, hp, hcur, hr, ht⟩ := P_of_blocks h1.placed hu.1 hb hps
    obtain rfl := Except.ok.inj (h2.symm.trans hk)
    exact ⟨htake.rescheduled hu.2 hp hr ht, hcur, hr⟩
  · simp only [hb, if_false]
    obtain rfl := Except.ok.inj ((P_of_not_blocks (k := k.setEax 0) hb).symm.trans hk)
    exact ⟨htake, rfl, .refl _⟩

/-- What `V` leaves once it has woken a process, or none. -/
abbrev giveSem (a : ℕ) (k : Kernel) : Kernel :=
  k.setSem a fun s => { s with value := i32 (s.value + 1) }

/-- `V` that returns: with a negative value the first waiting process is made runnable. -/
theorem V_eq_ok {a : ℕ} (h : Sound k Q) (hk : V a k = .ok k') :
    if (k.sem a).value < 0 then
      ∃ p rest nx, Q .sem = p :: rest ∧ (k.sem a).list = some .dummysem ∧
        k' = giveSem a ((k.setState p .runnable).relink nx) ∧
        Placed ((k.setState p .runnable).relink nx) (wakeQueues Q) .running
    else k' = giveSem a k := by
  obtain ⟨k1, h1, hk⟩ := bind_eq_ok.mp hk
  obtain rfl := Except.ok.inj hk
  split_ifs at h1 ⊢ with hv
  · have hl : (k.sem a).list = some .dummysem := by
      rcases h.sems a with hl | hl
      · simp [wakeFirst, hl] at h1
      · exact hl
    cases hq : Q .sem with
    | nil =>
      rw [wakeFirst_nil h.placed hl hq] at h1
      cases h1
    | cons p rest =>
      obtain ⟨nx, h1', hp⟩ := wakeFirst_placed h.placed hl hq
      obtain rfl := Except.ok.inj (h1'.symm.trans h1)
      exact ⟨p, rest, nx, rfl, hl, rfl, hp⟩
  · rw [Except.ok.inj h1]

/-- **`sem_post_aux`** makes the first waiter ready and goes on with the caller. -/
theorem sound_post {a : ℕ} (h : Sound k Q) (hu : userMode k) (hk : semPostAux a k = .ok k') :
    Sound k' (stepQueues k Q (.sys (.semPost a))) ∧ k'.current = k.current ∧
      Rescheduled (giveSem a (k.setEax 0)) k' := by
  have h1 : Sound (k.setEax 0) Q := h.fileCall (.setEax k 0)
  have hV := V_eq_ok h1 hk
  simp only [stepQueues]
  by_cases hv : (k.sem a).value < 0
  · rw [if_pos (by exact hv)] at hV
    obtain ⟨p, rest, nx, hq, -, rfl, hp⟩ := hV
    have h2 : Sound (((k.setEax 0).setState p .runnable).relink nx) (wakeQueues Q) :=
      h1.rescheduled hu.2 hp ((rescheduled_setState _ _ _).trans (.of_relink _ nx)) id
    rw [if_pos hv]
    exact ⟨h2.setSem a _ rfl, rfl,
      (rescheduled_setState (giveSem a (k.setEax 0)) p .runnable).trans (.of_relink _ nx)⟩
  · rw [if_neg (by exact hv)] at hV
    subst hV
    rw [if_neg hv]
    exact ⟨h1.setSem a _ rfl, rfl, .refl _⟩

/-- **`sem_init_aux`** forgets who waits. -/
theorem sound_init {a : ℕ} {v : ℤ} (h : Sound k Q) (hk : semInitAux a v k = .ok k') :
    Sound k' (Function.update Q .sem []) ∧ k'.current = k.current := by
  obtain rfl := Except.ok.inj ((semInitAux_eq a v k).symm.trans hk)
  refine ⟨⟨semInitAux_placed h.placed a v, fun b => ?_, h.nesting, h.reader, h.top⟩, rfl⟩
  by_cases hb : b = initAddr a k
  · subst hb; simp [semInited]
  · simpa [semInited, hb] using h.sems b

/-- A call on files moves nobody. -/
theorem sound_fileCall {c : Syscall} (hc : c.onFiles) (h : Sound k Q)
    (hk : doSyscall k c = .ok k') : Sound k' Q ∧ k'.current = k.current :=
  have hf := doSyscall_fileCall hc hk
  ⟨h.fileCall hf, hf.current⟩

/-- **Every event** keeps the process table well-formed and moves the processes as `stepQueues` and
`stepNext` say. -/
theorem sound_step (h : Sound k Q) (hk : step k e = .ok k') :
    Sound k' (stepQueues k Q e) ∧ k'.current = stepNext k Q e := by
  cases e with
  | timer => exact sound_timer h hk
  | key scanCode => exact sound_key h hk
  | store a b =>
    simp only [step] at hk
    split_ifs at hk
    obtain rfl := Except.ok.inj hk
    exact ⟨⟨h.placed.congr rfl rfl rfl (fun _ => rfl) fun _ => rfl, h.sems, h.nesting, h.reader,
      h.top⟩, rfl⟩
  | sys c =>
    simp only [step] at hk
    split_ifs at hk with hu
    cases c with
    | exit => exact sound_exit h hu hk
    | fork => exact sound_fork h hk
    | sleep n =>
      obtain ⟨k2, h2, hp, hcur, hr, ht⟩ := sleepAux_placed h.placed hu.1 n
      obtain rfl := Except.ok.inj (h2.symm.trans hk)
      exact ⟨h.rescheduled hu.2 hp hr ht, hcur⟩
    | semInit a v => exact sound_init h hk
    | semWait a => exact (sound_wait h hu hk).imp_right And.left
    | semPost a => exact (sound_post h hu hk).imp_right And.left
    | semDestroy a =>
      obtain rfl := Except.ok.inj hk
      have hf : ∀ p, (((k.setEax 0).setPcb k.current fun c => { c with psem := none }).pcb p).state =
          (k.pcb p).state ∧ (((k.setEax 0).setPcb k.current fun c =>
          { c with psem := none }).pcb p).pid = (k.pcb p).pid ∧ (((k.setEax 0).setPcb k.current
          fun c => { c with psem := none }).pcb p).next = (k.pcb p).next := by
        intro p
        by_cases hp : p = k.current <;> simp [hp]
      exact ⟨⟨h.placed.congr rfl rfl (funext fun p => (hf p).2.2) (fun p => (hf p).1) fun p =>
        (hf p).2.1, h.sems, h.nesting, h.reader, h.top⟩, rfl⟩
    | read fd buf len =>
      by_cases hfd : fd = stdin
      · rw [doSyscall, readAux, if_pos hfd] at hk
        exact ⟨h.polled hu.1 (pollRead_polled hk), by rw [(pollRead_polled hk).rest]; rfl⟩
      · exact sound_fileCall (c := .read fd buf len) hfd h hk
    | write fd buf len => exact sound_fileCall (c := .write fd buf len) trivial h hk
    | seek fd offset whence => exact sound_fileCall (c := .seek fd offset whence) trivial h hk
    | openPath path flags => exact sound_fileCall (c := .openPath path flags) trivial h hk
    | close fd => exact sound_fileCall (c := .close fd) trivial h hk
    | remove path => exact sound_fileCall (c := .remove path) trivial h hk
    | ls path => exact sound_fileCall (c := .ls path) trivial h hk
    | cat path => exact sound_fileCall (c := .cat path) trivial h hk

/-! ### What an event does -/

/-- Only a process that runs user code makes a call. -/
theorem userMode_of_call {c : Syscall} (hk : step k (.sys c) = .ok k') : userMode k := by
  by_contra hu
  rw [step, if_neg hu] at hk
  cases hk

/-- What an event does, but for whose turn it is and the order on the lists: those are
`sound_step`. -/
inductive Does (k : Kernel) : Event → Kernel → Prop
  | timer {k1 k' : Kernel} (h : Rescheduled k k1) (hk : resume k1 = .ok k') : Does k .timer k'
  | key {scanCode : ℕ} {k1 k' : Kernel} (h : keyboardHandle scanCode k = .ok k1)
      (hk : resume k1 = .ok k') : Does k (.key scanCode) k'
  | store (a : ℕ) (b : UInt8) : Does k (.store a b) (userStore a b k)
  | exit {d : Disk} {k' : Kernel} (hd : writeBack k.fs k.disk = .ok d)
      (h : Rescheduled { k with pNum := k.pNum - 1, disk := d } k') : Does k (.sys .exit) k'
  | sleep {n : ℤ} {k' : Kernel} (h : Rescheduled k k') : Does k (.sys (.sleep n)) k'
  | fork (nx : Node → Option Node) : Does k (.sys .fork) ((forked k).relink nx)
  | semInit (a : ℕ) (v : ℤ) (nx : Node → Option Node) :
      Does k (.sys (.semInit a v)) ((semInited a v k).relink nx)
  | semDestroy (a : ℕ) : Does k (.sys (.semDestroy a))
      ((k.setEax 0).setPcb k.current fun c => { c with psem := none })
  | semWait {a : ℕ} {k' : Kernel} (h : Rescheduled (takeSem a (k.setEax 0)) k') :
      Does k (.sys (.semWait a)) k'
  | semPost {a : ℕ} {k' : Kernel} (h : Rescheduled (giveSem a (k.setEax 0)) k') :
      Does k (.sys (.semPost a)) k'
  | readStdin {buf : ℕ} {len : ℤ} {k' : Kernel} (h : Polled k k') :
      Does k (.sys (.read stdin buf len)) k'
  | file {c : Syscall} {k' : Kernel} (hc : c.onFiles) (h : FileCall k k') : Does k (.sys c) k'

/-- **Every event** does that, whoever runs. -/
theorem does_of_step (h : Sound k Q) (hk : step k e = .ok k') : Does k e k' := by
  cases e with
  | timer =>
    obtain ⟨k1, h1, hk⟩ := bind_eq_ok.mp hk
    refine .timer ?_ hk
    by_cases hn : k.intrNesting = true
    · obtain rfl : k = k1 := by simpa [timerHandle, hn] using h1
      exact .refl k
    · obtain ⟨k2, h2, -, -, hr, -⟩ := timerHandle_placed h.placed (by simpa using hn)
      obtain rfl := Except.ok.inj (h2.symm.trans h1)
      exact hr
  | key scanCode =>
    obtain ⟨k1, h1, hk⟩ := bind_eq_ok.mp hk
    exact .key h1 hk
  | store a b =>
    simp only [step] at hk
    split_ifs at hk
    obtain rfl := Except.ok.inj hk
    exact .store a b
  | sys c =>
    simp only [step] at hk
    split_ifs at hk with hu
    cases c with
    | exit =>
      obtain ⟨k2, d, hd, h2, -, -, hr, -⟩ := exitAux_placed h.placed hu.1
      obtain rfl := Except.ok.inj (h2.symm.trans hk)
      exact .exit hd hr
    | sleep n =>
      obtain ⟨k2, h2, -, -, hr, -⟩ := sleepAux_placed h.placed hu.1 n
      obtain rfl := Except.ok.inj (h2.symm.trans hk)
      exact .sleep hr
    | fork =>
      obtain ⟨-, -, -, nx, rfl⟩ := forkAux_placed h.placed hk
      exact .fork nx
    | semInit a v =>
      obtain rfl := Except.ok.inj ((semInitAux_eq a v k).symm.trans hk)
      exact .semInit a v _
    | semDestroy a =>
      obtain rfl := Except.ok.inj hk
      exact .semDestroy a
    | semWait a => exact .semWait (sound_wait h hu hk).2.2
    | semPost a => exact .semPost (sound_post h hu hk).2.2
    | read fd buf len =>
      by_cases hfd : fd = stdin
      · subst hfd
        rw [doSyscall, readAux, if_pos rfl] at hk
        exact .readStdin (pollRead_polled hk)
      · exact .file hfd (doSyscall_fileCall (c := .read fd buf len) hfd hk)
    | write fd buf len => exact .file trivial (writeAux_fileCall hk)
    | seek fd offset whence => exact .file trivial (lseekAux_fileCall hk)
    | openPath path flags => exact .file trivial (openAux_fileCall hk)
    | close fd => exact .file trivial (closeAux_fileCall hk)
    | remove path => exact .file trivial (removeAux_fileCall hk)
    | ls path => exact .file trivial (lsAux_fileCall hk)
    | cat path => exact .file trivial (catAux_fileCall hk)

/-- What `sem_wait_aux` does besides the decrement is up to the scheduler. -/
theorem rescheduled_of_wait {a : ℕ} (h : Sound k Q) (hk : step k (.sys (.semWait a)) = .ok k') :
    Rescheduled (takeSem a (k.setEax 0)) k' := by
  cases does_of_step h hk with
  | semWait hr => exact hr
  | file hc _ => exact hc.elim

/-- A post changes the semaphore, and beyond that only reschedules. -/
theorem rescheduled_of_post {a : ℕ} (h : Sound k Q) (hk : step k (.sys (.semPost a)) = .ok k') :
    Rescheduled (giveSem a (k.setEax 0)) k' := by
  cases does_of_step h hk with
  | semPost hr => exact hr
  | file hc _ => exact hc.elim

/-- Of all semaphores, a wait changes the value of its own. -/
theorem sem_of_wait {a : ℕ} (h : Sound k Q) (hk : step k (.sys (.semWait a)) = .ok k') :
    k'.sem = Function.update k.sem a { k.sem a with value := i32 ((k.sem a).value - 1) } := by
  rw [(rescheduled_of_wait h hk).sem]
  rfl

/-- And so does a post. -/
theorem sem_of_post {a : ℕ} (h : Sound k Q) (hk : step k (.sys (.semPost a)) = .ok k') :
    k'.sem = Function.update k.sem a { k.sem a with value := i32 ((k.sem a).value + 1) } := by
  rw [(rescheduled_of_post h hk).sem]
  rfl

/-- Where a semaphore has its list stays. -/
theorem list_of_value {a : ℕ} {v : ℤ}
    (h : k'.sem = Function.update k.sem a { k.sem a with value := v }) (b : ℕ) :
    (k'.sem b).list = (k.sem b).list := by
  by_cases hb : b = a
  · subst hb
    rw [h, Function.update_self]
  · rw [h, Function.update_of_ne hb]

/-- `k'` differs from `k` in what switching between processes, the end of a process and the end of a
waiting read change. -/
structure Switched (k k' : Kernel) : Prop where
  rest : k' = { k with
    pcb := k'.pcb
    current := k'.current
    esp0 := k'.esp0
    pNum := k'.pNum
    disk := k'.disk
    intrNesting := k'.intrNesting
    waiting := k'.waiting
    mem := k'.mem
    bufOut := k'.bufOut }
  pcb : ∀ p, k'.pcb p =
    { k.pcb p with
      state := (k'.pcb p).state
      timeCount := (k'.pcb p).timeCount
      sleepTime := (k'.pcb p).sleepTime
      next := (k'.pcb p).next }

namespace Switched

/-- The semaphores stay. -/
theorem sem (h : Switched k k') : k'.sem = k.sem := by rw [h.rest]

/-- The kernel stacks and frames stay. -/
theorem kmem (h : Switched k k') : k'.kmem = k.kmem := by rw [h.rest]

/-- The system file table stays. -/
theorem sysFileTable (h : Switched k k') : k'.sysFileTable = k.sysFileTable := by rw [h.rest]

/-- Its count stays. -/
theorem sysFileNum (h : Switched k k') : k'.sysFileNum = k.sysFileNum := by rw [h.rest]

/-- The file system stays. -/
theorem fs (h : Switched k k') : k'.fs = k.fs := by rw [h.rest]

/-- The semaphore of every process stays. -/
theorem psem (h : Switched k k') (p : Node) : (k'.pcb p).psem = (k.pcb p).psem := by rw [h.pcb p]

/-- The number of its descriptors stays. -/
theorem fpNum (h : Switched k k') (p : Node) : (k'.pcb p).fpNum = (k.pcb p).fpNum := by
  rw [h.pcb p]

/-- Its descriptors stay. -/
theorem filepointer (h : Switched k k') (p : Node) :
    (k'.pcb p).filepointer = (k.pcb p).filepointer := by
  rw [h.pcb p]

/-- Rescheduling is a switch. -/
theorem of_rescheduled (h : Rescheduled k k') : Switched k k' :=
  ⟨by rw [h.rest], h.pcb⟩

end Switched

/-- A switch may end with the end of a read. -/
theorem resume_switched {k1 : Kernel} (h : Switched k k1) (hk : resume k1 = .ok k') :
    Switched k k' := by
  have hres := resume_rest hk
  exact ⟨by rw [hres, h.rest], fun p => by rw [hres]; exact h.pcb p⟩

/-- Timer interrupts, exits and sleeps, and what a process does by itself. -/
def Event.alone : Event → Bool
  | .timer | .store .. | .sys .exit | .sys (.sleep _) => true
  | _ => false

/-- A call on files is not one of those that a process alone makes. -/
theorem not_alone_of_onFiles {c : Syscall} (hc : c.onFiles) : ¬Event.alone (.sys c) := by
  cases c with
  | exit => exact hc.elim
  | sleep n => exact hc.elim
  | _ => exact Bool.false_ne_true

/-- What they change besides the places of the processes. -/
theorem switched_of_alone (h : Sound k Q) (he : e.alone) (hk : step k e = .ok k') :
    Switched k k' := by
  cases does_of_step h hk with
  | timer hr hres => exact resume_switched (.of_rescheduled hr) hres
  | store a b => exact ⟨rfl, fun _ => rfl⟩
  | exit _ hr => exact ⟨by rw [hr.rest], hr.pcb⟩
  | sleep hr => exact .of_rescheduled hr
  | @file c _ hc _ => exact absurd he (not_alone_of_onFiles hc)
  | _ => cases he

/-- **No event but `sem_init_aux` loses a process.** -/
theorem Complete.step (h : Complete k.current Q)
    (hi : ∀ a v, e = .sys (.semInit a v) → Q .sem = []) :
    Complete (stepNext k Q e) (stepQueues k Q e) := by
  have htimer : Complete (timerNext k Q) (timerQueues k Q) := by
    unfold timerNext timerQueues
    split_ifs
    · exact h.tick.sched
    · exact h.tick
  cases e with
  | timer =>
    simp only [stepNext, stepQueues]
    split_ifs
    · exact h
    · exact htimer
  | key _ => exact h
  | store a b => exact h
  | sys c =>
    cases c with
    | exit => exact h.sched
    | sleep n => exact h.sched
    | fork => exact h.fork
    | semInit a v =>
      simp only [stepNext, stepQueues]
      rw [← hi a v rfl, Function.update_eq_self]
      exact h
    | semWait a =>
      simp only [stepNext, stepQueues]
      split_ifs
      · exact h.sched
      · exact h
    | semPost a =>
      simp only [stepNext, stepQueues]
      split_ifs
      · exact h.wake
      · exact h
    | _ => exact h

/-- A switch takes nobody off a list but the runnable processes. -/
theorem mem_schedQueues {st : PState} {cur p : Node} {i : QName} (hi : i ≠ .runnable)
    (hp : p ∈ Q i) : p ∈ schedQueues st cur Q i := by
  have hpark : p ∈ parkQueues st cur Q i := mem_parkQueues.mpr (.inl hp)
  unfold schedQueues
  split_ifs
  · exact hp
  · exact hpark
  · rwa [Queues.pop_of_ne _ hi]

/-- A post frees nobody. -/
theorem wakeQueues_free : wakeQueues Q .free = Q .free := by
  cases hq : Q .sem with
  | nil => simp [wakeQueues, hq]
  | cons p rest =>
    have hw : wakeQueues Q = (Q.pop .sem).push .runnable p := by simp [wakeQueues, hq]
    rw [hw, Queues.push_of_ne _ _ (by simp), Queues.pop_of_ne _ (by simp)]

/-- **Only a fork** takes a process off `free_list`. -/
theorem mem_stepQueues_free {p : Node} (he : e ≠ .sys .fork) (hp : p ∈ Q .free) :
    p ∈ stepQueues k Q e .free := by
  have hsched : ∀ st cur, p ∈ schedQueues st cur Q .free :=
    fun st cur => mem_schedQueues (by simp) hp
  cases e with
  | timer =>
    simp only [stepQueues, timerQueues]
    split_ifs
    · exact hp
    · exact mem_schedQueues (by simp) hp
    · exact hp
  | key _ => exact hp
  | store a b => exact hp
  | sys c =>
    cases c with
    | exit => exact hsched _ _
    | sleep n => exact hsched _ _
    | fork => exact absurd rfl he
    | semInit a v => simpa [stepQueues] using hp
    | semWait a =>
      simp only [stepQueues]
      split_ifs
      · exact hsched _ _
      · exact hp
    | semPost a =>
      simp only [stepQueues]
      split_ifs
      · rwa [wakeQueues_free]
      · exact hp
    | _ => exact hp

/-- The free list grows by the process that ends. -/
theorem of_mem_schedQueues_free {st : PState} {cur p : Node} (hp : p ∈ schedQueues st cur Q .free) :
    p ∈ Q .free ∨ st = .dead ∧ p = cur := by
  have hpark : p ∈ parkQueues st cur Q .free → p ∈ Q .free ∨ st = .dead ∧ p = cur := by
    intro hp
    rcases mem_parkQueues.mp hp with hp | ⟨-, hname, hpc⟩
    · exact .inl hp
    · refine .inr ⟨?_, hpc⟩
      cases st <;> first | rfl | cases hname
  unfold schedQueues at hp
  split_ifs at hp
  · exact .inl hp
  · exact hpark hp
  · rw [Queues.pop_of_ne _ (by simp)] at hp
    exact hpark hp

/-- **Only an exit** puts a process on `free_list`. -/
theorem of_mem_stepQueues_free {p : Node} (hp : p ∈ stepQueues k Q e .free) :
    p ∈ Q .free ∨ e = .sys .exit ∧ p = k.current := by
  have hsched : ∀ {st cur}, st ≠ .dead → p ∈ schedQueues st cur Q .free → p ∈ Q .free :=
    fun hst hp => (of_mem_schedQueues_free hp).resolve_right fun h => hst h.1
  cases e with
  | timer =>
    simp only [stepQueues, timerQueues] at hp
    split_ifs at hp
    · exact .inl hp
    · exact .inl ((of_mem_schedQueues_free hp).resolve_right fun h => by simp at h)
    · exact .inl hp
  | key _ => exact .inl hp
  | store a b => exact .inl hp
  | sys c =>
    cases c with
    | exit => exact (of_mem_schedQueues_free hp).imp_right fun h => ⟨rfl, h.2⟩
    | sleep n => exact .inl (hsched (by simp) hp)
    | fork => exact (mem_forkQueues hp).elim .inl fun h => absurd h.1 (by simp)
    | semInit a v => exact .inl (by simpa [stepQueues] using hp)
    | semWait a =>
      simp only [stepQueues] at hp
      split_ifs at hp
      · exact .inl (hsched (by simp) hp)
      · exact .inl hp
    | semPost a =>
      simp only [stepQueues] at hp
      split_ifs at hp
      · exact .inl (by rwa [wakeQueues_free] at hp)
      · exact .inl hp
    | _ => exact .inl hp

/-! ### Who waits for the semaphore -/

/-- A switch adds a waiter only if the process has blocked on a semaphore. -/
theorem schedQueues_sem {st : PState} (hst : st ≠ .semBlocked) (cur : Node) :
    schedQueues st cur Q .sem = Q .sem := by
  have hname : QName.sem ≠ parkName st := by
    cases st <;> simp_all [parkName]
  have hpark : parkQueues st cur Q .sem = Q .sem := by
    unfold parkQueues
    split_ifs
    · rfl
    · exact Queues.push_of_ne _ _ hname
  unfold schedQueues
  split_ifs
  · rfl
  · exact hpark
  · rw [Queues.pop_of_ne _ (by simp), hpark]

/-- The process that blocks is the last one to wait. -/
theorem schedQueues_semBlocked_sem {cur : Node} (hc : cur ≠ .idle) :
    schedQueues .semBlocked cur Q .sem = Q .sem ++ [cur] := by
  have hpark : parkQueues .semBlocked cur Q .sem = Q .sem ++ [cur] := by
    rw [parkQueues, if_neg hc]
    exact Queues.push_same _ _ _
  unfold schedQueues
  by_cases hr : Q .runnable = []
  · rw [if_pos hr, if_neg (by simp), hpark]
  · rw [if_neg hr, Queues.pop_of_ne _ (by simp), hpark]

/-- A timer interrupt does not touch those who wait for a semaphore. -/
theorem timerQueues_sem (k : Kernel) : timerQueues k Q .sem = Q .sem := by
  unfold timerQueues
  split_ifs
  · exact schedQueues_sem (by simp) _
  · rfl

/-- Nor does a fork. -/
theorem forkQueues_sem (k : Kernel) : forkQueues k Q .sem = Q .sem := by
  rw [forkQueues, Queues.push_of_ne _ _ (by simp), Function.update_of_ne (by simp)]

/-- A post takes the first waiter. -/
theorem wakeQueues_sem : wakeQueues Q .sem = (Q .sem).tail := by
  cases hq : Q .sem with
  | nil => simp [wakeQueues, hq]
  | cons p rest =>
    have hw : wakeQueues Q = (Q.pop .sem).push .runnable p := by simp [wakeQueues, hq]
    rw [hw, Queues.push_of_ne _ _ (by simp), Queues.pop_same, hq]

/-- **Every run** ends in a sound state. -/
theorem sound_run {img : Image} {es : List Event} (hk : runFrom img es = .ok k) :
    ∃ Q, Sound k Q := by
  apply runFrom_invariant hk
  · intro k hb
    exact ⟨_, sound_boot hb⟩
  · rintro k k' e ⟨Q, hQ⟩ hs
    exact ⟨_, (sound_step hQ hs).1⟩

/-! ### Trap frames and kernel stacks

The kernel's functions write three things into the memory of the PCBs: `eax` of the frame of the
current process, the result of a system call (`kmem_of_step`); the whole frame of the child of a
fork (`tf_child_of_fork`); and, before the first run, the frame of the first process. Everything
else in there is written by the CPU and the interrupt stubs. -/

/-- The answer of a call is the only word that it changes. -/
theorem setEax_kmem (k : Kernel) (v : ℤ) {p : Node} {o : ℕ}
    (h : ¬(p = k.current ∧ o = MAX_STACK_SIZE + TfField.eax.idx)) :
    (k.setEax v).kmem p o = k.kmem p o := (FileCall.setEax k v).frame p o h

/-- A fork changes its answer and the frame of the child. -/
theorem forked_kmem {p : Node} {o : ℕ}
    (h : ¬(p = k.current ∧ o = MAX_STACK_SIZE + TfField.eax.idx)) :
    (forked k).kmem p o = (copyFrame (.pcb k.pNum) k).kmem p o := by
  set k1 : Kernel := { k with kmem := (copyFrame (.pcb k.pNum) k).kmem } with hk1
  have he : (k1.setEax k.pNum).kmem p o = k1.kmem p o := setEax_kmem k1 k.pNum h
  simp only [forked, ← hk1, he]
  simp only [hk1]

/-- **What an event leaves alone** in the memory of the PCBs: all but the `eax` of the caller, and
the child of a fork. -/
theorem kmem_of_step (h : Sound k Q) (hk : step k e = .ok k') {p : Node} {o : ℕ}
    (hp : ¬(p = k.current ∧ o = MAX_STACK_SIZE + TfField.eax.idx))
    (hc : e = .sys .fork → p ≠ .pcb k.pNum) : k'.kmem p o = k.kmem p o := by
  cases does_of_step h hk with
  | timer hr hres => rw [resume_rest hres, hr.kmem]
  | key hkey hres => rw [resume_rest hres, keyboardHandle_rest hkey]
  | store a b => rfl
  | exit _ hr => rw [hr.kmem]
  | sleep hr => rw [hr.kmem]
  | fork nx => exact (forked_kmem hp).trans (copyFrame_kmem_of_ne (hc rfl) o)
  | semInit a v nx => exact setEax_kmem k 0 hp
  | semDestroy a => exact setEax_kmem k 0 hp
  | semWait hr =>
    rw [hr.kmem]
    exact setEax_kmem k 0 hp
  | semPost hr =>
    rw [hr.kmem]
    exact setEax_kmem k 0 hp
  | readStdin hp => rw [hp.rest]
  | file _ hf => exact hf.frame p o hp

/-- The frame of the child is that of the caller but for `eax` and the segment selectors. -/
theorem tf_child_of_fork (hc : Node.pcb k.pNum ≠ k.current) (f : TfField) (nx : Node → Option Node) :
    ((forked k).relink nx).tf (.pcb k.pNum) f = forkFrame k f := by
  exact (forked_kmem fun h => hc h.1).trans (copyFrame_tf hc f)

end OsLab
