import OsLab.Scheduler.Schedule
import OsLab.Kernel.Step

/-!
# The process table under the kernel's operations

One lemma for each operation that moves processes: the timer, `exit_aux`, `sleep_aux`, `P`, `V`,
`fork_aux` and `sem_init_aux`, each with the queues and the current process it leaves and what else
it changes. `Placed.congr` covers the operations that move nobody.
-/

namespace OsLab

open OsLab.Lib

variable {k k' : Kernel} {Q : Queues} {st : PState}

/-- The places of the processes only depend on these fields. -/
theorem Placed.congr (h : Placed k Q st) (hcur : k'.current = k.current) (hnum : k'.pNum = k.pNum)
    (hnext : k'.next = k.next) (hstate : ∀ p, (k'.pcb p).state = (k.pcb p).state)
    (hpid : ∀ p, (k'.pcb p).pid = (k.pcb p).pid) : Placed k' Q st where
  lists := h.lists.congr hnext
  current := hcur ▸ h.current
  apart := hcur ▸ h.apart
  state i p hp := by rw [hstate]; exact h.state i p hp
  curState := by rw [hcur, hstate]; exact h.curState
  pid i hi hf := by rw [hpid]; exact h.pid i hi hf
  pNum := hnum ▸ h.pNum

/-- The current process takes another state, and the counter follows. -/
theorem Placed.setState {st' : PState} (h : Placed k Q st) (hcur : k'.current = k.current)
    (hnum : k'.pNum + (if st' = .dead then 1 else 0) = k.pNum + if st = .dead then 1 else 0)
    (hnext : k'.next = k.next)
    (hstate : ∀ p, (k'.pcb p).state = if p = k.current then st' else (k.pcb p).state)
    (hpid : ∀ p, (k'.pcb p).pid = (k.pcb p).pid) : Placed k' Q st' where
  lists := h.lists.congr hnext
  current := hcur ▸ h.current
  apart := hcur ▸ h.apart
  state i p hp := by rw [hstate, if_neg (h.ne_current hp)]; exact h.state i p hp
  curState := by rw [hcur, hstate, if_pos rfl]
  pid i hi hf := by rw [hpid]; exact h.pid i hi hf
  pNum := by have := h.pNum; omega

/-! ### The timer -/

/-- A tick for every sleeper keeps the picture. -/
theorem Placed.tick (h : Placed k Q st) {nx : Node → Option Node}
    (hh : Holds ((tickAll (Q .blocked) k).relink nx) (tickQueues k Q)) :
    Placed ((tickAll (Q .blocked) k).relink nx) (tickQueues k Q) st := by
  have hcb := h.apart .blocked
  refine ⟨hh, h.current, fun i hi => ?_, ?_, ?_, ?_, h.pNum⟩
  · rcases mem_tickQueues hi with ⟨hi, -⟩ | ⟨-, hi, -⟩
    · exact h.apart i hi
    · exact hcb hi
  · intro i p hp
    rcases mem_tickQueues hp with ⟨hpi, hexp⟩ | ⟨rfl, hpb, hexp⟩
    · by_cases hpb : p ∈ Q .blocked
      · obtain rfl := h.lists.rep.disjoint i .blocked p hpi hpb
        have hz : ¬i32 ((k.pcb p).sleepTime - 1) = 0 := by simpa [expires] using hexp rfl
        simpa [tickAll, hpb, OsLab.tick, hz] using h.state _ p hpb
      · simpa [tickAll, hpb] using h.state i p hpi
    · have hz : i32 ((k.pcb p).sleepTime - 1) = 0 := by simpa [expires] using hexp
      simp [tickAll, hpb, OsLab.tick, hz, QName.state]
  · have hnb : k.current ∉ Q .blocked := hcb
    simpa [tickAll, hnb] using h.curState
  · intro i hi hf
    have hp := h.pid i hi hf
    by_cases hb : Node.pcb i ∈ Q .blocked <;> simpa [tickAll, hb, OsLab.tick] using hp

/-- A tick loses no process. -/
theorem Complete.tick {cur : Node} (h : Complete cur Q) : Complete cur (tickQueues k Q) := by
  intro p hp
  rcases h p hp with rfl | ⟨i, hi⟩
  · exact .inl rfl
  · right
    cases i with
    | blocked =>
      by_cases he : expires k p = true
      · exact ⟨.runnable, List.mem_append_right _ (List.mem_filter.mpr ⟨hi, he⟩)⟩
      · exact ⟨.blocked, List.mem_filter.mpr ⟨hi, by simpa using he⟩⟩
    | runnable => exact ⟨.runnable, List.mem_append_left _ hi⟩
    | free => exact ⟨.free, hi⟩
    | sem => exact ⟨.sem, hi⟩

/-- Ticks of the sleepers are a way to reschedule. -/
theorem rescheduled_tickAll (xs : List Node) (k : Kernel) : Rescheduled k (tickAll xs k) where
  rest := rfl
  pcb p := by
    by_cases hp : p ∈ xs <;> simp [tickAll, hp, tick]

/-- The quantum of the current process ends with this tick. -/
def quantumEnds (k : Kernel) : Bool := i32 ((k.pcb k.current).timeCount - 1) = 0

/-- The queues and the current process after a timer interrupt. -/
def timerQueues (k : Kernel) (Q : Queues) : Queues :=
  if quantumEnds k then schedQueues .running k.current (tickQueues k Q) else tickQueues k Q

/-- The process that runs after a timer interrupt. -/
def timerNext (k : Kernel) (Q : Queues) : Node :=
  if quantumEnds k then schedNext .running k.current (tickQueues k Q) else k.current

/-- The kernel after the ticks of a timer interrupt, its lists aside. -/
def ticked (k : Kernel) (Q : Queues) : Kernel :=
  tickAll (Q .blocked) (k.setPcb k.current fun c => { c with timeCount := i32 (c.timeCount - 1) })

/-- The counters after a tick. -/
theorem ticked_pcb (h : Placed k Q st) (p : Node) : (ticked k Q).pcb p =
    if p = k.current then { k.pcb p with timeCount := i32 ((k.pcb p).timeCount - 1) }
    else if p ∈ Q .blocked then tick (k.pcb p) else k.pcb p := by
  by_cases hp : p = k.current
  · subst hp
    simp [ticked, tickAll, h.apart .blocked]
  · simp [ticked, tickAll, hp]

/-- The timer interrupt: the ticks, and a switch if the quantum is over. -/
theorem timerHandle_eq (h : Placed k Q .running) (hn : k.intrNesting = false) :
    ∃ nx, timerHandle (tfPtr k.current) k =
        (if quantumEnds k then schedule ((ticked k Q).relink nx) else .ok ((ticked k Q).relink nx)) ∧
      Placed ((ticked k Q).relink nx) (tickQueues k Q) .running := by
  set k1 := k.setPcb k.current fun c => { c with timeCount := i32 (c.timeCount - 1) } with hk1
  have hs : ∀ p, (k1.pcb p).state = (k.pcb p).state ∧ (k1.pcb p).pid = (k.pcb p).pid ∧
      (k1.pcb p).next = (k.pcb p).next ∧ (k1.pcb p).sleepTime = (k.pcb p).sleepTime := by
    intro p
    by_cases hp : p = k.current <;> simp [hk1, hp]
  have h1 : Placed k1 Q .running := h.congr rfl rfl (funext fun p => (hs p).2.2.1)
    (fun p => (hs p).1) fun p => (hs p).2.1
  have hexp : tickQueues k1 Q = tickQueues k Q := by
    have he : expires k1 = expires k := funext fun p => by simp only [expires, (hs p).2.2.2]
    funext i
    cases i <;> simp [tickQueues, he]
  obtain ⟨nx, hwake, hh⟩ := tryToWakeup_eq h1.lists
  refine ⟨nx, ?_, hexp ▸ h1.tick hh⟩
  have hq : (((ticked k Q).relink nx).pcb ((ticked k Q).relink nx).current).timeCount =
      i32 ((k.pcb k.current).timeCount - 1) := by
    rw [Kernel.relink_pcb, ticked_pcb h]
    simp [ticked, tickAll]
  simp only [timerHandle, hn, Bool.false_eq_true, if_false, assert, if_true, ok_bind]
  rw [← hk1, hwake, ok_bind]
  change (if (((ticked k Q).relink nx).pcb ((ticked k Q).relink nx).current).timeCount = 0 then _
    else _) = _
  rw [hq]
  simp only [quantumEnds, decide_eq_true_eq]
  rfl

/-- **The timer interrupt** does not fail: the sleepers get their tick, and when the quantum is over
the next process runs. -/
theorem timerHandle_placed (h : Placed k Q .running) (hn : k.intrNesting = false) :
    ∃ k', timerHandle (tfPtr k.current) k = .ok k' ∧ Placed k' (timerQueues k Q) .running ∧
      k'.current = timerNext k Q ∧ Rescheduled k k' ∧ (StackTop k → StackTop k') := by
  obtain ⟨nx, hrun, h2⟩ := timerHandle_eq h hn
  have hres : Rescheduled k ((ticked k Q).relink nx) :=
    (Rescheduled.of_setPcb k _ _ fun _ => rfl).trans
      ((rescheduled_tickAll _ _).trans (.of_relink _ nx))
  have hc : ((ticked k Q).relink nx).current = k.current := rfl
  unfold timerQueues timerNext
  rw [hrun]
  split_ifs with hends
  · obtain ⟨k', hk', hp, hcur, hres', htop⟩ := schedule_placed h2 (.running _)
    rw [hc] at hp hcur
    exact ⟨k', hk', hp, hcur, hres.trans hres', fun ht => htop ht⟩
  · exact ⟨_, rfl, h2, hc, hres, fun ht => ht⟩

/-! ### Leaving the CPU: `exit_aux`, `sleep_aux`, `P` -/

/-- The file system can always be written back. -/
theorem writeBack_eq_ok (fs : FileSystem) (disk : Disk) : ∃ d, writeBack fs disk = .ok d := by
  have halign : FS_OFFSET_IN_DISK.tmod SECTSIZE = 0 := by decide
  simp only [writeBack, writeBytes, assert, if_pos halign, ok_bind]
  exact ⟨_, rfl⟩

/-- **`exit_aux`** does not fail. -/
theorem exitAux_placed (h : Placed k Q .running) (hc : k.current ≠ .idle) :
    ∃ k' d, writeBack k.fs k.disk = .ok d ∧ exitAux k = .ok k' ∧
      Placed k' (schedQueues .dead k.current Q) .running ∧ k'.current = schedNext .dead k.current Q ∧
      Rescheduled { k with pNum := k.pNum - 1, disk := d } k' ∧ (StackTop k → StackTop k') := by
  obtain ⟨d, hd⟩ := writeBack_eq_ok k.fs k.disk
  set k1 : Kernel := { k.setState k.current .dead with pNum := k.pNum - 1, disk := d } with hk1
  have hp1 : ∀ p, (k1.pcb p).state = (if p = k.current then .dead else (k.pcb p).state) ∧
      (k1.pcb p).pid = (k.pcb p).pid ∧ (k1.pcb p).next = (k.pcb p).next := by
    intro p
    by_cases hp : p = k.current <;> simp [hk1, hp]
  have h1 : Placed k1 Q .dead := h.setState rfl (by simp [hk1]) (funext fun p => (hp1 p).2.2)
    (fun p => (hp1 p).1) fun p => (hp1 p).2.1
  obtain ⟨k', hk', hp, hcur, hres, htop⟩ := schedule_placed h1 ⟨by simp, fun he => absurd he hc, by simp⟩
  have hrun : exitAux k = writeBack k.fs k.disk >>= fun d =>
      schedule { k.setState k.current .dead with pNum := k.pNum - 1, disk := d } := rfl
  refine ⟨k', d, hd, ?_, hp, hcur, ?_, fun ht => htop ht⟩
  · rw [hrun, hd, ok_bind, hk']
  · refine Rescheduled.trans ⟨rfl, fun p => ?_⟩ hres
    by_cases hp : p = k.current <;> simp [hk1, hp]

/-- **`sleep_aux`** does not fail. -/
theorem sleepAux_placed (h : Placed k Q .running) (hc : k.current ≠ .idle) (n : ℤ) :
    ∃ k', sleepAux n k = .ok k' ∧ Placed k' (schedQueues .blocked k.current Q) .running ∧
      k'.current = schedNext .blocked k.current Q ∧ Rescheduled k k' ∧
      (StackTop k → StackTop k') := by
  set k1 := k.setPcb k.current fun c => { c with state := .blocked, sleepTime := n } with hk1
  have hp1 : ∀ p, (k1.pcb p).state = (if p = k.current then .blocked else (k.pcb p).state) ∧
      (k1.pcb p).pid = (k.pcb p).pid ∧ (k1.pcb p).next = (k.pcb p).next := by
    intro p
    by_cases hp : p = k.current <;> simp [hk1, hp]
  have h1 : Placed k1 Q .blocked := h.setState rfl (by simp [hk1]) (funext fun p => (hp1 p).2.2)
    (fun p => (hp1 p).1) fun p => (hp1 p).2.1
  obtain ⟨k', hk', hp, hcur, hres, htop⟩ := schedule_placed h1 ⟨by simp, fun he => absurd he hc, by simp⟩
  exact ⟨k', hk', hp, hcur, (Rescheduled.of_setPcb k _ _ fun _ => rfl).trans hres, fun ht => htop ht⟩

/-- A process that waits for a semaphore reads its list through `psem`. -/
theorem psemList_of_schedule (hst : (k.pcb k.current).state = .semBlocked)
    (hk : schedule k = .ok k') : ∃ head, psemList k = .ok head := by
  have hpark : ∀ k1, parkCurrent k = .ok k1 → ∃ head, psemList k = .ok head := by
    intro k1 h1
    simp only [parkCurrent, hst, bind_eq_ok] at h1
    exact h1.imp fun _ h => h.1
  unfold schedule at hk
  split_ifs at hk with hr
  · obtain ⟨k1, h1, -⟩ := bind_eq_ok.mp hk
    rw [leaveCpu, if_neg (by rw [hst]; simp)] at h1
    exact hpark k1 h1
  · simp only [hst] at hk
    obtain ⟨k1, h1, -⟩ := bind_eq_ok.mp hk
    exact hpark k1 h1

/-- What `P` leaves when the caller goes on. -/
abbrev takeSem (a : ℕ) (k : Kernel) : Kernel :=
  k.setSem a fun s => { s with value := i32 (s.value - 1) }

/-- The caller of `P` has to wait. -/
def blocks (a : ℕ) (k : Kernel) : Prop := i32 ((k.sem a).value - 1) < 0

/-- Whether a wait blocks can be computed. -/
instance (a : ℕ) (k : Kernel) : Decidable (blocks a k) := inferInstanceAs (Decidable (_ < _))

/-- **`P`** on a semaphore with a positive value only takes one from it. -/
theorem P_of_not_blocks {a : ℕ} (hb : ¬blocks a k) : P a k = .ok (takeSem a k) := by
  have hv : ((takeSem a k).sem a).value = i32 ((k.sem a).value - 1) := by simp
  simp only [P, hv]
  exact if_neg hb

/-- **`P`** otherwise puts the caller behind the processes that wait on the list of its `psem`. -/
theorem P_of_blocks {a : ℕ} (h : Placed k Q .running) (hc : k.current ≠ .idle) (hb : blocks a k)
    (hps : psemList (takeSem a k) = .ok .dummysem) :
    ∃ k', P a k = .ok k' ∧ Placed k' (schedQueues .semBlocked k.current Q) .running ∧
      k'.current = schedNext .semBlocked k.current Q ∧ Rescheduled (takeSem a k) k' ∧
      (StackTop k → StackTop k') := by
  set k1 := (takeSem a k).setState k.current .semBlocked with hk1
  have hp1 : ∀ p, (k1.pcb p).state = (if p = k.current then .semBlocked else (k.pcb p).state) ∧
      (k1.pcb p).pid = (k.pcb p).pid ∧ (k1.pcb p).next = (k.pcb p).next := by
    intro p
    by_cases hp : p = k.current <;> simp [hk1, hp]
  have h1 : Placed k1 Q .semBlocked := h.setState rfl (by simp [hk1])
    (funext fun p => (hp1 p).2.2) (fun p => (hp1 p).1) fun p => (hp1 p).2.1
  have hps1 : psemList k1 = .ok .dummysem := by
    rw [← hps]
    simp [psemList, hk1]
  obtain ⟨k', hk', hp, hcur, hres, htop⟩ :=
    schedule_placed h1 ⟨by simp, fun he => absurd he hc, fun _ => hps1⟩
  have hv : ((takeSem a k).sem a).value = i32 ((k.sem a).value - 1) := by simp
  refine ⟨k', ?_, hp, hcur, (rescheduled_setState _ _ _).trans hres, fun ht => htop ht⟩
  simp only [P, hv]
  exact (if_pos hb).trans hk'

/-! ### `V` -/

/-- The queues after the first waiting process was made runnable. -/
def wakeQueues (Q : Queues) : Queues :=
  match Q .sem with
  | [] => Q
  | p :: _ => (Q.pop .sem).push .runnable p

/-- A wakeup loses no process. -/
theorem Complete.wake {cur : Node} (h : Complete cur Q) : Complete cur (wakeQueues Q) := by
  unfold wakeQueues
  cases hs : Q .sem with
  | nil => exact h
  | cons p rest =>
    intro q hq
    refine (h q hq).imp id fun ⟨i, hi⟩ => ?_
    by_cases his : i = .sem
    · subst his
      rw [hs] at hi
      rcases List.mem_cons.mp hi with rfl | hm
      · exact ⟨.runnable, Queues.mem_push.mpr (.inr ⟨rfl, rfl⟩)⟩
      · exact ⟨.sem, Queues.mem_push.mpr (.inl (by simpa [hs] using hm))⟩
    · exact ⟨i, Queues.mem_push.mpr (.inl (by rwa [Queues.pop_of_ne _ his]))⟩

/-- The body of `V` on an empty list fails its assertion. -/
theorem wakeFirst_nil {a : ℕ} (h : Placed k Q st) (hl : (k.sem a).list = some .dummysem)
    (hq : Q .sem = []) : wakeFirst a k = .error .abort := by
  have hhead : listHead .dummysem k = .error .abort := by
    rw [show Node.dummysem = QName.sem.head from rfl, listHead_eq h.lists, hq]
    rfl
  simp only [wakeFirst, hl, hhead, error_bind]

/-- **The body of `V`** takes the process that waits longest off the list and makes it runnable. -/
theorem wakeFirst_placed {a : ℕ} (h : Placed k Q .running)
    (hl : (k.sem a).list = some .dummysem) {p : Node} {rest : List Node} (hq : Q .sem = p :: rest) :
    ∃ nx, wakeFirst a k = .ok ((k.setState p .runnable).relink nx) ∧
      Placed ((k.setState p .runnable).relink nx) (wakeQueues Q) .running := by
  have hp : p ∈ Q .sem := by simp [hq]
  have hpc : p ≠ k.current := h.ne_current hp
  have hhead : listHead .dummysem k = .ok p := by
    rw [show Node.dummysem = QName.sem.head from rfl, listHead_eq h.lists, hq]
    rfl
  obtain ⟨nx1, hdel, hh1⟩ := listDelete_eq h.lists .sem hp
  have hpop : Function.update Q .sem ((Q .sem).erase p) = Q.pop .sem := by
    rw [Queues.pop, hq]; simp
  rw [hpop] at hh1
  have hh2 : Holds ((k.relink nx1).setState p .runnable) (Q.pop .sem) := hh1.congr (by
    funext q
    by_cases hqp : q = p <;> simp [Kernel.next, hqp])
  have hfree : ∀ j, p ∉ Q.pop .sem j := by
    intro j hj
    obtain rfl := h.lists.rep.disjoint j .sem p (Queues.mem_of_mem_pop hj) hp
    rw [Queues.pop_same, hq] at hj
    exact (List.nodup_cons.mp (hq ▸ h.lists.rep.nodup .sem)).1 hj
  obtain ⟨nx2, hadd, hh3⟩ := listAdd_eq hh2 .runnable hfree (h.lists.procs _ p hp)
  have hcomm : ((k.relink nx1).setState p .runnable).relink nx2 =
      (k.setState p .runnable).relink nx2 := by
    rw [Kernel.setState_relink, Kernel.relink_relink]
  rw [hcomm] at hadd hh3
  have hwake : wakeQueues Q = (Q.pop .sem).push .runnable p := by simp [wakeQueues, hq]
  refine ⟨nx2, ?_, ?_⟩
  · simp only [wakeFirst, hl, hhead, ok_bind]
    rw [show listDelete .dummysem p k = .ok (k.relink nx1) from hdel]
    exact hadd
  · rw [hwake]
    refine ⟨hh3, h.current, ?_, ?_, by simpa [hpc.symm] using h.curState, ?_, ?_⟩
    · intro i hi
      rcases Queues.mem_push.mp hi with hi | ⟨-, hi⟩
      · exact h.apart i (Queues.mem_of_mem_pop hi)
      · exact hpc hi.symm
    · intro i q hqi
      rcases Queues.mem_push.mp hqi with hqi | ⟨rfl, rfl⟩
      · have hqp : q ≠ p := fun he => hfree i (he ▸ hqi)
        simpa [hqp] using h.state i q (Queues.mem_of_mem_pop hqi)
      · simp [QName.state]
    · intro i hi hf
      have hf' : Node.pcb i ∉ Q .free := fun hm => hf (Queues.mem_push.mpr (.inl (by
        rwa [Queues.pop_of_ne _ (by simp)])))
      have := h.pid i hi hf'
      by_cases hip : Node.pcb i = p
      · subst hip; simpa using this
      · simpa [hip] using this
    · rw [Queues.push_of_ne _ _ (by simp), Queues.pop_of_ne _ (by simp)]
      exact h.pNum

/-! ### `sem_init_aux` -/

/-- The kernel after `sem_init_aux`, its lists aside. -/
def semInited (a : ℕ) (value : ℤ) (k : Kernel) : Kernel :=
  ((k.setPcb k.current fun c => { c with psem := some (initAddr a k) }).setSem (initAddr a k)
    fun _ => ⟨value, some .dummysem⟩).setEax 0

/-- What `sem_init_aux` does. -/
theorem semInitAux_eq (a : ℕ) (value : ℤ) (k : Kernel) :
    semInitAux a value k =
      .ok ((semInited a value k).relink (Function.update k.next .dummysem none)) := by
  have hnext : ((k.setPcb k.current fun c => { c with psem := some (initAddr a k) }).setSem
      (initAddr a k) fun s => { s with value := value }).next = k.next := by
    funext p
    by_cases hp : p = k.current <;> simp [Kernel.next, hp]
  simp only [semInitAux]
  rw [Kernel.setNext_eq_relink, hnext]
  simp [semInited, Kernel.setSem, Kernel.relink, Kernel.setPcb, Kernel.store]

/-- **`sem_init_aux`** empties the list of waiting processes, whoever is on it. -/
theorem semInitAux_placed (h : Placed k Q .running) (a : ℕ) (value : ℤ) :
    Placed ((semInited a value k).relink (Function.update k.next .dummysem none))
      (Function.update Q .sem []) .running := by
  have hs : ∀ p, ((semInited a value k).pcb p).state = (k.pcb p).state ∧
      ((semInited a value k).pcb p).pid = (k.pcb p).pid := by
    intro p
    by_cases hp : p = k.current <;> simp [semInited, hp]
  have hmem : ∀ i p, p ∈ Function.update Q .sem [] i → p ∈ Q i := by
    intro i p hp
    by_cases hi : i = .sem
    · subst hi; simp at hp
    · rwa [Function.update_of_ne hi] at hp
  have hrep : Represents (Function.update k.next .dummysem none) QName.head
      (Function.update Q .sem []) :=
    h.lists.rep.update (by simp [QName.head]) (by simp) (by simp) fun j hj x hx =>
      Function.update_of_ne (h.lists.rep.ne_of_ne hj hx (by simp [QName.head])) _ _
  refine ⟨⟨hrep, fun i p hp => h.lists.procs i p (hmem i p hp)⟩, h.current,
    fun i hi => h.apart i (hmem i _ hi), fun i p hp => ?_, ?_, fun i hi hf => ?_, ?_⟩
  · rw [Kernel.relink_pcb, (hs p).1]
    exact h.state i p (hmem i p hp)
  · rw [Kernel.relink_pcb, (hs _).1]
    exact h.curState
  · rw [Kernel.relink_pcb, (hs _).2]
    exact h.pid i hi hf
  · rw [Function.update_of_ne (by simp)]
    exact h.pNum

end OsLab
