import OsLab.Scheduler.Partition
import OsLab.Lib.Semaphore

/-!
# One semaphore counts

The kernel's `P` and `V` on one semaphore are the two calls of `Lib.Counter`, with the processes on
`dummysem`'s list as its queue: `counted_step` is the refinement, one event at a time. What makes it
work is `Counted`: every process that is alive has inherited the same `psem`, so the list it joins
in `schedule` is the one `V` takes from.

The semaphore is a `sem_t` of the first process. It must not lie in the memory that `fork_aux`
copies over, which belongs to the child (`FirstSem`).

`semaphore_counts` says what follows for whole runs. Who waits is read off the run itself: `enlists`
sees which calls of `sem_wait_aux` leave their caller `SEM_BLOCKED`, `releases` sees who stops being
`SEM_BLOCKED`.
-/

namespace OsLab

open OsLab.Lib

/-- Neither word of the `sem_t` at `a` is in the range that `fork_aux` copies over. -/
def KeptByFork (a : ℕ) : Prop := ¬inDest a ∧ ¬inDest (a + 4)

/-- Whether a fork keeps a semaphore can be computed. -/
instance (a : ℕ) : Decidable (KeptByFork a) := inferInstanceAs (Decidable (_ ∧ _))

/-- The address of a `sem_t` that a fork leaves alone. -/
structure FirstSem where
  addr : ℕ
  kept : KeptByFork addr

variable {k k' : Kernel} {Q : Queues} {e : Event} {s : FirstSem} {v : ℤ} {es : List Event}
  {img : Image}

/-! ### The refinement -/

/-- The semaphore as a counter whose queue is the list behind `dummysem`. -/
def counterOf (a : ℕ) (k : Kernel) (Q : Queues) : Counter Node := ⟨(k.sem a).value, Q .sem⟩

/-- The call that an event makes. -/
def semOp (k : Kernel) : Event → Option (Counter.Op Node)
  | .sys (.semWait _) => some (.wait k.current)
  | .sys (.semPost _) => some .post
  | _ => none

/-- One semaphore in use, and every process that is alive waits on its list. -/
structure Counted (s : FirstSem) (k : Kernel) (Q : Queues) : Prop where
  tidy : Tidy k Q
  list : (k.sem s.addr).list = some .dummysem
  psem : ∀ p ∈ procs, p ∉ Q .free → (k.pcb p).psem = some s.addr
  /-- The value is an `int`. -/
  value_lt : (k.sem s.addr).value < 2 ^ 31
  balanced : (counterOf s.addr k Q).Balanced

/-- The value is bounded by the number of processes. -/
theorem Counted.value_ge (h : Counted s k Q) : -9 ≤ (k.sem s.addr).value := by
  have hlen := h.tidy.sound.placed.lists.length_le .sem
  have hb : ((Q .sem).length : ℤ) = max 0 (-(k.sem s.addr).value) := h.balanced
  omega

/-- The waiters after a wait. -/
theorem stepQueues_wait_sem (hc : k.current ≠ .idle) (a : ℕ) :
    stepQueues k Q (.sys (.semWait a)) .sem =
      if blocks a k then Q .sem ++ [k.current] else Q .sem := by
  simp only [stepQueues]
  split_ifs
  · exact schedQueues_semBlocked_sem hc
  · rfl

/-- The waiters after a post. -/
theorem stepQueues_post_sem (a : ℕ) :
    stepQueues k Q (.sys (.semPost a)) .sem =
      if (k.sem a).value < 0 then (Q .sem).tail else Q .sem := by
  simp only [stepQueues]
  split_ifs
  · exact wakeQueues_sem
  · rfl

/-- A fork leaves the semaphore alone. -/
theorem forked_sem {a : ℕ} (ha : KeptByFork a) (k : Kernel) : (forked k).sem a = k.sem a := by
  have hsem : (forked k).sem a = copySems k.sem a := rfl
  simp [hsem, copySems, ha.1, ha.2]

/-- Nobody's place on the wait list or `psem` changes: the counter is the same. -/
theorem Counted.of_same {Q' : Queues} (h : Counted s k Q) (ht : Tidy k' Q')
    (hsem : k'.sem s.addr = k.sem s.addr) (hq : Q' .sem = Q .sem)
    (hpsem : ∀ p ∈ procs, p ∉ Q' .free → (k'.pcb p).psem = some s.addr) :
    Counted s k' Q' ∧ counterOf s.addr k' Q' = counterOf s.addr k Q := by
  have hc : counterOf s.addr k' Q' = counterOf s.addr k Q := by
    rw [counterOf, counterOf, hsem, hq]
  exact ⟨⟨ht, hsem ▸ h.list, hpsem, hsem ▸ h.value_lt, hc ▸ h.balanced⟩, hc⟩

/-- A process that is alone does not touch the counter. -/
theorem counted_alone (h : Counted s k Q) (he : e.alone) (hk : step k e = .ok k') :
    Counted s k' (stepQueues k Q e) ∧
      counterOf s.addr k' (stepQueues k Q e) = counterOf s.addr k Q := by
  have hsw := switched_of_alone h.tidy.sound he hk
  have hinit : ∀ a v, e = .sys (.semInit a v) → Q .sem = [] := by
    rintro a v rfl
    simp [Event.alone] at he
  have hfork : e ≠ .sys .fork := by
    rintro rfl
    simp [Event.alone] at he
  refine h.of_same (tidy_step h.tidy hinit hk) (by rw [hsw.sem]) (stepQueues_alone_sem he)
    fun p hp hf => ?_
  rw [hsw.psem]
  exact h.psem p hp fun hm => hf (mem_stepQueues_free hfork hm)

/-- Nor does a fork. -/
theorem counted_fork (h : Counted s k Q) (hk : step k (.sys .fork) = .ok k') :
    Counted s k' (forkQueues k Q) ∧
      counterOf s.addr k' (forkQueues k Q) = counterOf s.addr k Q := by
  have ht : Tidy k' (forkQueues k Q) := tidy_step h.tidy (by simp) hk
  simp only [step] at hk
  split_ifs at hk with hu
  obtain ⟨-, -, -, nx, rfl⟩ := forkAux_placed h.tidy.sound.placed hk
  have hcur := h.tidy.sound.placed.current_mem hu.1
  refine h.of_same ht (forked_sem s.kept k) (forkQueues_sem k) fun p hp hf => ?_
  rw [Kernel.relink_pcb, forked_pcb]
  split_ifs with hpc
  · -- the child has the `psem` of the caller
    exact h.psem _ hcur (h.tidy.sound.placed.apart .free)
  · refine h.psem p hp fun hm => hf ?_
    rw [forkQueues, Queues.push_of_ne _ _ (by simp), Function.update_self]
    exact (List.mem_erase_of_ne hpc).mpr hm

/-- A wait of the kernel is a wait of the counter. -/
theorem counted_wait (h : Counted s k Q) (hk : step k (.sys (.semWait s.addr)) = .ok k') :
    Counted s k' (stepQueues k Q (.sys (.semWait s.addr))) ∧
      counterOf s.addr k' (stepQueues k Q (.sys (.semWait s.addr))) =
        (counterOf s.addr k Q).apply (.wait k.current) := by
  have ht := tidy_step h.tidy (by simp) hk
  have hr := rescheduled_of_wait h.tidy.sound hk
  have hge := h.value_ge
  have hlt := h.value_lt
  have hupd := sem_of_wait h.tidy.sound hk
  have hval : (k'.sem s.addr).value = (k.sem s.addr).value - 1 := by
    rw [hupd, Function.update_self]
    exact i32_eq_self (by omega) (by omega)
  have hb : blocks s.addr k ↔ (k.sem s.addr).value - 1 < 0 := by
    rw [blocks, i32_eq_self (by omega) (by omega)]
  have hc : counterOf s.addr k' (stepQueues k Q (.sys (.semWait s.addr))) =
      (counterOf s.addr k Q).apply (.wait k.current) := by
    simp only [counterOf, Counter.apply, hval, stepQueues_wait_sem (userMode_of_call hk).1, hb]
    congr
  refine ⟨⟨ht, ?_, fun p hp hf => ?_, by omega, hc ▸ h.balanced.apply _⟩, hc⟩
  · exact (list_of_value hupd _).trans h.list
  · rw [hr.psem]
    exact h.psem p hp fun hm => hf (mem_stepQueues_free (by simp) hm)

/-- A post of the kernel is a post of the counter. -/
theorem counted_post (h : Counted s k Q) (hv : (k.sem s.addr).value + 1 < 2 ^ 31)
    (hk : step k (.sys (.semPost s.addr)) = .ok k') :
    Counted s k' (stepQueues k Q (.sys (.semPost s.addr))) ∧
      counterOf s.addr k' (stepQueues k Q (.sys (.semPost s.addr))) =
        (counterOf s.addr k Q).apply .post := by
  have ht := tidy_step h.tidy (by simp) hk
  have hr := rescheduled_of_post h.tidy.sound hk
  have hge := h.value_ge
  have hupd := sem_of_post h.tidy.sound hk
  have hval : (k'.sem s.addr).value = (k.sem s.addr).value + 1 := by
    rw [hupd, Function.update_self]
    exact i32_eq_self (by omega) (by omega)
  have hc : counterOf s.addr k' (stepQueues k Q (.sys (.semPost s.addr))) =
      (counterOf s.addr k Q).apply .post := by
    simp only [counterOf, Counter.apply, hval, stepQueues_post_sem]
    congr
  refine ⟨⟨ht, ?_, fun p hp hf => ?_, by omega, hc ▸ h.balanced.apply _⟩, hc⟩
  · exact (list_of_value hupd _).trans h.list
  · rw [hr.psem]
    exact h.psem p hp fun hm => hf (mem_stepQueues_free (by simp) hm)

/-- The first process initialises the semaphore. -/
theorem counted_init (h : Solo k Q) (h0 : 0 ≤ v) (hv : v < 2 ^ 31)
    (hk : step k (.sys (.semInit s.addr v)) = .ok k') :
    Counted s k' (stepQueues k Q (.sys (.semInit s.addr v))) ∧
      counterOf s.addr k' (stepQueues k Q (.sys (.semInit s.addr v))) = ⟨v, []⟩ := by
  have ht := tidy_step h.tidy (fun _ _ _ => h.noWaiter) hk
  simp only [step] at hk
  split_ifs at hk with hu
  obtain rfl := Except.ok.inj ((semInitAux_eq s.addr v k).symm.trans hk)
  have hcur := h.current_eq hu
  have hpid : (k.pcb k.current).pid = 1 := by
    have hp := h.tidy.sound.placed.pid 1 (pcb_mem_procs.mpr (by omega))
      (hcur ▸ h.tidy.sound.placed.apart .free)
    rw [hcur, hp]
  have haddr : initAddr s.addr k = s.addr := by simp [initAddr, hpid]
  have hsem : (((semInited s.addr v k).relink (Function.update k.next .dummysem none)).sem s.addr) =
      ⟨v, some .dummysem⟩ := by
    simp [semInited, haddr]
  have hc : counterOf s.addr ((semInited s.addr v k).relink (Function.update k.next .dummysem none))
      (stepQueues k Q (.sys (.semInit s.addr v))) = ⟨v, []⟩ := by
    rw [counterOf, hsem]
    simp [stepQueues]
  refine ⟨⟨ht, by rw [hsem], fun p hp hf => ?_, by rw [hsem]; exact hv, ?_⟩, hc⟩
  · have hpc : p = k.current := by
      rw [hcur]
      refine (h.only p hp).resolve_right fun hm => hf ?_
      simpa [stepQueues] using hm
    simp [hpc, semInited, haddr, Kernel.relink_pcb]
  · rw [hc, Counter.Balanced]
    simp [h0]

/-- **`P` and `V` refine a counting semaphore**: an event acts on the value and the wait list as the
call it makes. -/
theorem counted_step (h : Counted s k Q) (he : e.sharing s.addr)
    (hv : e = .sys (.semPost s.addr) → (k.sem s.addr).value + 1 < 2 ^ 31)
    (hk : step k e = .ok k') :
    Counted s k' (stepQueues k Q e) ∧
      counterOf s.addr k' (stepQueues k Q e) =
        (semOp k e).elim (counterOf s.addr k Q) (counterOf s.addr k Q).apply := by
  cases e with
  | timer => exact counted_alone h rfl hk
  | store a b => exact counted_alone h rfl hk
  | key _ => simp [Event.sharing, Event.scheduling, Event.alone] at he
  | sys c =>
    cases c with
    | exit => exact counted_alone h rfl hk
    | sleep n => exact counted_alone h rfl hk
    | fork => exact counted_fork h hk
    | semWait a =>
      obtain rfl : a = s.addr := by simpa [Event.sharing] using he
      exact counted_wait h hk
    | semPost a =>
      obtain rfl : a = s.addr := by simpa [Event.sharing] using he
      exact counted_post h (hv rfl) hk
    | _ => simp [Event.sharing, Event.scheduling, Event.alone] at he

/-! ### Who waits, seen from outside -/

/-- The caller of a wait on the semaphore at `a`, if the call leaves it `SEM_BLOCKED`. -/
def enlists (a : ℕ) (k : Kernel) : Event → Kernel → List Node
  | .sys (.semWait b), k' =>
    if b = a ∧ (k'.pcb k.current).state = .semBlocked then [k.current] else []
  | _, _ => []

/-- Who stops being `SEM_BLOCKED`. -/
def releases (k : Kernel) (_ : Event) (k' : Kernel) : List Node :=
  (firstPcbs 9).filter fun p => (k.pcb p).state = .semBlocked ∧ (k'.pcb p).state ≠ .semBlocked

/-- The first nine are all. -/
theorem mem_firstPcbs_nine {p : Node} : p ∈ firstPcbs 9 ↔ p ∈ procs := by
  simp [firstPcbs, procs]

/-- No process twice. -/
theorem nodup_firstPcbs (n : ℕ) : (firstPcbs n).Nodup :=
  List.nodup_range.map fun i j h => by
    have := Node.pcb.inj h
    omega

/-- Seen from outside, the processes that leave the wait list are released. -/
theorem mem_releases {Q' : Queues} (h : Tidy k Q) (h' : Tidy k' Q') {p : Node} :
    p ∈ releases k e k' ↔ p ∈ Q .sem ∧ p ∉ Q' .sem := by
  rw [releases, List.mem_filter, mem_firstPcbs_nine]
  constructor
  · rintro ⟨hp, hs⟩
    simp only [ne_eq, decide_eq_true_eq] at hs
    exact ⟨(h.state_iff hp .sem).mp hs.1, fun hm => hs.2 ((h'.state_iff hp .sem).mpr hm)⟩
  · rintro ⟨hm, hm'⟩
    have hp := h.sound.placed.lists.procs .sem p hm
    refine ⟨hp, ?_⟩
    simp only [ne_eq, decide_eq_true_eq]
    exact ⟨(h.state_iff hp .sem).mpr hm, fun hs => hm' ((h'.state_iff hp .sem).mp hs)⟩

/-- Nobody is released while every waiter stays. -/
theorem releases_eq_nil {Q' : Queues} (h : Tidy k Q) (h' : Tidy k' Q')
    (hq : ∀ p ∈ Q .sem, p ∈ Q' .sem) : releases k e k' = [] := by
  refine List.eq_nil_iff_forall_not_mem.mpr fun p hp => ?_
  obtain ⟨hm, hm'⟩ := (mem_releases h h').mp hp
  exact hm' (hq p hm)

/-- The first waiter is released. -/
theorem releases_eq_singleton {Q' : Queues} (h : Tidy k Q) (h' : Tidy k' Q') {p : Node}
    (hq : Q .sem = p :: Q' .sem) : releases k e k' = [p] := by
  have hnd : (p :: Q' .sem).Nodup := hq ▸ h.sound.placed.lists.rep.nodup .sem
  have hrel : (releases k e k').Nodup := (nodup_firstPcbs 9).filter _
  refine List.perm_singleton.mp ((List.perm_ext_iff_of_nodup hrel (by simp)).mpr fun q => ?_)
  rw [mem_releases h h', hq, List.mem_singleton]
  constructor
  · rintro ⟨hm, hm'⟩
    exact (List.mem_cons.mp hm).resolve_right hm'
  · rintro rfl
    exact ⟨List.mem_cons_self, (List.nodup_cons.mp hnd).1⟩

/-- The observers see the arrivals and departures of the counting semaphore. -/
theorem observers_eq (h : Counted s k Q) (he : e.sharing s.addr)
    (hv : e = .sys (.semPost s.addr) → (k.sem s.addr).value + 1 < 2 ^ 31)
    (hk : step k e = .ok k') :
    enlists s.addr k e k' = (semOp k e).elim [] (counterOf s.addr k Q).arrives ∧
      releases k e k' = (semOp k e).elim [] (counterOf s.addr k Q).departs := by
  obtain ⟨h', hc⟩ := counted_step h he hv hk
  have hq : (stepQueues k Q e) .sem =
      ((semOp k e).elim (counterOf s.addr k Q) (counterOf s.addr k Q).apply).queue :=
    congrArg Counter.queue hc
  have hsame : semOp k e = none → releases k e k' = [] := fun ho =>
    releases_eq_nil h.tidy h'.tidy fun p hp => by rw [hq, ho]; exact hp
  cases e with
  | timer => exact ⟨rfl, hsame rfl⟩
  | key _ => exact ⟨rfl, hsame rfl⟩
  | store a b => exact ⟨rfl, hsame rfl⟩
  | sys c =>
    cases c with
    | semWait a =>
      obtain rfl : a = s.addr := by simpa [Event.sharing] using he
      have hu := userMode_of_call hk
      have hcur := h.tidy.sound.placed.current_mem hu.1
      have hstate := h'.tidy.state_iff hcur .sem
      by_cases hb : (k.sem s.addr).value - 1 < 0
      · have hq' : stepQueues k Q (.sys (.semWait s.addr)) .sem = Q .sem ++ [k.current] := by
          simpa [semOp, Counter.apply, counterOf, hb] using hq
        refine ⟨?_, ?_⟩
        · have hs : (k'.pcb k.current).state = .semBlocked := hstate.mpr (by simp [hq'])
          simp [enlists, hs, semOp, Counter.arrives, counterOf, hb]
        · exact releases_eq_nil h.tidy h'.tidy fun p hp => by rw [hq']; exact List.mem_append_left _ hp
      · have hq' : stepQueues k Q (.sys (.semWait s.addr)) .sem = Q .sem := by
          simpa [semOp, Counter.apply, counterOf, hb] using hq
        refine ⟨?_, ?_⟩
        · have hs : (k'.pcb k.current).state ≠ .semBlocked := fun hs =>
            h.tidy.sound.placed.apart .sem (hq' ▸ hstate.mp hs)
          simp [enlists, hs, semOp, Counter.arrives, counterOf, hb]
        · exact releases_eq_nil h.tidy h'.tidy fun p hp => by rw [hq']; exact hp
    | semPost a =>
      obtain rfl : a = s.addr := by simpa [Event.sharing] using he
      refine ⟨rfl, ?_⟩
      by_cases hb : (k.sem s.addr).value < 0
      · obtain ⟨p, rest, hr⟩ := List.exists_cons_of_ne_nil (h.balanced.queue_ne_nil hb)
        have hr' : Q .sem = p :: rest := hr
        have hq' : stepQueues k Q (.sys (.semPost s.addr)) .sem = rest := by
          simpa [semOp, Counter.apply, counterOf, hb, hr'] using hq
        rw [releases_eq_singleton h.tidy h'.tidy (hq'.symm ▸ hr')]
        simp [semOp, Counter.departs, counterOf, hb, hr']
      · have hq' : stepQueues k Q (.sys (.semPost s.addr)) .sem = Q .sem := by
          simpa [semOp, Counter.apply, counterOf, hb] using hq
        rw [releases_eq_nil h.tidy h'.tidy fun p hp => by rw [hq']; exact hp]
        simp [semOp, Counter.departs, counterOf, hb]
    | _ => exact ⟨rfl, hsame rfl⟩

/-! ### Whole runs -/

/-- What an observer sees of a run from start-up. -/
def runLog (img : Image) (f : Kernel → Event → Kernel → List Node) (es : List Event) : List Node :=
  match boot img with
  | .ok k => log step f k es
  | .error _ => []

/-- **`V`** does not fail an assertion if a negative value has a waiter. -/
theorem post_ok {a : ℕ} (h : Sound k Q) (hl : (k.sem a).list = some .dummysem)
    (hq : (k.sem a).value < 0 → Q .sem ≠ []) (hu : userMode k) :
    ∃ k', step k (.sys (.semPost a)) = .ok k' := by
  have h1 : Sound (k.setEax 0) Q := h.fileCall (.setEax k 0)
  simp only [step, if_pos hu, doSyscall, semPostAux, V]
  by_cases hv : (k.sem a).value < 0
  · obtain ⟨p, rest, hr⟩ := List.exists_cons_of_ne_nil (hq hv)
    obtain ⟨nx, hw, -⟩ := wakeFirst_placed (a := a) h1.placed hl hr
    have hv' : ((k.setEax 0).sem a).value < 0 := hv
    rw [if_pos hv', hw]
    exact ⟨_, rfl⟩
  · have hv' : ¬((k.setEax 0).sem a).value < 0 := hv
    rw [if_neg hv']
    exact ⟨_, rfl⟩

/-- The semaphore at `a` has been initialised. -/
def Kernel.initialised (k : Kernel) (a : ℕ) : Prop := (k.sem a).list = some .dummysem

/-- Whether a semaphore was initialised can be computed. -/
instance (k : Kernel) (a : ℕ) : Decidable (k.initialised a) := inferInstanceAs (Decidable (_ = _))

/-- `current->psem` points to a semaphore that has been initialised: it is not `NULL`, as it is in a
process that was forked before the first `sem_init`. -/
def Kernel.psemSet (k : Kernel) : Prop := ∃ b ∈ (k.pcb k.current).psem, k.initialised b

/-- Whether some process has used a semaphore can be computed. -/
instance (k : Kernel) : Decidable k.psemSet := inferInstanceAs (Decidable (∃ _ ∈ _, _))

/-- The list that a process waits on is that of the semaphore it has used. -/
theorem psemList_eq_ok {head : Node} : psemList k = .ok head ↔
    ∃ a, (k.pcb k.current).psem = some a ∧ (k.sem a).list = some head := by
  unfold psemList
  cases hp : (k.pcb k.current).psem with
  | none => simp
  | some a => cases hl : (k.sem a).list with
    | none => simp [hl]
    | some b => simp [hl]

/-- **A call of `sem_wait_aux`** that finds a list to join, if it blocks, does not stop. -/
theorem wait_ok {a : ℕ} (h : Sound k Q) (hps : blocks a k → k.psemSet) (hu : userMode k) :
    ∃ k', step k (.sys (.semWait a)) = .ok k' := by
  have h1 : Sound (k.setEax 0) Q := h.fileCall (.setEax k 0)
  simp only [step, if_pos hu, doSyscall, semWaitAux]
  by_cases hb : blocks a k
  · obtain ⟨b, hpsem, hl⟩ := hps hb
    have hl : (k.sem b).list = some .dummysem := hl
    have hlist : ((takeSem a (k.setEax 0)).sem b).list = some .dummysem := by
      by_cases hba : b = a
      · subst hba; simpa using hl
      · simpa [hba] using hl
    obtain ⟨k', hk', -⟩ := P_of_blocks h1.placed hu.1 hb
      (psemList_eq_ok.mpr ⟨b, by simpa using hpsem, hlist⟩)
    exact ⟨k', hk'⟩
  · exact ⟨_, P_of_not_blocks (k := k.setEax 0) hb⟩

/-- **A call of `sem_post_aux`** on an initialised semaphore fails an assertion at worst. -/
theorem post_not_wild {a : ℕ} (h : Sound k Q) (hi : (k.sem a).value < 0 → k.initialised a)
    (hu : userMode k) (w : Access) : step k (.sys (.semPost a)) ≠ .error (.wild w) := by
  by_cases hq : (k.sem a).value < 0 ∧ Q .sem = []
  · -- nobody is there to be woken: `list_head` finds no first element
    have hnone : k.next .dummysem = none := by
      have hchain : Chain k.next .dummysem (Q .sem) := h.placed.lists.rep.chain .sem
      rw [hq.2] at hchain
      exact hchain
    have hl : (k.sem a).list = some .dummysem := hi hq.1
    have hhead : listHead .dummysem (k.setEax 0) = .error .abort := by
      have hn : (k.setEax 0).next .dummysem = none := hnone
      simp [listHead, hn]
    have hV : V a (k.setEax 0) = .error .abort := by
      simp only [V, wakeFirst]
      simp only [Kernel.setEax, Kernel.store_sem, if_pos hq.1, hl, hhead]
      rfl
    rw [step, if_pos hu, doSyscall, semPostAux, hV]
    simp
  · by_cases hv : (k.sem a).value < 0
    · obtain ⟨k', hk'⟩ := post_ok h (hi hv) (fun hv' hn => hq ⟨hv', hn⟩) hu
      rw [hk']
      simp
    · have hV : V a (k.setEax 0) =
          .ok ((k.setEax 0).setSem a fun s => { s with value := i32 (s.value + 1) }) := by
        have hv' : ¬((k.setEax 0).sem a).value < 0 := hv
        rw [V, if_neg hv']
        rfl
      rw [step, if_pos hu, doSyscall, semPostAux, hV]
      simp

/-- The first waiting process is runnable after a post. -/
theorem mem_post_runnable {a : ℕ} {p : Node} {rest : List Node} (hv : (k.sem a).value < 0)
    (hq : Q .sem = p :: rest) : p ∈ stepQueues k Q (.sys (.semPost a)) .runnable := by
  simp [stepQueues, hv, wakeQueues, hq]

/-- **A post wakes the process that waits longest**, if any. -/
theorem post_wakes (h : Counted s k Q) (hv : (k.sem s.addr).value + 1 < 2 ^ 31)
    (hk : step k (.sys (.semPost s.addr)) = .ok k') :
    releases k (.sys (.semPost s.addr)) k' = (Q .sem).take 1 ∧
      ∀ p ∈ (Q .sem).take 1, (k'.pcb p).state = .runnable := by
  have hrel := (observers_eq h (by simp [Event.sharing]) (fun _ => hv) hk).2
  have h' := (counted_post h hv hk).1.tidy
  by_cases hb : (k.sem s.addr).value < 0
  · obtain ⟨p, rest, hr⟩ := List.exists_cons_of_ne_nil (h.balanced.queue_ne_nil hb)
    have hr' : Q .sem = p :: rest := hr
    have hp := mem_post_runnable (a := s.addr) hb hr'
    refine ⟨by simpa [semOp, Counter.departs, counterOf, hb] using hrel, fun q hq => ?_⟩
    obtain rfl : q = p := by simpa [hr'] using hq
    exact h'.at_state (l := .queue .runnable) hp
  · have hq : Q .sem = [] := by
      have hlen : ((Q .sem).length : ℤ) = max 0 (-(k.sem s.addr).value) := h.balanced
      exact List.length_eq_zero_iff.mp (by omega)
    refine ⟨?_, by simp [hq]⟩
    simpa [semOp, Counter.departs, counterOf, hb, hq] using hrel

/-- Before the semaphore is initialised there is nothing to see. -/
theorem log_alone {k0 : Kernel} {Q0 : Queues} (h : Solo k0 Q0) (hes : ∀ e ∈ es, e.alone)
    (hk : run step k0 es = .ok k) :
    log step (enlists s.addr) k0 es = [] ∧ log step releases k0 es = [] := by
  induction es using List.reverseRecOn generalizing k with
  | nil => exact ⟨rfl, rfl⟩
  | append_singleton es e ih =>
    obtain ⟨k1, h1, hs⟩ := run_snoc_eq_ok.mp hk
    have hes' : ∀ e ∈ es, e.alone := fun e he => hes e (by simp [he])
    have he : e.alone := hes e (by simp)
    obtain ⟨Q1, hQ1⟩ := solo_run h hes' h1
    have hen : enlists s.addr k1 e k = [] := by
      cases e with
      | sys c => cases c <;> first | rfl | cases he
      | _ => rfl
    have hrel : releases k1 e k = [] :=
      releases_eq_nil hQ1.tidy (hQ1.step he hs).tidy (by simp [hQ1.noWaiter])
    rw [log_snoc h1 hs, log_snoc h1 hs, (ih hes' h1).1, (ih hes' h1).2, hen, hrel]
    exact ⟨rfl, rfl⟩

/-- The value after an event. -/
theorem counted_value (h : Counted s k Q) (he : e.sharing s.addr)
    (hv : e = .sys (.semPost s.addr) → (k.sem s.addr).value + 1 < 2 ^ 31)
    (hk : step k e = .ok k') :
    (k'.sem s.addr).value = (k.sem s.addr).value + [e].count (.sys (.semPost s.addr)) -
      [e].count (.sys (.semWait s.addr)) := by
  have hval := congrArg Counter.value (counted_step h he hv hk).2
  cases e with
  | sys c =>
    cases c with
    | semWait a =>
      obtain rfl : a = s.addr := by simpa [Event.sharing] using he
      simpa [semOp, Counter.apply, counterOf] using hval
    | semPost a =>
      obtain rfl : a = s.addr := by simpa [Event.sharing] using he
      simpa [semOp, Counter.apply, counterOf] using hval
    | _ => simpa [semOp, counterOf] using hval
  | _ => simpa [semOp, counterOf] using hval

/-- The counting semaphore over a run. -/
theorem counted_run {k0 : Kernel} {Q0 : Queues} (h : Counted s k0 Q0)
    (hc : counterOf s.addr k0 Q0 = ⟨v, []⟩) (hes : ∀ e ∈ es, e.sharing s.addr)
    (hv : v + es.count (.sys (.semPost s.addr)) < 2 ^ 31) (hk : run step k0 es = .ok k) :
    ∃ Q, Counted s k Q ∧
      (k.sem s.addr).value =
        v + es.count (.sys (.semPost s.addr)) - es.count (.sys (.semWait s.addr)) ∧
      log step (enlists s.addr) k0 es = log step releases k0 es ++ Q .sem := by
  induction es using List.reverseRecOn generalizing k with
  | nil =>
    obtain rfl := Except.ok.inj hk
    have hval : (k0.sem s.addr).value = v := congrArg Counter.value hc
    have hq : Q0 .sem = [] := congrArg Counter.queue hc
    exact ⟨Q0, h, by simp [hval], by simp [hq]⟩
  | append_singleton es e ih =>
    obtain ⟨k1, h1, hs⟩ := run_snoc_eq_ok.mp hk
    rw [List.count_append] at hv
    push_cast at hv
    obtain ⟨Q1, hQ1, hval, hlog⟩ := ih (fun e he => hes e (by simp [he])) (by omega) h1
    have he : e.sharing s.addr := hes e (by simp)
    have hpost : e = .sys (.semPost s.addr) → (k1.sem s.addr).value + 1 < 2 ^ 31 := by
      rintro rfl
      rw [List.count_singleton_self] at hv
      omega
    obtain ⟨hQ, hcnt⟩ := counted_step hQ1 he hpost hs
    obtain ⟨hen, hrel⟩ := observers_eq hQ1 he hpost hs
    have hfifo : Q1 .sem ++ enlists s.addr k1 e k =
        releases k1 e k ++ stepQueues k1 Q1 e .sem := by
      rw [hen, hrel, show stepQueues k1 Q1 e .sem = _ from congrArg Counter.queue hcnt]
      cases semOp k1 e with
      | none => exact List.append_nil _
      | some o => exact (counterOf s.addr k1 Q1).fifo o
    refine ⟨_, hQ, ?_, ?_⟩
    · rw [counted_value hQ1 he hpost hs, hval, List.count_append, List.count_append]
      push_cast
      omega
    · rw [log_snoc h1 hs, log_snoc h1 hs, hlog, List.append_assoc, List.append_assoc, hfifo]

/-- **A semaphore counts.** In every state that a run with one semaphore reaches, its value is the
initial one plus the posts minus the waits; as many processes wait as the value is negative, and
they are those whose wait left them blocked and who have not been released, in the order of their
calls. A post releases the first of them, and does not fail. -/
theorem semaphore_counts {pre post : List Event} (h0 : 0 ≤ v)
    (hv : v + post.count (.sys (.semPost s.addr)) < 2 ^ 31) (hpre : ∀ e ∈ pre, e.alone)
    (hpost : ∀ e ∈ post, e.sharing s.addr)
    (hk : runFrom img (pre ++ .sys (.semInit s.addr v) :: post) = .ok k) :
    (k.sem s.addr).value =
        v + post.count (.sys (.semPost s.addr)) - post.count (.sys (.semWait s.addr)) ∧
      ∃ waiting : List Node,
        (k.sem s.addr).list = some .dummysem ∧ Chain k.next .dummysem waiting ∧
        (waiting.length : ℤ) = max 0 (-(k.sem s.addr).value) ∧
        runLog img (enlists s.addr) (pre ++ .sys (.semInit s.addr v) :: post) =
          runLog img releases (pre ++ .sys (.semInit s.addr v) :: post) ++ waiting ∧
        (userMode k → ∃ k', step k (.sys (.semPost s.addr)) = .ok k') ∧
        ∀ k', v + post.count (.sys (.semPost s.addr)) + 1 < 2 ^ 31 →
          step k (.sys (.semPost s.addr)) = .ok k' →
          releases k (.sys (.semPost s.addr)) k' = waiting.take 1 ∧
            ∀ p ∈ waiting.take 1, (k'.pcb p).state = .runnable := by
  obtain ⟨k0, hb, hr⟩ := bind_eq_ok.mp hk
  obtain ⟨k1, h1, hr⟩ := bind_eq_ok.mp (run_append ▸ hr)
  obtain ⟨k2, h2, hr⟩ := bind_eq_ok.mp hr
  obtain ⟨Q1, hQ1⟩ := solo_run (solo_boot hb) hpre h1
  obtain ⟨hQ2, hc2⟩ := counted_init hQ1 h0 (by omega) h2
  obtain ⟨Q, hQ, hval, hlog⟩ := counted_run hQ2 hc2 hpost hv hr
  refine ⟨hval, Q .sem, hQ.list, hQ.tidy.sound.placed.lists.rep.chain .sem, hQ.balanced, ?_,
    post_ok hQ.tidy.sound hQ.list hQ.balanced.queue_ne_nil, fun k' hv' hk' => ?_⟩
  · have hrun : run step k0 (pre ++ [.sys (.semInit s.addr v)]) = .ok k2 :=
      run_snoc_eq_ok.mpr ⟨k1, h1, h2⟩
    have hsplit : pre ++ .sys (.semInit s.addr v) :: post =
        (pre ++ [.sys (.semInit s.addr v)]) ++ post := by simp
    have hrel : releases k1 (.sys (.semInit s.addr v)) k2 = [] :=
      releases_eq_nil hQ1.tidy hQ2.tidy (by simp [hQ1.noWaiter])
    obtain ⟨hen0, hrel0⟩ := log_alone (s := s) (solo_boot hb) hpre h1
    simp only [runLog, hb]
    rw [hsplit, log_append hrun, log_append hrun, log_snoc h1 h2, log_snoc h1 h2, hen0, hrel0, hrel]
    exact hlog
  · have hbound : (k.sem s.addr).value + 1 < 2 ^ 31 := by omega
    exact post_wakes hQ hbound hk'

/-- Three waits and a post on a semaphore that starts at 0. -/
theorem semaphore_counts_threeWaiters :
    ∃ k, runFrom .blank (List.replicate 10 .timer ++ .sys (.semInit 0x200100 0) ::
      [.sys .fork, .sys .fork, .sys (.semWait 0x200100), .sys (.semWait 0x200100),
        .sys (.semPost 0x200100), .sys (.semWait 0x200100)]) = .ok k ∧
      (k.sem 0x200100).value = -2 := by
  obtain ⟨k, hk⟩ := exists_ok (x := runFrom .blank (List.replicate 10 .timer ++
    .sys (.semInit 0x200100 0) :: [.sys .fork, .sys .fork, .sys (.semWait 0x200100),
      .sys (.semWait 0x200100), .sys (.semPost 0x200100), .sys (.semWait 0x200100)]))
    (by decide +kernel)
  have h := semaphore_counts (s := ⟨0x200100, by decide⟩) (by decide) (by decide)
    (by decide) (by decide) hk
  exact ⟨k, hk, h.1.trans (by decide)⟩

end OsLab
