import OsLab.Scheduler.Placement

/-!
# What `schedule` does

The switch as a function of the queues: `parkQueues` puts the process that leaves the CPU where its
state says, `schedQueues` takes the head of the runnable processes off, `schedNext` is who runs
then.
-/

namespace OsLab

open OsLab.Lib

variable {k k' : Kernel} {Q : Queues} {st : PState}

/-- The list a process in this state goes to when it leaves the CPU. -/
def parkName : PState → QName
  | .dead => .free
  | .blocked => .blocked
  | .semBlocked => .sem
  | _ => .runnable

/-- The state it has there. -/
def parkState : PState → PState
  | .running => .runnable
  | st => st

/-- The queues once the current process is put away; `idle` is on no list. -/
def parkQueues (st : PState) (cur : Node) (Q : Queues) : Queues :=
  if cur = .idle then Q else Q.push (parkName st) cur

/-- The queues after `schedule`. -/
def schedQueues (st : PState) (cur : Node) (Q : Queues) : Queues :=
  if Q .runnable = [] then if st = .running then Q else parkQueues st cur Q
  else (parkQueues st cur Q).pop .runnable

/-- The process that runs after `schedule`. -/
def schedNext (st : PState) (cur : Node) (Q : Queues) : Node :=
  match Q .runnable with
  | [] => if st = .running then cur else .idle
  | p :: _ => p

/-- The places after the current process was put away. -/
theorem mem_parkQueues {i : QName} {p cur : Node} :
    p ∈ parkQueues st cur Q i ↔ p ∈ Q i ∨ (cur ≠ .idle ∧ i = parkName st ∧ p = cur) := by
  unfold parkQueues
  split_ifs with h
  · simp [h]
  · simp [Queues.mem_push, h]

/-- A process is given the CPU. -/
theorem rescheduled_dispatch (p : Node) (k : Kernel) : Rescheduled k (dispatch p k) where
  rest := rfl
  pcb q := by
    by_cases hq : q = p
    · subst hq; simp [dispatch]
    · simp [dispatch, hq]

/-- The idle process is given the CPU. -/
theorem rescheduled_toIdle (k : Kernel) : Rescheduled k (toIdle k) where
  rest := rfl
  pcb q := by
    by_cases hq : q = .idle
    · subst hq; simp [toIdle]
    · simp [toIdle, hq]

/-- A new state is a way to reschedule. -/
theorem rescheduled_setState (k : Kernel) (p : Node) (st : PState) :
    Rescheduled k (k.setState p st) :=
  .of_setPcb k _ _ fun _ => rfl

/-- Whoever is first on the runnable list stays first. -/
theorem parkQueues_cons (st : PState) (cur : Node) {p : Node} {rest : List Node}
    (hr : Q .runnable = p :: rest) : ∃ tl, parkQueues st cur Q .runnable = p :: tl := by
  unfold parkQueues
  split_ifs
  · exact ⟨rest, hr⟩
  · by_cases hn : QName.runnable = parkName st
    · exact ⟨rest ++ [cur], by rw [← hn, Queues.push_same, hr]; rfl⟩
    · exact ⟨rest, by rw [Queues.push_of_ne _ _ hn, hr]⟩

/-- **No process is lost** by the switch. -/
theorem Complete.sched {cur : Node} (h : Complete cur Q) :
    Complete (schedNext st cur Q) (schedQueues st cur Q) := by
  have hpark : ∀ p ∈ procs, ∃ i, p ∈ parkQueues st cur Q i := by
    intro p hp
    rcases h p hp with rfl | ⟨i, hi⟩
    · have hc : p ≠ .idle := fun he => idle_not_mem_procs (he ▸ hp)
      exact ⟨_, mem_parkQueues.mpr (.inr ⟨hc, rfl, rfl⟩)⟩
    · exact ⟨i, mem_parkQueues.mpr (.inl hi)⟩
  intro p hp
  cases hr : Q .runnable with
  | nil =>
    by_cases hst : st = .running
    · simpa [schedNext, schedQueues, hr, hst] using h p hp
    · exact .inr (by simpa [schedQueues, hr, hst] using hpark p hp)
  | cons q rest =>
    -- the head of the runnable list is the new current process, everybody else stays
    obtain ⟨i, hi⟩ := hpark p hp
    obtain ⟨tl, htl⟩ := parkQueues_cons st cur hr
    simp only [schedNext, schedQueues, hr]
    by_cases hir : i = .runnable
    · subst hir
      rw [htl] at hi
      exact (List.mem_cons.mp hi).imp id fun hm => ⟨.runnable, by simpa [Queues.pop, htl] using hm⟩
    · exact .inr ⟨i, by simpa [Queues.pop_of_ne _ hir] using hi⟩

/-- What the caller of `schedule` owes: a process that gives up the CPU, and for a process that
waits for a semaphore a `psem` whose list is set. -/
structure MaySwitch (k : Kernel) (st : PState) : Prop where
  state : st ≠ .runnable
  idle : k.current = .idle → st = .running
  psem : st = .semBlocked → psemList k = .ok .dummysem

/-- A process that goes on as it was may lose the CPU. -/
theorem MaySwitch.running (k : Kernel) : MaySwitch k .running :=
  ⟨by simp, fun _ => rfl, by simp⟩

/-- A process on a list is not the current one. -/
theorem Placed.ne_current (h : Placed k Q st) {i : QName} {p : Node} (hp : p ∈ Q i) :
    p ≠ k.current :=
  fun he => h.apart i (he ▸ hp)

/-- The current process is a process, unless the machine is idle. -/
theorem Placed.current_mem (h : Placed k Q st) (hc : k.current ≠ .idle) : k.current ∈ procs :=
  h.current.resolve_left hc

/-- A process that has the CPU is not free. -/
theorem Placed.length_free_le (h : Placed k Q st) (hc : k.current ≠ .idle) : (Q .free).length ≤ 8 := by
  have hnd : (k.current :: Q .free).Nodup :=
    List.nodup_cons.mpr ⟨h.apart .free, h.lists.rep.nodup .free⟩
  have hsub : (k.current :: Q .free).toFinset ⊆ procs := by
    intro p hp
    rcases List.mem_cons.mp (List.mem_toFinset.mp hp) with rfl | hp
    · exact h.current_mem hc
    · exact h.lists.procs .free p hp
  have hcard := Finset.card_le_card hsub
  rw [List.toFinset_card_of_nodup hnd, card_procs, List.length_cons] at hcard
  exact Nat.le_of_succ_le_succ hcard

/-- The free list grows by a process that is dead. -/
theorem Placed.park_free_length (h : Placed k Q st) (hm : MaySwitch k st) :
    (parkQueues st k.current Q .free).length = (Q .free).length + if st = .dead then 1 else 0 := by
  unfold parkQueues
  split_ifs with hc hd hd
  · rw [hm.idle hc] at hd; cases hd
  · rfl
  · subst hd; simp [parkName]
  · rw [Queues.push_of_ne Q k.current (by cases st <;> simp_all [parkName])]
    rfl

/-- The branches of `schedule` that put the current process on the list its state names. -/
theorem parkCurrent_eq (h : Placed k Q st) (hm : MaySwitch k st) (hst : st ≠ .running) :
    ∃ nx, parkCurrent k = .ok (k.relink nx) ∧ Holds (k.relink nx) (parkQueues st k.current Q) := by
  have hc : k.current ≠ .idle := fun he => hst (hm.idle he)
  have hadd := fun i => listAdd_eq h.lists i h.apart (h.current_mem hc)
  rw [parkQueues, if_neg hc]
  unfold parkCurrent
  rw [h.curState]
  cases st with
  | running => exact absurd rfl hst
  | runnable => exact absurd rfl hm.state
  | dead => exact hadd .free
  | blocked => exact hadd .blocked
  | semBlocked =>
    obtain ⟨nx, hk, hh⟩ := hadd .sem
    exact ⟨nx, by rw [hm.psem rfl]; exact hk, hh⟩

/-- The first half of a switch to another process: the current process leaves the CPU. -/
theorem leave_eq (h : Placed k Q st) (hm : MaySwitch k st) :
    ∃ nx, leaveCpu k = .ok ((k.setState k.current (parkState st)).relink nx) ∧
      Holds ((k.setState k.current (parkState st)).relink nx) (parkQueues st k.current Q) := by
  unfold leaveCpu
  by_cases hst : st = .running
  · subst hst
    rw [if_pos h.curState]
    have hh : Holds (k.setState k.current .runnable) Q := h.lists.congr (by
      funext q
      by_cases hq : q = k.current <;> simp [Kernel.next, hq])
    by_cases hc : k.current = .idle
    · refine ⟨(k.setState k.current .runnable).next, ?_, ?_⟩
      · simp [hc, parkState]
      · simpa [hc, parkQueues, parkState] using hh
    · obtain ⟨nx, hk, hh'⟩ := listAdd_eq hh .runnable h.apart (h.current_mem hc)
      refine ⟨nx, ?_, ?_⟩
      · simp only [Kernel.setPcb_current, if_pos hc]
        exact hk
      · rw [parkQueues, if_neg hc]; exact hh'
  · rw [if_neg (by rw [h.curState]; exact hst)]
    obtain ⟨nx, hk, hh⟩ := parkCurrent_eq h hm hst
    have hself : k.setState k.current (parkState st) = k := by
      apply Kernel.setPcb_eq_self
      rw [show parkState st = st by cases st <;> first | rfl | exact absurd rfl hst, ← h.curState]
    rw [hself]
    exact ⟨nx, hk, hh⟩

/-- The picture after a process took the CPU from the head of the runnable list. -/
theorem placed_dispatch (h : Placed k Q st) (hm : MaySwitch k st) {p : Node} {rest : List Node}
    (hr : Q .runnable = p :: rest) {nx : Node → Option Node}
    (hh : Holds ((dispatch p (k.setState k.current (parkState st))).relink nx)
      ((parkQueues st k.current Q).pop .runnable))
    (hpr : ∃ tl, parkQueues st k.current Q .runnable = p :: tl ∧ (p :: tl).Nodup)
    (hpo : ∀ i ≠ .runnable, p ∉ parkQueues st k.current Q i) :
    Placed ((dispatch p (k.setState k.current (parkState st))).relink nx)
      ((parkQueues st k.current Q).pop .runnable) .running := by
  have hp : p ∈ Q .runnable := by simp [hr]
  have hpc : p ≠ k.current := h.ne_current hp
  obtain ⟨tl, htl, hnd⟩ := hpr
  have hapart : ∀ i, p ∉ (parkQueues st k.current Q).pop .runnable i := by
    intro i
    by_cases hi : i = .runnable
    · subst hi
      rw [Queues.pop_same, htl]
      exact (List.nodup_cons.mp hnd).1
    · rw [Queues.pop_of_ne _ hi]
      exact hpo i hi
  refine ⟨hh, .inr (h.lists.procs _ p hp), hapart, ?_, by simp [dispatch], ?_, ?_⟩
  · intro i q hq
    have hqp : q ≠ p := fun he => hapart i (he ▸ hq)
    rcases mem_parkQueues.mp (Queues.mem_of_mem_pop hq) with hq' | ⟨-, rfl, rfl⟩
    · simpa [dispatch, hqp, h.ne_current hq'] using h.state i q hq'
    · have hs := hm.state
      cases st <;> simp_all [dispatch, parkName, parkState, QName.state]
  · intro i hi hfree
    have hnf : Node.pcb i ∉ Q .free := fun hm' => hfree (by
      rw [Queues.pop_of_ne _ (by simp)]
      exact mem_parkQueues.mpr (.inl hm'))
    have hres := (rescheduled_setState k k.current (parkState st)).trans
      ((rescheduled_dispatch p _).trans (.of_relink _ nx))
    rw [hres.pid]
    exact h.pid i hi hnf
  · rw [Queues.pop_of_ne _ (by simp), h.park_free_length hm]
    have hnum := h.pNum
    change k.pNum + _ + 0 = 10
    split_ifs at hnum ⊢ <;> omega

/-- The picture after the last process left the CPU to `idle`. -/
theorem placed_toIdle (h : Placed k Q st) (hm : MaySwitch k st) (hst : st ≠ .running)
    {nx : Node → Option Node}
    (hh : Holds ((toIdle k).relink nx) (parkQueues st k.current Q)) :
    Placed ((toIdle k).relink nx) (parkQueues st k.current Q) .running := by
  have hc : k.current ≠ .idle := fun he => hst (hm.idle he)
  have hne : ∀ i, ∀ q ∈ parkQueues st k.current Q i, q ≠ .idle :=
    fun i q hq he => idle_not_mem_procs (he ▸ hh.procs i q hq)
  refine ⟨hh, .inl rfl, fun i hi => hne i _ hi rfl, ?_, by simp [toIdle], ?_, ?_⟩
  · intro i q hq
    have hqi := hne i q hq
    rcases mem_parkQueues.mp hq with hq' | ⟨-, rfl, rfl⟩
    · simpa [toIdle, hqi] using h.state i q hq'
    · have hs := hm.state
      have hcs := h.curState
      cases st <;> simp_all [toIdle, parkName, QName.state]
  · intro i hi hfree
    have hnf : Node.pcb i ∉ Q .free := fun hm' => hfree (mem_parkQueues.mpr (.inl hm'))
    simpa [toIdle] using h.pid i hi hnf
  · rw [h.park_free_length hm]
    have hnum := h.pNum
    change k.pNum + _ + 0 = 10
    split_ifs at hnum ⊢ <;> omega

/-- The kernel stack pointer of the current process is the end of its trap frame. -/
def StackTop (k : Kernel) : Prop :=
  k.current ≠ .idle → k.esp0 = ⟨k.current, MAX_STACK_SIZE + TF_SIZE⟩

/-- Nobody else is runnable: a process that keeps the CPU gets a new time slice. -/
theorem placed_keep (h : Placed k Q .running) :
    Placed (k.setPcb k.current fun c => { c with timeCount := 10 }) Q .running := by
  have hkey : ∀ q, ((k.setPcb k.current fun c => { c with timeCount := 10 }).pcb q).state =
      (k.pcb q).state ∧ ((k.setPcb k.current fun c => { c with timeCount := 10 }).pcb q).pid =
      (k.pcb q).pid := by
    intro q
    by_cases hq : q = k.current <;> simp [hq]
  refine ⟨h.lists.congr ?_, h.current, h.apart, ?_, ?_, ?_, h.pNum⟩
  · funext q
    by_cases hq : q = k.current <;> simp [Kernel.next, hq]
  · exact fun i q hq => by rw [(hkey q).1]; exact h.state i q hq
  · rw [Kernel.setPcb_current, (hkey _).1]; exact h.curState
  · exact fun i hi hf => by rw [(hkey _).2]; exact h.pid i hi hf

/-- Nobody else is runnable: `idle` follows a process that leaves the CPU. -/
theorem schedule_toIdle (h : Placed k Q st) (hm : MaySwitch k st) (hst : st ≠ .running)
    (hnone : (k.next runnableList).isSome = false) :
    ∃ nx, schedule k = .ok ((toIdle k).relink nx) ∧
      Placed ((toIdle k).relink nx) (parkQueues st k.current Q) .running := by
  obtain ⟨nx, hk, hh⟩ := parkCurrent_eq h hm hst
  have hcomm : toIdle (k.relink nx) = (toIdle k).relink nx := by
    have := ({ k with current := .idle } : Kernel).setPcb_relink nx .idle
      (fun c => { c with state := .running, timeCount := 10 }) fun _ _ => rfl
    exact this
  refine ⟨nx, ?_, placed_toIdle h hm hst (hh.congr rfl)⟩
  have hs := hm.state
  have hcs := h.curState
  cases st <;> simp_all [schedule]

/-- Somebody is runnable: the head of the list follows. -/
theorem schedule_dispatch (h : Placed k Q st) (hm : MaySwitch k st) {p : Node} {rest : List Node}
    (hr : Q .runnable = p :: rest) (hsome : (k.next runnableList).isSome = true) :
    ∃ nx, schedule k = .ok ((dispatch p (k.setState k.current (parkState st))).relink nx) ∧
      Placed ((dispatch p (k.setState k.current (parkState st))).relink nx)
        ((parkQueues st k.current Q).pop .runnable) .running := by
  obtain ⟨nx, hk, hh⟩ := leave_eq h hm
  obtain ⟨tl, htl⟩ := parkQueues_cons st k.current hr
  have hp : p ∈ parkQueues st k.current Q .runnable := by simp [htl]
  obtain ⟨nx2, hdel, hh2⟩ := listDelete_eq hh .runnable hp
  have hpop : Function.update (parkQueues st k.current Q) .runnable
      ((parkQueues st k.current Q .runnable).erase p) =
      (parkQueues st k.current Q).pop .runnable := by
    rw [Queues.pop, htl]; simp
  rw [hpop, Kernel.relink_relink] at hh2
  have hhead : listHead runnableList ((k.setState k.current (parkState st)).relink nx) =
      .ok p := by
    rw [show runnableList = QName.runnable.head from rfl, listHead_eq hh .runnable, htl]
    rfl
  have hcomm : dispatch p ((k.setState k.current (parkState st)).relink nx2) =
      (dispatch p (k.setState k.current (parkState st))).relink nx2 := by
    have := (k.setState k.current (parkState st)).setPcb_relink nx2 p
      (fun c => { c with state := .running, timeCount := 10, sleepTime := 0 }) fun _ _ => rfl
    simp only [dispatch, this]
    rfl
  refine ⟨nx2, ?_, ?_⟩
  · rw [schedule, if_pos hsome]
    simp only [hk, ok_bind, hhead]
    rw [show listDelete runnableList p ((k.setState k.current (parkState st)).relink nx) = _
      from hdel]
    simp only [ok_bind, Kernel.relink_relink, hcomm]
  · refine placed_dispatch h hm hr ?_ ⟨tl, htl, htl ▸ hh.rep.nodup .runnable⟩ ?_
    · exact hh2.congr rfl
    · exact fun i hi hm' => hi (hh.rep.disjoint i .runnable p hm' hp)

/-- **`schedule`** on a well-formed process table does not fail. It puts the current process where
its state says, gives the CPU to the head of the runnable list (or to `idle`), and changes nothing
else. -/
theorem schedule_placed (h : Placed k Q st) (hm : MaySwitch k st) :
    ∃ k', schedule k = .ok k' ∧ Placed k' (schedQueues st k.current Q) .running ∧
      k'.current = schedNext st k.current Q ∧ Rescheduled k k' ∧ (StackTop k → StackTop k') := by
  have hnext := h.lists.next_head .runnable
  cases hr : Q .runnable with
  | nil =>
    have hnone : (k.next runnableList).isSome = false := by
      rw [show k.next runnableList = _ from hnext, hr]; rfl
    by_cases hst : st = .running
    · subst hst
      refine ⟨k.setPcb k.current fun c => { c with timeCount := 10 }, ?_, ?_, ?_, ?_, fun ht => ht⟩
      · simp [schedule, hnone, h.curState]
      · rw [schedQueues, if_pos hr, if_pos rfl]
        exact placed_keep h
      · simp [schedNext, hr]
      · exact .of_setPcb k _ _ fun c => rfl
    · obtain ⟨nx, hk, hp⟩ := schedule_toIdle h hm hst hnone
      refine ⟨_, hk, ?_, ?_, ?_, fun _ hc => absurd rfl hc⟩
      · rw [schedQueues, if_pos hr, if_neg hst]
        exact hp
      · simp [schedNext, hr, hst, toIdle]
      · exact (rescheduled_toIdle k).trans (.of_relink _ nx)
  | cons p rest =>
    have hsome : (k.next runnableList).isSome = true := by
      rw [show k.next runnableList = _ from hnext, hr]; rfl
    obtain ⟨nx, hk, hp⟩ := schedule_dispatch h hm hr hsome
    refine ⟨_, hk, ?_, ?_, ?_, fun _ _ => rfl⟩
    · rw [schedQueues, if_neg (by simp [hr])]
      exact hp
    · simp [schedNext, hr, dispatch]
    · exact (rescheduled_setState k k.current (parkState st)).trans
        ((rescheduled_dispatch p _).trans (.of_relink _ nx))

end OsLab
