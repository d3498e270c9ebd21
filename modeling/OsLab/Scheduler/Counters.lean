import OsLab.Scheduler.Sound

/-!
# `timeCount` and `sleepTime`

Besides the ticks of `timerHandle` two things write the counters of a PCB: `schedule`, which gives
the process it dispatches a full quantum (`schedule_counts`), and the calls that make a process
sleep or that make a new one.

* `counts_step`: what an event that is no tick does to the counters. A process that keeps the CPU
  keeps its `timeCount`, one that gets it starts with 10, and the sleepers keep their `sleepTime`.
* `tick_step`: what a tick does. The current process loses one of its `timeCount`, every sleeper one
  of its `sleepTime`.
-/

namespace OsLab

open OsLab.Lib

variable {k k' : Kernel} {Q : Queues} {e : Event} {p : Node}

/-! ### `schedule` -/

/-- The counters of `p` are the same. -/
def SameCounts (k k' : Kernel) (p : Node) : Prop :=
  (k'.pcb p).timeCount = (k.pcb p).timeCount ∧ (k'.pcb p).sleepTime = (k.pcb p).sleepTime

/-- The counters are kept by one step after another. -/
theorem SameCounts.trans {k'' : Kernel} (h : SameCounts k k' p) (h' : SameCounts k' k'' p) :
    SameCounts k k'' p :=
  ⟨h'.1.trans h.1, h'.2.trans h.2⟩

/-- An update that keeps the counters of its node. -/
theorem sameCounts_setPcb (k : Kernel) (q : Node) (f : PCB → PCB)
    (hf : ∀ c, (f c).timeCount = c.timeCount ∧ (f c).sleepTime = c.sleepTime) :
    SameCounts k (k.setPcb q f) p := by
  by_cases hp : p = q
  · subst hp
    simpa [SameCounts] using hf (k.pcb p)
  · simp [SameCounts, hp]

/-- A call on files touches no counter. -/
theorem FileCall.sameCounts (h : FileCall k k') (p : Node) : SameCounts k k' p := by
  unfold SameCounts
  rw [h.pcb p]
  exact ⟨rfl, rfl⟩

/-- The list functions only relink. -/
theorem listAdd_rest {head d : Node} (hk : listAdd head d k = .ok k') : ∃ nx, k' = k.relink nx := by
  unfold listAdd at hk
  split at hk
  · cases hk
  · obtain rfl := Except.ok.inj hk
    rw [Kernel.setNext_eq_relink, Kernel.setNext_eq_relink, Kernel.relink_relink]
    exact ⟨_, rfl⟩

/-- Taking a node off a list changes links only. -/
theorem listDelete_rest {head d : Node} (hk : listDelete head d k = .ok k') :
    ∃ nx, k' = k.relink nx := by
  unfold listDelete at hk
  split at hk
  · cases hk
  · split at hk
    · cases hk
    · obtain rfl := Except.ok.inj hk
      rw [Kernel.setNext_eq_relink]
      exact ⟨_, rfl⟩

/-- Parking the current process changes links only. -/
theorem parkCurrent_rest (hk : parkCurrent k = .ok k') : ∃ nx, k' = k.relink nx := by
  unfold parkCurrent at hk
  split at hk
  · exact listAdd_rest hk
  · exact listAdd_rest hk
  · obtain ⟨head, -, hk⟩ := bind_eq_ok.mp hk
    exact listAdd_rest hk
  · exact ⟨k.next, (Except.ok.inj hk).symm⟩

/-- Leaving the CPU touches no counter. -/
theorem leaveCpu_counts (hk : leaveCpu k = .ok k') (p : Node) : SameCounts k k' p := by
  have hset : ∀ st, SameCounts k (k.setState k.current st) p :=
    fun _ => sameCounts_setPcb k k.current _ fun _ => ⟨rfl, rfl⟩
  unfold leaveCpu at hk
  split_ifs at hk
  · dsimp only at hk
    split_ifs at hk
    · obtain ⟨nx, rfl⟩ := listAdd_rest hk
      exact hset _
    · obtain rfl := Except.ok.inj hk
      exact hset _
  · obtain ⟨nx, rfl⟩ := parkCurrent_rest hk
    exact ⟨rfl, rfl⟩

/-- **`schedule`** gives whoever runs next a full quantum and leaves the other counters alone. -/
theorem schedule_counts (hk : schedule k = .ok k') (hst : (k.pcb k.current).state ≠ .runnable) :
    (k'.pcb k'.current).timeCount = 10 ∧ ∀ p ≠ k'.current, SameCounts k k' p := by
  unfold schedule at hk
  split_ifs at hk
  · obtain ⟨k1, h1, hk⟩ := bind_eq_ok.mp hk
    obtain ⟨q, -, hk⟩ := bind_eq_ok.mp hk
    obtain ⟨k2, h2, hk⟩ := bind_eq_ok.mp hk
    obtain rfl := Except.ok.inj hk
    obtain ⟨nx, rfl⟩ := listDelete_rest h2
    constructor
    · simp [dispatch]
    · intro p hp
      have hp : p ≠ q := hp
      refine (leaveCpu_counts h1 p).trans ?_
      simp [SameCounts, dispatch, hp, Kernel.relink_pcb]
  · split at hk
    · obtain rfl := Except.ok.inj hk
      constructor
      · simp
      · intro p hp
        have hp : p ≠ k.current := hp
        simp [SameCounts, hp]
    · exact absurd ‹_› hst
    · obtain ⟨k1, h1, hk⟩ := bind_eq_ok.mp hk
      obtain rfl := Except.ok.inj hk
      obtain ⟨nx, rfl⟩ := parkCurrent_rest h1
      constructor
      · simp [toIdle]
      · intro p hp
        have hp : p ≠ .idle := hp
        simp [SameCounts, toIdle, hp, Kernel.relink_pcb]

/-! ### Every event but a tick -/

/-- A timer interrupt that is not dropped. -/
def isTick (k : Kernel) (e : Event) : Bool := e = .timer ∧ k.intrNesting = false

/-- The runnable processes once the current process is put away. -/
theorem parkQueues_runnable (st : PState) (cur : Node) :
    parkQueues st cur Q .runnable =
      Q .runnable ++ if cur ≠ .idle ∧ parkName st = .runnable then [cur] else [] := by
  unfold parkQueues
  by_cases hc : cur = .idle
  · simp [hc]
  · rw [if_neg hc]
    by_cases hn : parkName st = .runnable
    · rw [if_pos ⟨hc, hn⟩, hn, Queues.push_same]
    · rw [if_neg fun h => hn h.2, Queues.push_of_ne _ _ (Ne.symm hn), List.append_nil]

/-- Who runs next was the first of them, the others stay. -/
theorem schedNext_cons (st : PState) (cur : Node) (hr : Q .runnable ≠ []) :
    schedNext st cur Q :: schedQueues st cur Q .runnable = parkQueues st cur Q .runnable := by
  obtain ⟨p, rest, hp⟩ := List.exists_cons_of_ne_nil hr
  obtain ⟨tl, htl⟩ := parkQueues_cons st cur hp
  unfold schedQueues schedNext
  rw [if_neg hr, Queues.pop_same, hp, htl]
  rfl

/-- Whoever sleeps goes on sleeping until a tick. -/
theorem mem_stepQueues_blocked (he : ¬isTick k e) (hp : p ∈ Q .blocked) :
    p ∈ stepQueues k Q e .blocked := by
  have hsched : ∀ st cur, p ∈ schedQueues st cur Q .blocked :=
    fun st cur => mem_schedQueues (by simp) hp
  cases e with
  | timer =>
    have hn : k.intrNesting = true := by simpa [isTick] using he
    simpa [stepQueues, hn] using hp
  | key _ => exact hp
  | store a b => exact hp
  | sys c =>
    cases c with
    | exit => exact hsched _ _
    | sleep n => exact hsched _ _
    | fork =>
      simp only [stepQueues, forkQueues]
      rw [Queues.push_of_ne _ _ (by simp), Function.update_of_ne (by simp)]
      exact hp
    | semInit a v => simpa [stepQueues] using hp
    | semWait a =>
      simp only [stepQueues]
      split_ifs
      · exact hsched _ _
      · exact hp
    | semPost a =>
      simp only [stepQueues]
      split_ifs
      · cases hq : Q .sem with
        | nil => simpa [wakeQueues, hq] using hp
        | cons q rest =>
          have hw : wakeQueues Q = (Q.pop .sem).push .runnable q := by simp [wakeQueues, hq]
          rw [hw, Queues.push_of_ne _ _ (by simp), Queues.pop_of_ne _ (by simp)]
          exact hp
      · exact hp
    | _ => exact hp

/-- A process that leaves the CPU does not get it back at once. -/
theorem schedNext_ne {st : PState} (h : Placed k Q .running) (hst : st ≠ .running)
    (hc : k.current ≠ .idle) : schedNext st k.current Q ≠ k.current := by
  unfold schedNext
  cases hr : Q .runnable with
  | nil =>
    simp only [if_neg hst]
    exact hc.symm
  | cons p rest => exact h.ne_current (show p ∈ Q .runnable by simp [hr])

/-- What an event does to the counters that is no tick. -/
structure CountsKept (k k' : Kernel) (Q : Queues) : Prop where
  same : k'.current = k.current → (k'.pcb k.current).timeCount = (k.pcb k.current).timeCount
  fresh : k'.current ≠ k.current → (k'.pcb k'.current).timeCount = 10
  sleepers : ∀ p ∈ Q .blocked, (k'.pcb p).sleepTime = (k.pcb p).sleepTime

/-- An event that does not touch the counters. -/
theorem CountsKept.of_same (hc : k'.current = k.current) (h : ∀ p, SameCounts k k' p) :
    CountsKept k k' Q :=
  ⟨fun _ => (h _).1, fun hne => absurd hc hne, fun p _ => (h p).2⟩

/-- The current process leaves the CPU. -/
theorem CountsKept.of_schedule {k1 : Kernel} (st : PState) (h : Placed k Q .running)
    (hst : st ≠ .running) (hc : k.current ≠ .idle) (hk : schedule k1 = .ok k')
    (hst1 : (k1.pcb k1.current).state ≠ .runnable) (hcur : k'.current = schedNext st k.current Q)
    (hsame : ∀ p ≠ k.current, SameCounts k k1 p) (hout : ∀ p ∈ Q .blocked, p ≠ k'.current) :
    CountsKept k k' Q := by
  obtain ⟨hfresh, hrest⟩ := schedule_counts hk hst1
  constructor
  · intro he
    exact absurd (hcur.symm.trans he) (schedNext_ne h hst hc)
  · exact fun _ => hfresh
  · intro p hp
    exact ((hsame p (h.ne_current hp)).trans (hrest p (hout p hp))).2

/-- A round of a read touches no counter. -/
theorem Polled.sameCounts (h : Polled k k') (p : Node) : SameCounts k k' p := by
  rw [h.rest]
  exact ⟨rfl, rfl⟩

/-- The end of a read touches no counter. -/
theorem resume_sameCounts (h : resume k = .ok k') (p : Node) : SameCounts k k' p := by
  rw [resume_rest h]
  exact ⟨rfl, rfl⟩

/-- A fork writes the table entry of the child, which nobody counts yet. -/
theorem CountsKept.fork (h : Placed k Q .running) (hk : forkAux k = .ok k') : CountsKept k k' Q := by
  obtain ⟨hfree, -, -, nx, rfl⟩ := forkAux_placed h hk
  have hne : ∀ p, p ∉ Q .free → p ≠ .pcb k.pNum := fun p hp he => hp (he ▸ hfree)
  constructor
  · intro _
    rw [Kernel.relink_pcb, forked_pcb, if_neg (hne _ (h.apart .free))]
  · exact fun hx => absurd rfl hx
  · intro p hp
    have hpf : p ∉ Q .free := fun hf => by
      have := h.lists.rep.disjoint .blocked .free p hp hf
      simp at this
    rw [Kernel.relink_pcb, forked_pcb, if_neg (hne p hpf)]

/-- A post counts for nobody: the process it wakes keeps its counters. -/
theorem CountsKept.semPost {a : ℕ} (h : Sound k Q) (hk : doSyscall k (.semPost a) = .ok k') :
    CountsKept k k' Q := by
  have hV := V_eq_ok (h.fileCall (.setEax k 0)) hk
  split_ifs at hV
  · obtain ⟨q, rest, nx, -, -, rfl, -⟩ := hV
    exact .of_same rfl fun p =>
      sameCounts_setPcb k q (fun c => { c with state := .runnable }) fun _ => ⟨rfl, rfl⟩
  · subst hV
    exact .of_same rfl fun _ => ⟨rfl, rfl⟩

/-- **Every event but a tick** leaves the counters as `CountsKept` says. -/
theorem counts_step (h : Sound k Q) (he : ¬isTick k e) (hk : step k e = .ok k') :
    CountsKept k k' Q := by
  obtain ⟨hs', hcur⟩ := sound_step h hk
  have hout : ∀ p ∈ Q .blocked, p ≠ k'.current :=
    fun p hp => hs'.placed.ne_current (mem_stepQueues_blocked he hp)
  cases e with
  | timer =>
    have hn : k.intrNesting = true := by simpa [isTick] using he
    obtain ⟨k1, h1, hk⟩ := bind_eq_ok.mp hk
    obtain rfl : k = k1 := by simpa [timerHandle, hn] using h1
    exact .of_same (by rw [resume_rest hk]) (resume_sameCounts hk)
  | key scanCode =>
    obtain ⟨k1, h1, hk⟩ := bind_eq_ok.mp hk
    have hrest := keyboardHandle_rest h1
    refine .of_same (by rw [resume_rest hk, hrest]) fun p => ?_
    refine SameCounts.trans ?_ (resume_sameCounts hk p)
    rw [hrest]
    exact ⟨rfl, rfl⟩
  | store a b =>
    simp only [step] at hk
    split_ifs at hk
    obtain rfl := Except.ok.inj hk
    exact .of_same rfl fun _ => ⟨rfl, rfl⟩
  | sys c =>
    simp only [step] at hk
    split_ifs at hk with hu
    have hfile : c.onFiles → CountsKept k k' Q := fun hc =>
      .of_same (doSyscall_fileCall hc hk).current (doSyscall_fileCall hc hk).sameCounts
    cases c with
    | exit =>
      obtain ⟨d, -, hk⟩ := bind_eq_ok.mp hk
      refine .of_schedule .dead h.placed (by simp) hu.1 hk (by simp) hcur ?_ hout
      intro p hp
      simp [SameCounts, hp]
    | sleep n =>
      refine .of_schedule .blocked h.placed (by simp) hu.1 hk (by simp) hcur ?_ hout
      intro p hp
      simp [SameCounts, hp]
    | fork => exact .fork h.placed hk
    | semInit a v =>
      obtain rfl := Except.ok.inj ((semInitAux_eq a v k).symm.trans hk)
      refine .of_same rfl fun p => ?_
      by_cases hp : p = k.current <;> simp [SameCounts, semInited, hp, Kernel.relink_pcb]
    | semDestroy a =>
      obtain rfl := Except.ok.inj hk
      refine .of_same rfl fun p => ?_
      by_cases hp : p = k.current <;> simp [SameCounts, hp]
    | semWait a =>
      by_cases hb : blocks a k
      · have hv : i32 ((k.sem a).value - 1) < 0 := hb
        have hsched : schedule ((takeSem a (k.setEax 0)).setState k.current .semBlocked) = .ok k' := by
          simpa [doSyscall, semWaitAux, P, hv] using hk
        rw [stepNext, if_pos hb] at hcur
        refine .of_schedule .semBlocked h.placed (by simp) hu.1 hsched (by simp) hcur ?_ hout
        intro p hp
        simp [SameCounts, hp]
      · obtain rfl := Except.ok.inj ((P_of_not_blocks (k := k.setEax 0) hb).symm.trans hk)
        exact .of_same rfl fun _ => ⟨rfl, rfl⟩
    | semPost a => exact .semPost h hk
    | read fd buf len =>
      by_cases hfd : fd = stdin
      · rw [doSyscall, readAux, if_pos hfd] at hk
        exact .of_same (by rw [(pollRead_polled hk).rest]) (pollRead_polled hk).sameCounts
      · exact hfile hfd
    | write fd buf len => exact hfile trivial
    | seek fd offset whence => exact hfile trivial
    | openPath path flags => exact hfile trivial
    | close fd => exact hfile trivial
    | remove path => exact hfile trivial
    | ls path => exact hfile trivial
    | cat path => exact hfile trivial

/-! ### A tick -/

/-- What a tick does to the counters. -/
structure Ticked (k k' : Kernel) (Q : Queues) : Prop where
  /-- The quantum is over: whoever runs now has a full one. -/
  renewed : quantumEnds k → (k'.pcb k'.current).timeCount = 10
  /-- It is not. -/
  goesOn : ¬quantumEnds k → k'.current = k.current ∧
    (k'.pcb k.current).timeCount = i32 ((k.pcb k.current).timeCount - 1)
  sleepers : ∀ p ∈ Q .blocked, p ≠ k'.current →
    (k'.pcb p).sleepTime = i32 ((k.pcb p).sleepTime - 1)

/-- **A tick** counts down as `Ticked` says. -/
theorem tick_step (h : Sound k Q) (he : isTick k e) (hk : step k e = .ok k') : Ticked k k' Q := by
  obtain ⟨rfl, hn⟩ := of_decide_eq_true he
  have hw : k.waiting = none := by simpa [hn] using h.nesting.symm
  obtain ⟨k1, h1, hk⟩ := bind_eq_ok.mp hk
  obtain ⟨nx, hrun, h2⟩ := timerHandle_eq h.placed hn
  have hsleep : ∀ p ∈ Q .blocked, (((ticked k Q).relink nx).pcb p).sleepTime =
      i32 ((k.pcb p).sleepTime - 1) := by
    intro p hp
    rw [Kernel.relink_pcb, ticked_pcb h.placed, if_neg (h.placed.ne_current hp), if_pos hp]
    rfl
  rw [hrun] at h1
  split_ifs at h1 with hends
  · have hw1 : k1.waiting = none := by
      obtain ⟨k3, h3, -, -, hr, -⟩ := schedule_placed h2 (.running _)
      obtain rfl := Except.ok.inj (h3.symm.trans h1)
      rw [hr.waiting]
      exact hw
    obtain rfl := Except.ok.inj ((resume_of_none hw1).symm.trans hk)
    have hst : (((ticked k Q).relink nx).pcb ((ticked k Q).relink nx).current).state ≠ .runnable := by
      rw [h2.curState]
      simp
    obtain ⟨hfresh, hrest⟩ := schedule_counts h1 hst
    constructor
    · exact fun _ => hfresh
    · exact fun hx => absurd hends hx
    · intro p hp hne
      rw [(hrest p hne).2, hsleep p hp]
  · obtain rfl := Except.ok.inj h1
    obtain rfl := Except.ok.inj ((resume_of_none (by exact hw)).symm.trans hk)
    constructor
    · exact fun hx => absurd hx hends
    · intro _
      refine ⟨rfl, ?_⟩
      rw [Kernel.relink_pcb, ticked_pcb h.placed, if_pos rfl]
    · exact fun p hp _ => hsleep p hp

end OsLab
