import OsLab.Scheduler.Counters
import OsLab.Scheduler.Partition
import OsLab.Scheduler.Sleep

/-!
# Round robin

The order in which the processes get the CPU, and for how long they keep it, in runs that call
`sem_init` at most once, before anybody waits (`InitOnce`). All other events are allowed.

A run is watched through the states before and after each event: `enters` is who got on
`runnable_list` in it, `dispatched` is who was given the CPU. The two are compared over a whole run.

* `fifo_step`: whoever is dispatched was the head of `runnable_list`, and whoever enters goes to its
  tail, both at once when a timer interrupt wakes and preempts processes.
* `fifo_run`: so the processes dispatched in a run, followed by those still on the list, are those
  that were on it at the start, followed by those that entered.
* `quantum_run`: `timeCount` of the current process is between 1 and 10 in every state, since every
  dispatch sets it to 10 and the tick at which it is 1 ends the quantum.
* `round_robin` puts them together.
-/

namespace OsLab

open OsLab.Lib

variable {k k' : Kernel} {Q : Queues} {e : Event} {p : Node} {es fs : List Event} {img : Image}

/-! ### What is seen of a step -/

/-- The processes on a list, in order. -/
def members (k : Kernel) (head : Node) : List Node := walk k.next WALK head

/-- The members of a list are those of its queue. -/
theorem Holds.members_eq (h : Holds k Q) (i : QName) : members k i.head = Q i :=
  (h.rep.chain i).walk_eq (h.length_le_walk i)

/-- The process that was given the CPU. -/
def dispatched (k : Kernel) (_ : Event) (k' : Kernel) : List Node :=
  if k'.current ≠ k.current ∧ k'.current ≠ .idle then [k'.current] else []

/-- The processes that were not on `runnable_list` before the step: the sleepers, those that wait
for the semaphore, the current process and the dead ones. -/
def outside (k : Kernel) : List Node :=
  members k blockedList ++ members k .dummysem ++ [k.current] ++ members k freeList

/-- Those of them that got on it, also if they were dispatched at once. -/
def enters (k : Kernel) (_ : Event) (k' : Kernel) : List Node :=
  (outside k).filter fun p => p ≠ .idle ∧
    ((k'.pcb p).state = .runnable ∨ p = k'.current ∧ p ≠ k.current)

/-- The processes on `runnable_list` when `timerHandle` looks at `timeCount`: also those whose sleep
ends at this tick. -/
def readyAtTick (k : Kernel) : List Node :=
  members k runnableList ++ (members k blockedList).filter (expires k)

/-! ### First in, first out -/

/-- The processes an event adds to `runnable_list`. -/
def added (k : Kernel) (Q : Queues) : Event → List Node
  | .timer =>
    if k.intrNesting then [] else (Q .blocked).filter (expires k) ++
      if quantumEnds k ∧ tickQueues k Q .runnable ≠ [] ∧ k.current ≠ .idle then [k.current] else []
  | .sys .fork => [.pcb k.pNum]
  | .sys (.semPost a) => if (k.sem a).value < 0 then (Q .sem).take 1 else []
  | _ => []

/-- `schedule` takes the head of the list, and puts the current process at its tail if that can go
on. -/
theorem sched_fifo {st : PState} {cur : Node} (hst : st ≠ .runnable) (hcur : cur ∉ Q .runnable)
    (hidle : .idle ∉ Q .runnable) :
    (if schedNext st cur Q ≠ cur ∧ schedNext st cur Q ≠ .idle then [schedNext st cur Q] else []) ++
        schedQueues st cur Q .runnable =
      Q .runnable ++
        if st = .running ∧ Q .runnable ≠ [] ∧ cur ≠ .idle then [cur] else [] := by
  have hpark : parkName st = .runnable ↔ st = .running := by cases st <;> simp_all [parkName]
  by_cases hr : Q .runnable = []
  · have hnext : ¬(schedNext st cur Q ≠ cur ∧ schedNext st cur Q ≠ .idle) := by
      unfold schedNext
      rw [hr]
      by_cases hs : st = .running <;> simp [hs]
    have hstay : ¬(st = .running ∧ Q .runnable ≠ [] ∧ cur ≠ .idle) := fun h => h.2.1 hr
    rw [if_neg hnext, if_neg hstay, schedQueues, if_pos hr]
    by_cases hs : st = .running
    · simp [hs]
    · rw [if_neg hs, parkQueues_runnable, if_neg fun h => hs (hpark.mp h.2)]
      rfl
  · obtain ⟨p, rest, hp⟩ := List.exists_cons_of_ne_nil hr
    have hnext : schedNext st cur Q = p := by simp [schedNext, hp]
    have hpne : p ≠ cur ∧ p ≠ .idle := by
      constructor
      · rintro rfl
        exact hcur (by simp [hp])
      · rintro rfl
        exact hidle (by simp [hp])
    have hsched := schedNext_cons st cur hr
    rw [parkQueues_runnable, hnext] at hsched
    rw [hnext, if_pos hpne, List.singleton_append, hsched]
    simp [hpark, hr, and_comm]

/-- **First in, first out**: an event takes from the head of `runnable_list` and adds to its tail.
-/
theorem fifo_step (h : Sound k Q) (hk : step k e = .ok k') :
    dispatched k e k' ++ stepQueues k Q e .runnable = Q .runnable ++ added k Q e := by
  have hcur := (sound_step h hk).2
  have hidle : ∀ {Q' : Queues}, Holds k Q' → .idle ∉ Q' .runnable :=
    fun hh hi => idle_not_mem_procs (hh.procs _ _ hi)
  have hstay : k'.current = k.current → dispatched k e k' = [] := fun hc => by simp [dispatched, hc]
  have hsched : ∀ {st}, st ≠ .runnable → st ≠ .running → k'.current = schedNext st k.current Q →
      dispatched k e k' ++ schedQueues st k.current Q .runnable = Q .runnable := by
    intro st h1 h2 hc
    have hfifo := sched_fifo h1 (h.placed.apart .runnable) (hidle h.placed.lists)
    have hgone : ¬(st = .running ∧ Q .runnable ≠ [] ∧ k.current ≠ .idle) := fun h => h2 h.1
    rwa [if_neg hgone, List.append_nil, ← hc] at hfifo
  cases e with
  | timer =>
    by_cases hn : k.intrNesting = true
    · have hc : k'.current = k.current := by simpa [stepNext, hn] using hcur
      simp [hstay hc, stepQueues, added, hn]
    · obtain ⟨nx, -, h2⟩ := timerHandle_eq h.placed (by simpa using hn)
      have hrun : tickQueues k Q .runnable = Q .runnable ++ (Q .blocked).filter (expires k) := rfl
      have hc : k'.current = timerNext k Q := by simpa [stepNext, hn] using hcur
      simp only [stepQueues, added, if_neg hn]
      unfold timerQueues
      unfold timerNext at hc
      by_cases hq : quantumEnds k = true
      · rw [if_pos hq] at hc ⊢
        have := sched_fifo (show PState.running ≠ .runnable by simp) (h2.apart .runnable)
          (fun hi => idle_not_mem_procs (h2.lists.procs _ _ hi))
        rw [dispatched, hc]
        rw [show ((ticked k Q).relink nx).current = k.current from rfl] at this
        rw [this, hrun, List.append_assoc]
        simp [hq]
      · rw [if_neg hq] at hc ⊢
        rw [hstay hc, if_neg (by simp [hq]), hrun]
        simp
  | key _ => simp [hstay hcur, stepQueues, added]
  | store a b => simp [hstay hcur, stepQueues, added]
  | sys c =>
    cases c with
    | exit => simpa [stepQueues, added] using hsched (by simp) (by simp) hcur
    | sleep n => simpa [stepQueues, added] using hsched (by simp) (by simp) hcur
    | fork =>
      rw [hstay hcur]
      simp [stepQueues, added, forkQueues]
    | semInit a v =>
      rw [hstay hcur]
      simp [stepQueues, added]
    | semWait a =>
      simp only [stepQueues, added]
      by_cases hb : blocks a k
      · rw [stepNext, if_pos hb] at hcur
        rw [if_pos hb, hsched (by simp) (by simp) hcur, List.append_nil]
      · rw [stepNext, if_neg hb] at hcur
        rw [if_neg hb, hstay hcur]
        simp
    | semPost a =>
      rw [hstay hcur]
      simp only [stepQueues, added]
      split_ifs
      · cases hq : Q .sem with
        | nil => simp [wakeQueues, hq]
        | cons q rest =>
          have hw : wakeQueues Q = (Q.pop .sem).push .runnable q := by simp [wakeQueues, hq]
          rw [hw, Queues.push_same, Queues.pop_of_ne _ (by simp)]
          simp
      · simp
    | _ => simp [hstay hcur, stepQueues, added]

/-- Who is not ready: the blocked ones, the current one and the free ones. -/
theorem Tidy.outside_eq (h : Tidy k Q) :
    outside k = Q .blocked ++ Q .sem ++ [k.current] ++ Q .free := by
  have hm := h.sound.placed.lists.members_eq
  unfold outside
  rw [show members k blockedList = _ from hm .blocked, show members k .dummysem = _ from hm .sem,
    show members k freeList = _ from hm .free]

/-- Nobody is outside twice. -/
theorem Tidy.outside_nodup (h : Tidy k Q) : (outside k).Nodup := by
  have hnd := h.sound.placed.lists.rep.nodup
  have hdis : ∀ i j, i ≠ j → List.Disjoint (Q i) (Q j) := fun i j hij p hi hj =>
    hij (h.sound.placed.lists.rep.disjoint i j p hi hj)
  have hcur := h.sound.placed.apart
  rw [h.outside_eq]
  refine List.Nodup.append (List.Nodup.append (List.Nodup.append (hnd _) (hnd _) ?_) ?_ ?_) (hnd _) ?_
  · exact hdis _ _ (by simp)
  · exact List.nodup_singleton _
  · simp [hcur]
  · simp only [List.disjoint_append_left, List.singleton_disjoint]
    exact ⟨⟨hdis _ _ (by simp), hdis _ _ (by simp)⟩, hcur .free⟩

/-- Nobody of them is on `runnable_list`. -/
theorem Tidy.not_runnable (h : Tidy k Q) (hp : p ∈ outside k) : p ∉ Q .runnable := by
  intro hr
  have hdis : ∀ i, i ≠ .runnable → p ∉ Q i := fun i hi hm =>
    hi (h.sound.placed.lists.rep.disjoint i .runnable p hm hr)
  rw [h.outside_eq] at hp
  simp only [List.mem_append, List.mem_singleton] at hp
  rcases hp with ((hp | hp) | rfl) | hp
  · exact hdis .blocked (by simp) hp
  · exact hdis .sem (by simp) hp
  · exact h.sound.placed.apart .runnable hr
  · exact hdis .free (by simp) hp

/-- What is added comes from outside the list. -/
theorem Tidy.added_sublist (h : Tidy k Q) (hk : step k e = .ok k') :
    (added k Q e).Sublist (outside k) := by
  rw [h.outside_eq]
  have hnil : ∀ {l : List Node}, [].Sublist l := fun {l} => List.nil_sublist l
  cases e with
  | timer =>
    simp only [added]
    split_ifs
    · exact hnil
    · refine List.Sublist.trans ?_ (List.sublist_append_left _ _)
      refine List.Sublist.append ?_ (List.Sublist.refl _)
      exact List.filter_sublist.trans (List.sublist_append_left _ _)
    · rw [List.append_nil]
      simp only [List.append_assoc]
      exact List.filter_sublist.trans (List.sublist_append_left _ _)
  | sys c =>
    cases c with
    | fork =>
      simp only [step] at hk
      split_ifs at hk
      obtain ⟨hfree, -⟩ := forkAux_placed h.sound.placed hk
      exact (List.singleton_sublist.mpr hfree).trans (List.sublist_append_right _ _)
    | semPost a =>
      simp only [added]
      split_ifs
      · refine (List.take_sublist _ _).trans ?_
        simp only [List.append_assoc]
        exact (List.sublist_append_left _ _).trans (List.sublist_append_right _ _)
      · exact hnil
    | _ => exact hnil
  | _ => exact hnil

/-- What is seen to enter is what the event adds. -/
theorem Tidy.enters_eq (h : Tidy k Q) (h' : Tidy k' (stepQueues k Q e)) (hk : step k e = .ok k') :
    enters k e k' = added k Q e := by
  have hfifo := fifo_step h.sound hk
  have hsub := h.added_sublist hk
  rw [← filter_mem_of_sublist hsub h.outside_nodup]
  apply List.filter_congr
  intro p hp
  have hout := h.not_runnable hp
  have hmem : p ∈ added k Q e ↔ p ∈ dispatched k e k' ∨ p ∈ stepQueues k Q e .runnable := by
    have hboth := congrArg (p ∈ ·) hfifo
    simpa [List.mem_append, hout, eq_comm] using hboth
  have hdisp : p ∈ dispatched k e k' ↔ p ≠ .idle ∧ p = k'.current ∧ p ≠ k.current := by
    unfold dispatched
    split_ifs with hd
    · rw [List.mem_singleton]
      constructor
      · rintro rfl
        exact ⟨hd.2, rfl, hd.1⟩
      · exact fun hx => hx.2.1
    · constructor
      · exact fun hx => absurd hx (List.not_mem_nil)
      · rintro ⟨h1, rfl, h2⟩
        exact absurd ⟨h2, h1⟩ hd
  have hready : p ∈ stepQueues k Q e .runnable ↔ p ≠ .idle ∧ (k'.pcb p).state = .runnable := by
    constructor
    · intro hr
      have hproc := h'.sound.placed.lists.procs _ _ hr
      exact ⟨fun he => idle_not_mem_procs (he ▸ hproc), (h'.state_iff hproc .runnable).mpr hr⟩
    · rintro ⟨hi, hst⟩
      have hproc : p ∈ procs := by
        rw [h.outside_eq] at hp
        simp only [List.mem_append, List.mem_singleton] at hp
        rcases hp with ((hp | hp) | rfl) | hp
        · exact h.sound.placed.lists.procs _ _ hp
        · exact h.sound.placed.lists.procs _ _ hp
        · exact h.sound.placed.current_mem hi
        · exact h.sound.placed.lists.procs _ _ hp
      exact (h'.state_iff hproc .runnable).mp hst
  rw [decide_eq_decide, hmem, hdisp, hready]
  tauto

/-! ### Runs -/

/-- The event waits for a semaphore. -/
def Event.waits : Event → Bool
  | .sys (.semWait _) => true
  | _ => false

/-- The event initialises a semaphore. -/
def Event.inits : Event → Bool
  | .sys (.semInit _ _) => true
  | _ => false

/-- The runs in which `sem_init` is called at most once, and before anybody waits. -/
inductive InitOnce : List Event → Prop
  | unused {es : List Event} : (∀ e ∈ es, e.inits = false) → InitOnce es
  | used {pre post : List Event} {a : ℕ} {v : ℤ} :
      (∀ e ∈ pre, e.inits = false ∧ e.waits = false) → (∀ e ∈ post, e.inits = false) →
      InitOnce (pre ++ .sys (.semInit a v) :: post)

/-- A part of such a run is one. -/
theorem InitOnce.of_append (h : InitOnce (es ++ fs)) : InitOnce es := by
  generalize hall : es ++ fs = all at h
  cases h with
  | unused h =>
    subst hall
    exact .unused fun e he => h e (List.mem_append_left _ he)
  | @used pre post a v hpre hpost =>
    rcases List.append_eq_append_iff.mp hall with ⟨as, rfl, -⟩ | ⟨bs, rfl, hbs⟩
    · exact .unused fun e he => (hpre e (List.mem_append_left _ he)).1
    · cases bs with
      | nil =>
        rw [List.append_nil]
        exact .unused fun e he => (hpre e he).1
      | cons b bs =>
        obtain ⟨rfl, rfl⟩ := List.cons.inj hbs
        exact .used hpre fun e he => hpost e (List.mem_append_left _ he)

/-- Where nobody waits, only a wait changes that. -/
theorem stepQueues_sem_nil (he : e.waits = false) (hq : Q .sem = []) : stepQueues k Q e .sem = [] := by
  have hsched : ∀ {st} cur, st ≠ .semBlocked → schedQueues st cur Q .sem = [] :=
    fun cur hst => (schedQueues_sem hst cur).trans hq
  cases e with
  | timer =>
    simp only [stepQueues]
    split_ifs
    · exact hq
    · exact (timerQueues_sem k).trans hq
  | sys c =>
    cases c with
    | exit => exact hsched _ (by simp)
    | sleep n => exact hsched _ (by simp)
    | fork =>
      simp only [stepQueues, forkQueues]
      rw [Queues.push_of_ne _ _ (by simp), Function.update_of_ne (by simp)]
      exact hq
    | semInit a v => simp [stepQueues]
    | semWait a => cases he
    | semPost a => simp [stepQueues, wakeQueues, hq]
    | _ => exact hq
  | _ => exact hq

/-- Without `sem_init` no process is lost. -/
theorem tidy_noInit (h : Tidy k Q) (hes : ∀ e ∈ es, e.inits = false) (hk : run step k es = .ok k') :
    ∃ Q', Tidy k' Q' ∧ ((∀ e ∈ es, e.waits = false) → Q .sem = [] → Q' .sem = []) := by
  induction es using List.reverseRecOn generalizing k' with
  | nil =>
    obtain rfl := Except.ok.inj hk
    exact ⟨Q, h, fun _ hq => hq⟩
  | append_singleton es e ih =>
    obtain ⟨k1, h1, hs⟩ := run_snoc_eq_ok.mp hk
    obtain ⟨Q1, hQ1, hsem⟩ := ih (fun e he => hes e (by simp [he])) h1
    have hi : ∀ a v, e = .sys (.semInit a v) → Q1 .sem = [] := by
      rintro a v rfl
      have hinit := hes (.sys (.semInit a v)) (by simp)
      simp [Event.inits] at hinit
    refine ⟨_, tidy_step hQ1 hi hs, fun hw hq => ?_⟩
    exact stepQueues_sem_nil (hw e (by simp)) (hsem (fun e he => hw e (by simp [he])) hq)

/-- **Runs with one `sem_init`** lose no process. -/
theorem tidy_initOnce (hes : InitOnce es) (hk : runFrom img es = .ok k) : ∃ Q, Tidy k Q := by
  obtain ⟨k0, hb, hr⟩ := bind_eq_ok.mp hk
  cases hes with
  | unused hes =>
    obtain ⟨Q, hQ, -⟩ := tidy_noInit (tidy_boot hb) hes hr
    exact ⟨Q, hQ⟩
  | used hpre hpost =>
    rw [run_append, bind_eq_ok] at hr
    obtain ⟨k1, h1, hr⟩ := hr
    obtain ⟨k2, h2, hr⟩ := bind_eq_ok.mp hr
    obtain ⟨Q1, hQ1, hsem⟩ := tidy_noInit (tidy_boot hb) (fun e he => (hpre e he).1) h1
    have hnone := hsem (fun e he => (hpre e he).2) rfl
    obtain ⟨Q, hQ, -⟩ := tidy_noInit (tidy_step hQ1 (fun _ _ _ => hnone) h2) hpost hr
    exact ⟨Q, hQ⟩

/-- A run that goes on. -/
theorem runFrom_append (hk : runFrom img es = .ok k) :
    runFrom img (es ++ fs) = run step k fs := by
  obtain ⟨k0, hb, hr⟩ := bind_eq_ok.mp hk
  unfold runFrom
  rw [hb, ok_bind, run_append, hr, ok_bind]

/-- Both ends of a step of such a run are tidy. -/
theorem tidy_snoc (hes : InitOnce (es ++ [e])) (hk : runFrom img es = .ok k)
    (hs : step k e = .ok k') : ∃ Q, Tidy k Q ∧ Tidy k' (stepQueues k Q e) := by
  obtain ⟨Q, hQ⟩ := tidy_initOnce hes.of_append hk
  obtain ⟨Q', hQ'⟩ := tidy_initOnce hes (runFrom_snoc_eq_ok.mpr ⟨k, hk, hs⟩)
  have hrep := (sound_step hQ.sound hs).1.placed.lists.rep
  rw [hQ'.sound.placed.lists.rep.unique hrep] at hQ'
  exact ⟨Q, hQ, hQ'⟩

/-- **First in, first out** over a run. -/
theorem fifo_run (hes : InitOnce (es ++ fs)) (hk : runFrom img es = .ok k)
    (hr : run step k fs = .ok k') :
    log step dispatched k fs ++ members k' runnableList =
      members k runnableList ++ log step enters k fs := by
  induction fs using List.reverseRecOn generalizing k' with
  | nil =>
    obtain rfl := Except.ok.inj hr
    simp
  | append_singleton fs e ih =>
    obtain ⟨k1, h1, hs⟩ := run_snoc_eq_ok.mp hr
    rw [← List.append_assoc] at hes
    obtain ⟨Q, hQ, hQ'⟩ := tidy_snoc hes ((runFrom_append hk).trans h1) hs
    have hm : members k1 runnableList = Q .runnable := hQ.sound.placed.lists.members_eq .runnable
    have hm' : members k' runnableList = stepQueues k1 Q e .runnable :=
      hQ'.sound.placed.lists.members_eq .runnable
    have hih := ih hes.of_append h1
    rw [hm] at hih
    rw [log_snoc h1 hs, log_snoc h1 hs, hm', List.append_assoc, fifo_step hQ.sound hs,
      hQ.enters_eq hQ' hs, ← List.append_assoc, hih, List.append_assoc]

/-! ### The quantum -/

/-- What is left of the quantum. -/
def left (k : Kernel) : ℤ := (k.pcb k.current).timeCount

/-- The quantum is never used up, nor longer than 10. -/
def Quantum (k : Kernel) : Prop := 1 ≤ left k ∧ left k ≤ 10

/-- The quantum ends when one tick is left. -/
theorem Quantum.ends_iff (h : Quantum k) : quantumEnds k ↔ left k = 1 := by
  obtain ⟨h1, h10⟩ := h
  rw [quantumEnds, decide_eq_true_eq]
  unfold left at *
  rw [i32_eq_self (by omega) (by omega)]
  omega

/-- The process that runs gets a new quantum: it is another one, or the old one is over. -/
def Renews (k : Kernel) (e : Event) (k' : Kernel) : Prop :=
  k'.current ≠ k.current ∨ isTick k e ∧ left k = 1

/-- Whether the quantum begins anew can be computed. -/
instance (k : Kernel) (e : Event) (k' : Kernel) : Decidable (Renews k e k') :=
  inferInstanceAs (Decidable (_ ∨ _))

/-- What an event does to the quantum. -/
theorem Quantum.left_step (h : Quantum k) (hs : Sound k Q) (hk : step k e = .ok k') :
    left k' = if Renews k e k' then 10 else left k - if isTick k e then 1 else 0 := by
  obtain ⟨h1, h10⟩ := id h
  by_cases he : isTick k e
  · have htick := tick_step hs he hk
    by_cases hq : left k = 1
    · rw [if_pos (.inr ⟨he, hq⟩)]
      exact htick.renewed (h.ends_iff.mpr hq)
    · obtain ⟨hc, ht⟩ := htick.goesOn (mt h.ends_iff.mp hq)
      have hsame : ¬Renews k e k' := fun hr => hr.elim (fun hx => hx hc) fun hx => hq hx.2
      rw [if_neg hsame, if_pos he, left, hc, ht]
      unfold left at *
      exact i32_eq_self (by omega) (by omega)
  · have hcounts := counts_step hs he hk
    by_cases hc : k'.current = k.current
    · have hsame : ¬Renews k e k' := fun hr => hr.elim (fun hx => hx hc) fun hx => he hx.1
      rw [if_neg hsame, if_neg he, left, hc, hcounts.same hc, Int.sub_zero]
      rfl
    · rw [if_pos (.inl hc)]
      exact hcounts.fresh hc

/-- Every event keeps the quantum. -/
theorem Quantum.step (h : Quantum k) (hs : Sound k Q) (hk : step k e = .ok k') : Quantum k' := by
  have hleft := h.left_step hs hk
  obtain ⟨h1, h10⟩ := h
  unfold Quantum
  split_ifs at hleft with hr he
  · omega
  · have hne : left k ≠ 1 := fun hx => hr (.inr ⟨he, hx⟩)
    omega
  · omega

/-- **The quantum** of the current process is between 1 and 10 in every state. -/
theorem quantum_run (hk : runFrom img es = .ok k) : Quantum k := by
  refine (runFrom_invariant (P := fun k => (∃ Q, Sound k Q) ∧ Quantum k) hk ?_ ?_).2
  · intro k hb
    refine ⟨⟨_, sound_boot hb⟩, ?_⟩
    obtain ⟨-, nx, rfl⟩ := placed_boot hb
    have h10 : left ((started img).relink nx) = 10 := by
      have hc : ((started img).relink nx).current = .idle := rfl
      rw [left, hc, Kernel.relink_pcb]
      simp [started, mem_firstPcbs]
    unfold Quantum
    omega
  · rintro k k' e ⟨⟨Q, hs⟩, hq⟩ hk
    exact ⟨⟨_, (sound_step hs hk).1⟩, hq.step hs hk⟩

/-- A run in which nobody gets a new quantum uses up one of them. -/
theorem left_run (hk : runFrom img es = .ok k) (hr : run step k fs = .ok k')
    (hno : ∀ gs e hs k1 k2, fs = gs ++ e :: hs → run step k gs = .ok k1 → step k1 e = .ok k2 →
      ¬Renews k1 e k2) : left k' = left k - ticks k fs := by
  induction fs using List.reverseRecOn generalizing k' with
  | nil =>
    obtain rfl := Except.ok.inj hr
    simp
  | append_singleton fs e ih =>
    obtain ⟨k1, h1, hs⟩ := run_snoc_eq_ok.mp hr
    have hleft : left k1 = left k - ticks k fs := by
      refine ih h1 fun gs e' hs k2 k3 he => ?_
      exact hno gs e' (hs ++ [e]) k2 k3 (by simp [he])
    have hk1 := (runFrom_append hk).trans h1
    obtain ⟨Q, hQ⟩ := sound_run hk1
    rw [(quantum_run hk1).left_step hQ hs, if_neg (hno fs e [] k1 k' rfl h1 hs), hleft,
      ticks_snoc h1 hs]
    split_ifs <;> omega

/-- The ticks of a run of two parts. -/
theorem ticks_append (hr : run step k es = .ok k') :
    ticks k (es ++ fs) = ticks k es + ticks k' fs := by
  unfold ticks
  rw [log_append hr, List.length_append]

/-- Somebody gets a new quantum before more ticks have come than were left. -/
theorem renews_of_ticks (hk : runFrom img es = .ok k) (hr : run step k fs = .ok k')
    (ht : left k ≤ ticks k fs) :
    ∃ gs e hs k1 k2, fs = gs ++ e :: hs ∧ run step k gs = .ok k1 ∧ step k1 e = .ok k2 ∧
      ticks k gs < left k ∧ Renews k1 e k2 := by
  induction fs using List.reverseRecOn generalizing k' with
  | nil =>
    have hpos := (quantum_run hk).1
    simp only [ticks_nil] at ht
    omega
  | append_singleton fs e ih =>
    obtain ⟨k1, h1, hs⟩ := run_snoc_eq_ok.mp hr
    by_cases hlt : left k ≤ ticks k fs
    · obtain ⟨gs, e', hs', k2, k3, rfl, hrest⟩ := ih h1 hlt
      exact ⟨gs, e', hs' ++ [e], k2, k3, by simp, hrest⟩
    · by_contra hno
      push Not at hno
      have hleft := left_run hk hr fun gs e' hs' k2 k3 he hg he' => by
        refine hno gs e' hs' k2 k3 he hg he' ?_
        -- the step is in `fs` or is the last one
        have hpre : gs <+: fs := by
          rcases List.eq_nil_or_concat hs' with rfl | ⟨hs', x, rfl⟩
          · exact ⟨[], by simpa using (List.append_inj_left' he rfl).symm⟩
          · rw [List.concat_eq_append, ← List.cons_append, ← List.append_assoc] at he
            exact ⟨e' :: hs', (List.append_inj_left' he rfl).symm⟩
        obtain ⟨tl, rfl⟩ := hpre
        rw [ticks_append hg] at hlt
        omega
      have hpos := (quantum_run ((runFrom_append hk).trans hr)).1
      omega

/-- The tick at the end of a quantum gives the CPU to the head of `runnable_list`. -/
theorem preempts (h : Sound k Q) (hn : k.intrNesting = false) (hq : quantumEnds k) :
    ∃ k', step k .timer = .ok k' ∧ k'.current = (readyAtTick k).headD k.current := by
  have hw : k.waiting = none := by simpa [hn] using h.nesting.symm
  obtain ⟨k', hk', -, hcur, hres, -⟩ := timerHandle_placed h.placed hn
  refine ⟨k', ?_, ?_⟩
  · rw [step, hk', ok_bind, resume_of_none (hres.waiting.trans hw)]
  · have hm := h.placed.lists.members_eq
    have hready : readyAtTick k = tickQueues k Q .runnable := by
      unfold readyAtTick
      rw [show members k runnableList = _ from hm .runnable,
        show members k blockedList = _ from hm .blocked]
      rfl
    rw [hcur, timerNext, if_pos hq, hready, schedNext]
    cases tickQueues k Q .runnable <;> rfl

/-! ### Round robin -/

/-- What holds of a run `fs` from `k` to `k'`. -/
structure RoundRobin (k : Kernel) (fs : List Event) (k' : Kernel) : Prop where
  /-- The processes are dispatched in the order in which they entered `runnable_list`. -/
  fifo : log step dispatched k fs ++ members k' runnableList =
    members k runnableList ++ log step enters k fs
  /-- The test in `timerHandle` is for 0, and starts from here. -/
  quantum : 1 ≤ left k' ∧ left k' ≤ 10
  /-- Ten ticks bring the current process to it, unless it leaves the CPU before. -/
  renewed : 10 ≤ ticks k fs → ∃ gs e hs k1 k2, fs = gs ++ e :: hs ∧ run step k gs = .ok k1 ∧
    step k1 e = .ok k2 ∧ ticks k gs < 10 ∧ Renews k1 e k2
  /-- There the head of `runnable_list`, if there is one, replaces it. -/
  preempted : k'.intrNesting = false → left k' = 1 →
    ∃ k2, step k' .timer = .ok k2 ∧ k2.current = (readyAtTick k').headD k'.current

/-- **Round robin** in every run with one `sem_init`, from every state on its way. -/
theorem round_robin (hes : InitOnce (es ++ fs)) (hk : runFrom img es = .ok k)
    (hr : run step k fs = .ok k') : RoundRobin k fs k' := by
  have hk' := (runFrom_append hk).trans hr
  have hquantum := quantum_run hk'
  constructor
  · exact fifo_run hes hk hr
  · exact hquantum
  · intro ht
    have hle := (quantum_run hk).2
    obtain ⟨gs, e, hs, k1, k2, hfs, h1, h2, hlt, hrenews⟩ := renews_of_ticks hk hr (by omega)
    exact ⟨gs, e, hs, k1, k2, hfs, h1, h2, by omega, hrenews⟩
  · intro hn h1
    obtain ⟨Q, hQ⟩ := sound_run hk'
    exact preempts hQ hn (hquantum.ends_iff.mpr h1)

/-- Two processes take turns, one of them waits for a while. -/
theorem round_robin_takingTurns : ∃ k k', runFrom .blank (.replicate 10 .timer) = .ok k ∧
    run step k (.sys (.semInit 0x200100 0) :: .sys .fork :: .sys (.semWait 0x200100) ::
      .sys (.semPost 0x200100) :: .replicate 12 .timer) = .ok k' ∧
    RoundRobin k (.sys (.semInit 0x200100 0) :: .sys .fork :: .sys (.semWait 0x200100) ::
      .sys (.semPost 0x200100) :: .replicate 12 .timer) k' := by
  obtain ⟨k, hk, h⟩ := okAnd_eq_true.mp (show okAnd (runFrom .blank (.replicate 10 .timer))
    (fun k => (run step k (.sys (.semInit 0x200100 0) :: .sys .fork :: .sys (.semWait 0x200100) ::
      .sys (.semPost 0x200100) :: .replicate 12 .timer)).toBool) = true by decide +kernel)
  obtain ⟨k', hr⟩ := exists_ok h
  exact ⟨k, k', hk, hr, round_robin (.used (by decide) (by decide)) hk hr⟩

end OsLab
