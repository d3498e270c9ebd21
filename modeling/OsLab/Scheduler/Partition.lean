import OsLab.Scheduler.Sound

/-!
# The partition of the process table

`Partition k Q` reads the invariant of `Sound` and `Complete` as a statement about where each of
`pcb[1..9]` is: it has the CPU or is on exactly one of the four lists, once, and its state, its pid
and `p_num` agree with that. `partition` proves it for every run that uses one semaphore the way a
program is meant to (`OneSem`): it is initialised once, before the first fork and before any wait or
post.

The induction over the run goes through `Tidy`. In the part before `sem_init` nobody waits, so the
one event that can lose processes loses none.
-/

namespace OsLab

open OsLab.Lib

variable {k k' : Kernel} {Q : Queues} {e : Event} {s : ℕ} {v : ℤ} {es : List Event} {img : Image}

/-! ### Runs with one semaphore -/

/-- The events that are `alone`, and forks. -/
def Event.scheduling : Event → Bool
  | .sys .fork => true
  | e => e.alone

/-- The same, and waits and posts on `s`. -/
def Event.sharing (s : ℕ) : Event → Bool
  | .sys (.semWait a) | .sys (.semPost a) => a = s
  | e => e.scheduling

/-- The runs in which the semaphore `s`, if it is used at all, is initialised once with `v`, before
the first fork, and waited for and posted to afterwards only. -/
inductive OneSem (s : ℕ) (v : ℤ) : List Event → Prop
  | unused {es : List Event} : (∀ e ∈ es, e.scheduling) → OneSem s v es
  | used {pre post : List Event} : (∀ e ∈ pre, e.alone) → (∀ e ∈ post, e.sharing s) →
      OneSem s v (pre ++ .sys (.semInit s v) :: post)

/-- Sound, and no process is lost. -/
structure Tidy (k : Kernel) (Q : Queues) : Prop where
  sound : Sound k Q
  complete : Complete k.current Q

/-- After start-up every process is in its place. -/
theorem tidy_boot (hb : boot img = .ok k) : Tidy k startQueues := by
  obtain ⟨-, nx, rfl⟩ := placed_boot hb
  exact ⟨sound_boot hb, complete_start⟩

/-- Every event keeps every process in its place, if no semaphore with waiters is initialised again. -/
theorem tidy_step (h : Tidy k Q) (hi : ∀ a v, e = .sys (.semInit a v) → Q .sem = [])
    (hk : step k e = .ok k') : Tidy k' (stepQueues k Q e) := by
  obtain ⟨hs, hcur⟩ := sound_step h.sound hk
  exact ⟨hs, hcur ▸ h.complete.step hi⟩

/-- A scheduling event shares nothing. -/
theorem sharing_of_scheduling {e : Event} (he : e.scheduling) : e.sharing s := by
  cases e with
  | sys c => cases c <;> simp_all [Event.sharing, Event.scheduling, Event.alone]
  | _ => simpa [Event.sharing] using he

/-- A sharing event is no initialisation. -/
theorem not_init_of_sharing {e : Event} (he : e.sharing s) (a : ℕ) (v : ℤ) :
    e ≠ .sys (.semInit a v) := by
  rintro rfl
  simp [Event.sharing, Event.scheduling, Event.alone] at he

/-- Runs without `sem_init`. -/
theorem tidy_sharing (h : Tidy k Q) (hes : ∀ e ∈ es, e.sharing s) (hk : run step k es = .ok k') :
    ∃ Q', Tidy k' Q' := by
  apply run_invariant hk hes ⟨Q, h⟩
  rintro k1 k2 e ⟨Q1, hQ1⟩ he hs
  exact ⟨_, tidy_step hQ1 (fun a v hi => absurd hi (not_init_of_sharing he a v)) hs⟩

/-- Before `sem_init` nobody waits. -/
theorem stepQueues_alone_sem (he : e.alone) : stepQueues k Q e .sem = Q .sem := by
  cases e with
  | timer =>
    simp only [stepQueues]
    split_ifs
    · rfl
    · exact timerQueues_sem k
  | key _ => simp [Event.alone] at he
  | store a b => rfl
  | sys c =>
    cases c with
    | exit => exact schedQueues_sem (by simp) _
    | sleep n => exact schedQueues_sem (by simp) _
    | _ => simp [Event.alone] at he

/-- Before the first fork: the first process is alone, and nobody waits. -/
structure Solo (k : Kernel) (Q : Queues) : Prop where
  tidy : Tidy k Q
  noWaiter : Q .sem = []
  only : ∀ p ∈ procs, p = .pcb 1 ∨ p ∈ Q .free

/-- After start-up nobody shares. -/
theorem solo_boot (hb : boot img = .ok k) : Solo k startQueues :=
  ⟨tidy_boot hb, rfl, mem_startQueues⟩

/-- An event of a process that is alone. -/
theorem Solo.step (h : Solo k Q) (he : e.alone) (hk : step k e = .ok k') :
    Solo k' (stepQueues k Q e) := by
  have hfork : e ≠ .sys .fork := by
    rintro rfl
    simp [Event.alone] at he
  exact ⟨tidy_step h.tidy (fun _ _ _ => h.noWaiter) hk, (stepQueues_alone_sem he).trans h.noWaiter,
    fun p hp => (h.only p hp).imp_right (mem_stepQueues_free hfork)⟩

/-- A run of a process that is alone. -/
theorem solo_run (h : Solo k Q) (hes : ∀ e ∈ es, e.alone) (hk : run step k es = .ok k') :
    ∃ Q', Solo k' Q' := by
  apply run_invariant hk hes ⟨Q, h⟩
  rintro k1 k2 e ⟨Q1, hQ1⟩ he hs
  exact ⟨_, hQ1.step he hs⟩

/-- The only process that can make a system call then is the first one. -/
theorem Solo.current_eq (h : Solo k Q) (hu : userMode k) : k.current = .pcb 1 :=
  (h.only _ (h.tidy.sound.placed.current_mem hu.1)).resolve_right (h.tidy.sound.placed.apart .free)

/-- **Runs with one semaphore** lose no process. -/
theorem tidy_run (hes : OneSem s v es) (hk : runFrom img es = .ok k) : ∃ Q, Tidy k Q := by
  obtain ⟨k0, hb, hr⟩ := bind_eq_ok.mp hk
  cases hes with
  | unused hes => exact tidy_sharing (tidy_boot hb) (fun e he => sharing_of_scheduling (s := s) (hes e he)) hr
  | used hpre hpost =>
    rw [run_append, bind_eq_ok] at hr
    obtain ⟨k1, h1, hr⟩ := hr
    obtain ⟨k2, h2, hr⟩ := bind_eq_ok.mp hr
    obtain ⟨Q1, hQ1⟩ := solo_run (solo_boot hb) hpre h1
    exact tidy_sharing (tidy_step hQ1.tidy (fun _ _ _ => hQ1.noWaiter) h2) hpost hr

/-! ### The partition -/

/-- Where a process can be. -/
inductive Place
  | cpu
  | queue (i : QName)
  deriving DecidableEq, Repr

/-- The state a process has there. -/
def Place.state : Place → PState
  | cpu => .running
  | queue i => i.state

/-- The process `p` stands on the list with this head. -/
def OnList (k : Kernel) (head p : Node) : Prop := ∃ xs, Chain k.next head xs ∧ p ∈ xs

/-- The process `p` is in this place. -/
def At (k : Kernel) (Q : Queues) (p : Node) : Place → Prop
  | .cpu => p = k.current
  | .queue i => p ∈ Q i

/-- `pcb[1..9]`, split among the CPU and the four lists. -/
structure Partition (k : Kernel) (Q : Queues) : Prop where
  /-- The lists end, and hold these processes in this order. -/
  lists : ∀ i, Chain k.next i.head (Q i)
  /-- No list goes round in a cycle or holds a process twice. -/
  once : ∀ i, (i.head :: Q i).Nodup
  /-- No two lists share a process. -/
  disjoint : ∀ i j, i ≠ j → (i.head :: Q i).Disjoint (j.head :: Q j)
  /-- A semaphore's wait list is the fourth of them. -/
  semList : ∀ a p, (k.sem a).list = some p → p = QName.sem.head
  /-- The lists hold none but `pcb[1..9]`; `idle` is in none. -/
  members : ∀ i, ∀ p ∈ Q i, p ∈ procs ∧ p ≠ .idle
  /-- Every process is in exactly one place. -/
  place : ∀ p ∈ procs, ∃! l, At k Q p l
  /-- The state agrees with the place. -/
  state : ∀ p ∈ procs, ∀ l, At k Q p l → (k.pcb p).state = l.state
  /-- The pid of a process that is not dead is its index. -/
  pid : ∀ i : ℤ, 1 ≤ i → i ≤ 9 → (k.pcb (.pcb i)).state ≠ .dead → (k.pcb (.pcb i)).pid = i
  /-- The counter counts the processes that are not dead. -/
  pNum : k.pNum = 1 + (procs.filter fun p => (k.pcb p).state ≠ .dead).card

/-- The state of a process says where it is. -/
theorem Tidy.at_state (h : Tidy k Q) {p : Node} {l : Place} (hl : At k Q p l) :
    (k.pcb p).state = l.state := by
  cases l with
  | cpu =>
    obtain rfl : p = k.current := hl
    exact h.sound.placed.curState
  | queue i => exact h.sound.placed.state i p hl

/-- A process is in one place only. -/
theorem Tidy.at_unique (h : Tidy k Q) {p : Node} {l l' : Place} (hl : At k Q p l)
    (hl' : At k Q p l') : l = l' := by
  cases l with
  | cpu =>
    cases l' with
    | cpu => rfl
    | queue i => exact absurd hl (h.sound.placed.ne_current hl')
  | queue i =>
    cases l' with
    | cpu => exact absurd hl' (h.sound.placed.ne_current hl)
    | queue j => rw [h.sound.placed.lists.rep.disjoint i j p hl hl']

/-- The state of a process says on which list it is. -/
theorem Tidy.state_iff (h : Tidy k Q) {p : Node} (hp : p ∈ procs) (i : QName) :
    (k.pcb p).state = i.state ↔ p ∈ Q i := by
  refine ⟨fun hs => ?_, h.sound.placed.state i p⟩
  rcases h.complete p hp with rfl | ⟨j, hj⟩
  · rw [h.sound.placed.curState] at hs
    cases i <;> cases hs
  · rw [h.sound.placed.state j p hj] at hs
    obtain rfl : j = i := by cases i <;> cases j <;> first | rfl | cases hs
    exact hj

/-- The dead processes are the free ones. -/
theorem Tidy.dead_iff (h : Tidy k Q) {p : Node} (hp : p ∈ procs) :
    (k.pcb p).state = .dead ↔ p ∈ Q .free :=
  h.state_iff hp .free

/-- A list holds all processes that have its state. -/
theorem Tidy.card_state (h : Tidy k Q) (i : QName) :
    (procs.filter fun p => (k.pcb p).state = i.state).card = (Q i).length := by
  have hset : procs.filter (fun p => (k.pcb p).state = i.state) = (Q i).toFinset := by
    ext p
    rw [Finset.mem_filter, List.mem_toFinset]
    refine ⟨fun hp => (h.state_iff hp.1 i).mp hp.2, fun hp => ?_⟩
    have hproc := h.sound.placed.lists.procs i p hp
    exact ⟨hproc, (h.state_iff hproc i).mpr hp⟩
  rw [hset, List.toFinset_card_of_nodup (h.sound.placed.lists.rep.nodup i)]

/-- `p_num` counts the processes that are alive. -/
theorem Tidy.pNum (h : Tidy k Q) :
    k.pNum = 1 + (procs.filter fun p => (k.pcb p).state ≠ .dead).card := by
  have hdead : (procs.filter fun p => (k.pcb p).state = .dead).card = (Q .free).length :=
    h.card_state .free
  have hsplit := Finset.card_filter_add_card_filter_not (s := procs)
    (p := fun p => (k.pcb p).state = .dead)
  rw [hdead, card_procs] at hsplit
  have hnum : k.pNum + (Q .free).length = 10 := by simpa using h.sound.placed.pNum
  simp only [ne_eq]
  omega

/-- The places form a partition. -/
theorem Tidy.partition (h : Tidy k Q) : Partition k Q := by
  have hrep := h.sound.placed.lists.rep
  refine ⟨hrep.chain, hrep.nodup_cons, fun i j hij p hi hj => hrep.ne_of_ne hij hi hj rfl,
    fun a p hp => ?_, fun i p hp => ?_, fun p hp => ?_, fun p _ l hl => h.at_state hl,
    fun i h1 h9 hd => ?_, h.pNum⟩
  · rcases h.sound.sems a with hs | hs <;> simp_all [QName.head]
  · have hproc := h.sound.placed.lists.procs i p hp
    exact ⟨hproc, fun he => idle_not_mem_procs (he ▸ hproc)⟩
  · rcases h.complete p hp with hc | ⟨i, hi⟩
    · exact ⟨.cpu, hc, fun l hl => h.at_unique hl hc⟩
    · exact ⟨.queue i, hi, fun l hl => h.at_unique hl hi⟩
  · have hproc := pcb_mem_procs.mpr ⟨h1, h9⟩
    exact h.sound.placed.pid i hproc fun hf => hd ((h.dead_iff hproc).mpr hf)

/-- **The process table is partitioned** in every state that a run with one semaphore reaches. -/
theorem partition_of_run (hes : OneSem s v es) (hk : runFrom img es = .ok k) :
    ∃ Q, Partition k Q := by
  obtain ⟨Q, hQ⟩ := tidy_run hes hk
  exact ⟨Q, hQ.partition⟩

/-- The first process gets the CPU after ten ticks, forks twice, and all three wait. -/
theorem partition_of_run_threeWaiters :
    ∃ k, runFrom .blank (List.replicate 10 .timer ++ .sys (.semInit 0x200100 0) ::
      [.sys .fork, .sys .fork, .sys (.semWait 0x200100), .sys (.semWait 0x200100), .timer,
        .sys (.semWait 0x200100), .timer]) = .ok k ∧ ∃ Q, Partition k Q := by
  obtain ⟨k, hk⟩ := exists_ok (x := runFrom .blank (List.replicate 10 .timer ++
    .sys (.semInit 0x200100 0) :: [.sys .fork, .sys .fork, .sys (.semWait 0x200100),
      .sys (.semWait 0x200100), .timer, .sys (.semWait 0x200100), .timer])) (by decide +kernel)
  exact ⟨k, hk, partition_of_run (.used (by decide) (by decide)) hk⟩

end OsLab
