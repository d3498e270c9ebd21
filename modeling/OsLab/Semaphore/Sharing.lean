import OsLab.Semaphore.Counting

/-!
# Several semaphores

All semaphores share one list: `sem_init_aux` makes `list` point to the global `dummysem` whatever
the semaphore, and empties the list behind it. So a post on one semaphore can wake a process that
waits for another (`post_wakes_stranger`), and an initialisation can lose the processes that wait.

To say which semaphore a process waits for, the run carries a history variable: `Traced.waitsFor`
remembers the argument of the `sem_wait_aux` in which a process is blocked.

`independent_of_separate` is the other direction: semaphores are independent in every run that
initialises them while nobody waits, not from the process with pid 2, whose `sem_init_aux` works on
another address than its waits and posts, and in which a call of `sem_wait_aux` that blocks comes
from a process whose `psem` has a list (it is `NULL` in a process forked before the first
`sem_init`) and finds only processes waiting for the same semaphore. In such a run no semaphore call
stops (`semCall_ok`).
-/

namespace OsLab

open OsLab.Lib

/-! ### The history variable -/

/-- The kernel, and the semaphore each process waits for. -/
structure Traced where
  kernel : Kernel
  waitsFor : Node → Option ℕ

/-- The semaphore that an event waits for. -/
def Event.waitArg : Event → Option ℕ
  | .sys (.semWait a) => some a
  | _ => none

/-- The history variable after an event. -/
def track (w : Node → Option ℕ) (k : Kernel) (e : Event) (k' : Kernel) (p : Node) : Option ℕ :=
  if (k'.pcb p).state = .semBlocked then if p = k.current then e.waitArg <|> w p else w p
  else none

/-- An event, and its trace. -/
def tracedStep (t : Traced) (e : Event) : Except Stop Traced := do
  let k ← step t.kernel e
  .ok ⟨k, track t.waitsFor t.kernel e k⟩

/-- Nobody waits. -/
def Traced.start (k : Kernel) : Traced := ⟨k, fun _ => none⟩

variable {k k' : Kernel} {t t' : Traced} {Q : Queues} {e : Event} {es : List Event} {img : Image}

/-- A traced step is a step of the kernel that keeps record of the waits. -/
theorem tracedStep_eq_ok :
    tracedStep t e = .ok t' ↔
      step t.kernel e = .ok t'.kernel ∧
        t'.waitsFor = track t.waitsFor t.kernel e t'.kernel := by
  rw [tracedStep, bind_eq_ok]
  constructor
  · rintro ⟨k, hk, h⟩
    obtain rfl := Except.ok.inj h
    exact ⟨hk, rfl⟩
  · rintro ⟨hk, h⟩
    refine ⟨t'.kernel, hk, ?_⟩
    rw [← h]

/-! ### The property -/

/-- The events of a program that uses its semaphores as it should: they are initialised with a value
that is not negative before they are used, they lie outside the memory that a fork overwrites, and
no value overflows. -/
def proper (t : Traced) : Event → Bool
  | .timer | .store .. | .sys .exit | .sys .fork | .sys (.sleep _) => true
  | .sys (.semInit a v) => KeptByFork a ∧ 0 ≤ v ∧ v < 2 ^ 31
  | .sys (.semWait a) => KeptByFork a ∧ t.kernel.initialised a
  | .sys (.semPost a) =>
    KeptByFork a ∧ t.kernel.initialised a ∧ (t.kernel.sem a).value + 1 < 2 ^ 31
  | _ => false

/-- Semaphores are independent in this state. -/
structure Independent (t : Traced) : Prop where
  /-- A process that waits for `a` is on the list of `a`. -/
  queued : ∀ p ∈ procs, ∀ a, t.waitsFor p = some a →
    ∃ head q, (t.kernel.sem a).list = some head ∧ Chain t.kernel.next head q ∧ p ∈ q
  /-- Only a post on `a` wakes it. -/
  released : ∀ e t', proper t e → tracedStep t e = .ok t' → ∀ p ∈ procs, ∀ a,
    t.waitsFor p = some a → (t'.kernel.pcb p).state ≠ .semBlocked → e = .sys (.semPost a)
  /-- A post on `a` while its value is negative does not fail, and makes a process that waits for `a`
  runnable. -/
  posted : ∀ a, userMode t.kernel → proper t (.sys (.semPost a)) → (t.kernel.sem a).value < 0 →
    ∃ t', tracedStep t (.sys (.semPost a)) = .ok t' ∧
      ∃ p ∈ procs, t.waitsFor p = some a ∧ (t'.kernel.pcb p).state = .runnable

/-- What keeps semaphores apart: they are initialised while nobody waits, not from the process with
pid 2, and a call that blocks comes from a process whose `psem` has a list and finds only processes
waiting for the same semaphore. -/
def separate (t : Traced) : Event → Bool
  | .sys (.semInit _ _) =>
    (t.kernel.pcb t.kernel.current).pid ≠ 2 ∧ ∀ p ∈ procs, (t.kernel.pcb p).state ≠ .semBlocked
  | .sys (.semWait a) =>
    blocks a t.kernel → t.kernel.psemSet ∧
      ∀ p ∈ procs, t.waitsFor p = none ∨ t.waitsFor p = some a
  | _ => true

/-! ### The invariant -/

/-- The semaphore at `a` as a counter: its value, and the processes on the list that wait for it. -/
def Traced.counter (t : Traced) (Q : Queues) (a : ℕ) : Counter Node :=
  ⟨(t.kernel.sem a).value, (Q .sem).filter fun p => t.waitsFor p = some a⟩

/-- The semaphores share the list one at a time. -/
structure Shared (t : Traced) (Q : Queues) : Prop where
  tidy : Tidy t.kernel Q
  /-- Whoever is not on the list waits for nothing. -/
  others : ∀ p ∈ procs, p ∉ Q .sem → t.waitsFor p = none
  /-- All who wait do so for one semaphore, which is initialised. -/
  one : Q .sem ≠ [] → ∃ a, KeptByFork a ∧ t.kernel.initialised a ∧ ∀ p ∈ Q .sem, t.waitsFor p = some a
  /-- Every semaphore counts. -/
  balanced : ∀ a, KeptByFork a → t.kernel.initialised a →
    (t.counter Q a).Balanced ∧ (t.kernel.sem a).value < 2 ^ 31

/-- After start-up nobody waits. -/
theorem shared_start (hb : boot img = .ok k) : Shared (.start k) startQueues := by
  have ht := tidy_boot hb
  obtain ⟨-, nx, rfl⟩ := placed_boot hb
  refine ⟨ht, fun _ _ _ => rfl, fun h => absurd rfl h, fun a _ hi => ?_⟩
  simp [Kernel.initialised, Traced.start, started, initScreen, Kernel.bss] at hi

/-- If anybody waits for `a`, all do. -/
theorem Shared.all_eq (h : Shared t Q) {p : Node} {a : ℕ} (hp : p ∈ Q .sem)
    (hw : t.waitsFor p = some a) : ∀ q ∈ Q .sem, t.waitsFor q = some a := by
  obtain ⟨b, -, -, hb⟩ := h.one (List.ne_nil_of_mem hp)
  obtain rfl : b = a := Option.some.inj ((hb p hp).symm.trans hw)
  exact hb

/-- Who goes on waiting waits for the same semaphore. -/
theorem track_of_blocked {w : Node → Option ℕ} {p : Node} (h : (k'.pcb p).state = .semBlocked)
    (hp : p ≠ k.current) : track w k e k' p = w p := by
  rw [track, if_pos h, if_neg hp]

/-- The trace of a process that goes on waiting. -/
theorem waitsFor_of_waiting {Q' : Queues} (h : Tidy t.kernel Q) (ht : Tidy t'.kernel Q')
    (hw : t'.waitsFor = track t.waitsFor t.kernel e t'.kernel) {p : Node} (hp : p ∈ Q .sem)
    (hp' : p ∈ Q' .sem) : t'.waitsFor p = t.waitsFor p := by
  rw [hw]
  exact track_of_blocked (ht.sound.placed.state .sem p hp') (h.sound.placed.ne_current hp)

/-- The trace of a process whose wait blocks. -/
theorem waitsFor_caller {Q' : Queues} {a : ℕ} (ht : Tidy t'.kernel Q')
    (hw : t'.waitsFor = track t.waitsFor t.kernel (.sys (.semWait a)) t'.kernel)
    (hcur : t.kernel.current ∈ Q' .sem) : t'.waitsFor t.kernel.current = some a := by
  have hs : (t'.kernel.pcb t.kernel.current).state = .semBlocked :=
    ht.sound.placed.state .sem _ hcur
  rw [hw, track, if_pos hs, if_pos rfl]
  rfl

/-- Who does not wait is not recorded as waiting. -/
theorem Shared.others_step {Q' : Queues} (ht : Tidy t'.kernel Q')
    (hw : t'.waitsFor = track t.waitsFor t.kernel e t'.kernel) (p : Node) (hp : p ∈ procs)
    (hn : p ∉ Q' .sem) : t'.waitsFor p = none := by
  rw [hw]
  exact if_neg fun hs => hn ((ht.state_iff hp .sem).mp hs)

/-- Events after which the same processes wait, with all semaphores but at most their value as
before. -/
theorem Shared.of_same (h : Shared t Q) {Q' : Queues} (ht : Tidy t'.kernel Q')
    (hw : t'.waitsFor = track t.waitsFor t.kernel e t'.kernel) (hq : Q' .sem = Q .sem)
    (hlist : ∀ a, KeptByFork a → (t'.kernel.sem a).list = (t.kernel.sem a).list)
    (hval : ∀ a, KeptByFork a → t.kernel.initialised a →
      max 0 (-(t'.kernel.sem a).value) = max 0 (-(t.kernel.sem a).value) ∧
        (t'.kernel.sem a).value < 2 ^ 31) : Shared t' Q' := by
  have hwf : ∀ p ∈ Q .sem, t'.waitsFor p = t.waitsFor p := fun p hp =>
    waitsFor_of_waiting h.tidy ht hw hp (hq ▸ hp)
  refine ⟨ht, Shared.others_step ht hw, fun hne => ?_, fun a ha hi => ?_⟩
  · rw [hq] at hne ⊢
    obtain ⟨a, ha, hi, hall⟩ := h.one hne
    exact ⟨a, ha, (hlist a ha).trans hi, fun p hp => (hwf p hp).trans (hall p hp)⟩
  · have hi' : t.kernel.initialised a := (hlist a ha).symm.trans hi
    have hb := (h.balanced a ha hi').1
    refine ⟨?_, (hval a ha hi').2⟩
    unfold Counter.Balanced Traced.counter at hb ⊢
    rw [(hval a ha hi').1, ← hb, hq]
    simp only
    congr 2
    exact List.filter_congr fun p hp => by rw [hwf p hp]

/-- Events that leave the semaphores outside the copied range and their list alone. -/
theorem Shared.of_sem (h : Shared t Q) {Q' : Queues} (ht : Tidy t'.kernel Q')
    (hw : t'.waitsFor = track t.waitsFor t.kernel e t'.kernel) (hq : Q' .sem = Q .sem)
    (hsem : ∀ a, KeptByFork a → t'.kernel.sem a = t.kernel.sem a) : Shared t' Q' :=
  h.of_same ht hw hq (fun a ha => by rw [hsem a ha]) fun a ha hi => by
    rw [hsem a ha]
    exact ⟨rfl, (h.balanced a ha hi).2⟩

/-- No value is below minus the number of processes. -/
theorem Shared.value_ge (h : Shared t Q) {a : ℕ} (ha : KeptByFork a)
    (hi : t.kernel.initialised a) : -9 ≤ (t.kernel.sem a).value := by
  have hb := (h.balanced a ha hi).1
  have hlen := h.tidy.sound.placed.lists.length_le .sem
  have hfilter := List.length_filter_le (fun p => t.waitsFor p = some a) (Q .sem)
  unfold Counter.Balanced Traced.counter at hb
  simp only at hb
  omega

/-- A negative value has a waiter. -/
theorem Shared.exists_waiter (h : Shared t Q) {a : ℕ} (ha : KeptByFork a)
    (hi : t.kernel.initialised a) (hv : (t.kernel.sem a).value < 0) :
    ∃ p ∈ Q .sem, t.waitsFor p = some a := by
  have hne := (h.balanced a ha hi).1.queue_ne_nil hv
  obtain ⟨p, hp⟩ := List.exists_mem_of_ne_nil _ hne
  have hp' := List.mem_filter.mp hp
  exact ⟨p, hp'.1, by simpa using hp'.2⟩

/-- Nobody is `SEM_BLOCKED`, so the list is empty. -/
theorem Shared.nobody (h : Shared t Q)
    (hn : ∀ p ∈ procs, (t.kernel.pcb p).state ≠ .semBlocked) : Q .sem = [] := by
  refine List.eq_nil_iff_forall_not_mem.mpr fun p hp => ?_
  have hproc := h.tidy.sound.placed.lists.procs .sem p hp
  exact hn p hproc ((h.tidy.state_iff hproc .sem).mpr hp)

/-- Of processes that all wait for `a`, those that wait for `b`. -/
theorem filter_waiters {w : Node → Option ℕ} {l : List Node} {a : ℕ}
    (h : ∀ p ∈ l, w p = some a) (b : ℕ) :
    (l.filter fun p => w p = some b) = if b = a then l else [] := by
  split_ifs with hb
  · exact List.filter_eq_self.mpr fun p hp => by simp [h p hp, hb]
  · exact List.filter_eq_nil_iff.mpr fun p hp => by simp [h p hp, Ne.symm hb]

/-- The list holds the waiters of one semaphore: how many there are is up to its value, and no other
semaphore has any. -/
theorem balanced_of_all {a : ℕ} (h : ∀ p ∈ Q .sem, t.waitsFor p = some a) (b : ℕ) :
    (t.counter Q b).Balanced ↔
      ((if b = a then (Q .sem).length else 0 : ℕ) : ℤ) = max 0 (-(t.kernel.sem b).value) := by
  unfold Counter.Balanced Traced.counter
  rw [filter_waiters h b]
  split_ifs <;> rfl

/-- A wait, in a run that keeps the semaphores apart. -/
theorem shared_wait {a : ℕ} (h : Shared t Q) (ha : KeptByFork a) (hi : t.kernel.initialised a)
    (hsep : separate t (.sys (.semWait a))) (hk : tracedStep t (.sys (.semWait a)) = .ok t') :
    Shared t' (stepQueues t.kernel Q (.sys (.semWait a))) := by
  simp only [separate, decide_eq_true_eq] at hsep
  obtain ⟨hk, hw⟩ := tracedStep_eq_ok.mp hk
  have ht := tidy_step h.tidy (by simp) hk
  have hupd := sem_of_wait h.tidy.sound hk
  have hge := h.value_ge ha hi
  have hlt := (h.balanced a ha hi).2
  have hval : (t'.kernel.sem a).value = (t.kernel.sem a).value - 1 := by
    rw [hupd, Function.update_self]
    exact i32_eq_self (by omega) (by omega)
  have hother : ∀ b ≠ a, t'.kernel.sem b = t.kernel.sem b := fun b hb => by
    rw [hupd, Function.update_of_ne hb]
  have hlist := list_of_value hupd
  have hblocks : blocks a t.kernel ↔ (t.kernel.sem a).value - 1 < 0 := by
    rw [blocks, i32_eq_self (by omega) (by omega)]
  have hq := stepQueues_wait_sem (Q := Q) (userMode_of_call hk).1 a
  by_cases hb : blocks a t.kernel
  · rw [if_pos hb] at hq
    have hneg := hblocks.mp hb
    -- whoever waits already does so for `a`, and so does the caller now
    have hall : ∀ p ∈ Q .sem, t.waitsFor p = some a := fun p hp => by
      obtain ⟨c, -, -, hc⟩ := h.one (List.ne_nil_of_mem hp)
      refine ((hsep hb).2 p (h.tidy.sound.placed.lists.procs .sem p hp)).resolve_left fun hn => ?_
      rw [hc p hp] at hn
      cases hn
    have hcur : t'.waitsFor t.kernel.current = some a := waitsFor_caller ht hw (by simp [hq])
    have hall' : ∀ p ∈ stepQueues t.kernel Q (.sys (.semWait a)) .sem, t'.waitsFor p = some a := by
      intro p hp
      rcases List.mem_append.mp (hq ▸ hp) with hp' | hp'
      · rw [waitsFor_of_waiting h.tidy ht hw hp' hp, hall p hp']
      · rw [List.mem_singleton.mp hp', hcur]
    refine ⟨ht, Shared.others_step ht hw, fun _ => ⟨a, ha, (hlist a).trans hi, hall'⟩,
      fun b hbk hbi => ?_⟩
    have hbi' : t.kernel.initialised b := (hlist b).symm.trans hbi
    have hbal := (balanced_of_all hall b).mp (h.balanced b hbk hbi').1
    rw [balanced_of_all hall' b, hq, List.length_append, List.length_singleton]
    by_cases hba : b = a
    · subst hba
      rw [if_pos rfl] at hbal ⊢
      push_cast
      omega
    · rw [if_neg hba] at hbal ⊢
      rw [hother b hba]
      exact ⟨hbal, (h.balanced b hbk hbi').2⟩
  · rw [if_neg hb] at hq
    have hnn : ¬(t.kernel.sem a).value - 1 < 0 := fun hn => hb (hblocks.mpr hn)
    refine h.of_same ht hw hq (fun b _ => hlist b) fun b hbk hbi => ?_
    by_cases hba : b = a
    · subst hba
      omega
    · rw [hother b hba]
      exact ⟨rfl, (h.balanced b hbk hbi).2⟩

/-- A post. -/
theorem shared_post {a : ℕ} (h : Shared t Q) (ha : KeptByFork a) (hi : t.kernel.initialised a)
    (hv : (t.kernel.sem a).value + 1 < 2 ^ 31) (hk : tracedStep t (.sys (.semPost a)) = .ok t') :
    Shared t' (stepQueues t.kernel Q (.sys (.semPost a))) := by
  obtain ⟨hk, hw⟩ := tracedStep_eq_ok.mp hk
  have ht := tidy_step h.tidy (by simp) hk
  have hupd := sem_of_post h.tidy.sound hk
  have hge := h.value_ge ha hi
  have hval : (t'.kernel.sem a).value = (t.kernel.sem a).value + 1 := by
    rw [hupd, Function.update_self]
    exact i32_eq_self (by omega) (by omega)
  have hother : ∀ b ≠ a, t'.kernel.sem b = t.kernel.sem b := fun b hb => by
    rw [hupd, Function.update_of_ne hb]
  have hlist := list_of_value hupd
  have hq := stepQueues_post_sem (k := t.kernel) (Q := Q) a
  by_cases hb : (t.kernel.sem a).value < 0
  · rw [if_pos hb] at hq
    obtain ⟨p, hp, hpa⟩ := h.exists_waiter ha hi hb
    have hall := h.all_eq hp hpa
    have hall' : ∀ q ∈ stepQueues t.kernel Q (.sys (.semPost a)) .sem, t'.waitsFor q = some a := by
      intro q hq'
      have hqm : q ∈ Q .sem := List.mem_of_mem_tail (hq ▸ hq')
      rw [waitsFor_of_waiting h.tidy ht hw hqm hq', hall q hqm]
    refine ⟨ht, Shared.others_step ht hw, fun _ => ⟨a, ha, (hlist a).trans hi, hall'⟩,
      fun b hbk hbi => ?_⟩
    have hbi' : t.kernel.initialised b := (hlist b).symm.trans hbi
    have hbal := (balanced_of_all hall b).mp (h.balanced b hbk hbi').1
    rw [balanced_of_all hall' b, hq, List.length_tail]
    by_cases hba : b = a
    · subst hba
      rw [if_pos rfl] at hbal ⊢
      omega
    · rw [if_neg hba] at hbal ⊢
      rw [hother b hba]
      exact ⟨hbal, (h.balanced b hbk hbi').2⟩
  · rw [if_neg hb] at hq
    refine h.of_same ht hw hq (fun b _ => hlist b) fun b hbk hbi => ?_
    by_cases hba : b = a
    · subst hba
      omega
    · rw [hother b hba]
      exact ⟨rfl, (h.balanced b hbk hbi).2⟩

/-- An initialisation, while nobody waits. -/
theorem shared_init {a : ℕ} {v : ℤ} (h : Shared t Q) (h0 : 0 ≤ v) (hv : v < 2 ^ 31)
    (hsep : separate t (.sys (.semInit a v))) (hk : tracedStep t (.sys (.semInit a v)) = .ok t') :
    Shared t' (stepQueues t.kernel Q (.sys (.semInit a v))) := by
  simp only [separate, decide_eq_true_eq] at hsep
  obtain ⟨hk, hw⟩ := tracedStep_eq_ok.mp hk
  have hnobody := h.nobody hsep.2
  have ht := tidy_step h.tidy (fun _ _ _ => hnobody) hk
  have hq : stepQueues t.kernel Q (.sys (.semInit a v)) .sem = [] := by simp [stepQueues]
  simp only [step] at hk
  split_ifs at hk with hu
  have hker := Except.ok.inj ((semInitAux_eq a v t.kernel).symm.trans hk)
  have haddr : initAddr a t.kernel = a := by simp [initAddr, hsep.1]
  refine ⟨ht, Shared.others_step ht hw, fun hne => absurd hq hne, fun b hbk hbi => ?_⟩
  rw [balanced_of_all (a := a) (by simp [hq]) b, hq]
  have hsem : t'.kernel.sem b = if b = a then ⟨v, some .dummysem⟩ else t.kernel.sem b := by
    rw [← hker]
    by_cases hb : b = a
    · subst hb; simp [semInited, haddr]
    · simp [semInited, haddr, hb]
  by_cases hb : b = a
  · rw [if_pos hb] at hsem
    rw [hsem]
    refine ⟨?_, hv⟩
    simp [h0]
  · rw [if_neg hb] at hsem
    have hbi' : t.kernel.initialised b := by
      unfold Kernel.initialised at hbi ⊢
      rw [← hsem, hbi]
    obtain ⟨hbal, hlt⟩ := h.balanced b hbk hbi'
    rw [balanced_of_all (a := a) (by simp [hnobody]) b, hnobody] at hbal
    rw [hsem]
    exact ⟨hbal, hlt⟩

/-- **Every proper and separate event** keeps the semaphores apart. -/
theorem shared_step (h : Shared t Q) (hp : proper t e) (hs : separate t e)
    (hk : tracedStep t e = .ok t') : Shared t' (stepQueues t.kernel Q e) := by
  have halone : e.alone → Shared t' (stepQueues t.kernel Q e) := fun he => by
    obtain ⟨hk, hw⟩ := tracedStep_eq_ok.mp hk
    have hinit : ∀ a v, e = .sys (.semInit a v) → Q .sem = [] := by
      rintro a v rfl
      simp [Event.alone] at he
    exact h.of_sem (tidy_step h.tidy hinit hk) hw (stepQueues_alone_sem he) fun a _ => by
      rw [(switched_of_alone h.tidy.sound he hk).sem]
  cases e with
  | timer => exact halone rfl
  | store a b => exact halone rfl
  | key _ => simp [proper] at hp
  | sys c =>
    cases c with
    | exit => exact halone rfl
    | sleep n => exact halone rfl
    | fork =>
      obtain ⟨hk, hw⟩ := tracedStep_eq_ok.mp hk
      have ht := tidy_step h.tidy (by simp) hk
      simp only [step] at hk
      split_ifs at hk with hu
      obtain ⟨-, -, -, nx, hf⟩ := forkAux_placed h.tidy.sound.placed hk
      exact h.of_sem ht hw (forkQueues_sem t.kernel) fun a ha => by
        rw [hf]
        exact forked_sem ha t.kernel
    | semInit a v =>
      simp only [proper, decide_eq_true_eq] at hp
      exact shared_init h hp.2.1 hp.2.2 hs hk
    | semWait a =>
      simp only [proper, decide_eq_true_eq] at hp
      exact shared_wait h hp.1 hp.2 hs hk
    | semPost a =>
      simp only [proper, decide_eq_true_eq] at hp
      exact shared_post h hp.1 hp.2.1 hp.2.2 hk
    | _ => simp [proper] at hp

/-! ### Independence -/

/-- Who is recorded as waiting is on the list. -/
theorem Shared.mem_of_waitsFor (h : Shared t Q) {p : Node} {a : ℕ} (hp : p ∈ procs)
    (hw : t.waitsFor p = some a) : p ∈ Q .sem := by
  by_contra hn
  rw [h.others p hp hn] at hw
  cases hw

/-- **Where semaphores are kept apart they are independent.** -/
theorem Shared.independent (h : Shared t Q) : Independent t where
  queued p hp a hw := by
    have hm := h.mem_of_waitsFor hp hw
    obtain ⟨b, -, hi, hb⟩ := h.one (List.ne_nil_of_mem hm)
    obtain rfl : b = a := Option.some.inj ((hb p hm).symm.trans hw)
    exact ⟨_, _, hi, h.tidy.sound.placed.lists.rep.chain .sem, hm⟩
  released e t' hp hk p hproc a hw hs := by
    have hm := h.mem_of_waitsFor hproc hw
    have hk := (tracedStep_eq_ok.mp hk).1
    have hout : p ∉ stepQueues t.kernel Q e .sem := fun hm' =>
      hs ((sound_step h.tidy.sound hk).1.placed.state .sem p hm')
    have hsame : stepQueues t.kernel Q e .sem ≠ Q .sem := fun hq => hout (hq ▸ hm)
    cases e with
    | timer => exact absurd (stepQueues_alone_sem rfl) hsame
    | store a b => exact absurd (stepQueues_alone_sem rfl) hsame
    | key _ => simp [proper] at hp
    | sys c =>
      have hu := userMode_of_call hk
      cases c with
      | exit => exact absurd (stepQueues_alone_sem rfl) hsame
      | sleep n => exact absurd (stepQueues_alone_sem rfl) hsame
      | fork => exact absurd (forkQueues_sem t.kernel) hsame
      | semInit b v =>
        -- nobody's state changes
        simp only [step, if_pos hu] at hk
        have hker := Except.ok.inj ((semInitAux_eq b v t.kernel).symm.trans hk)
        refine absurd ?_ hs
        rw [← hker, Kernel.relink_pcb]
        have hst : (t.kernel.pcb p).state = .semBlocked := h.tidy.sound.placed.state .sem p hm
        by_cases hpc : p = t.kernel.current <;> simpa [semInited, hpc] using hst
      | semWait b =>
        rw [stepQueues_wait_sem hu.1] at hout
        split_ifs at hout
        · exact absurd (List.mem_append_left _ hm) hout
        · exact absurd hm hout
      | semPost b =>
        simp only [proper, decide_eq_true_eq] at hp
        rw [stepQueues_post_sem] at hout
        split_ifs at hout with hv
        · obtain ⟨q, hq, hqb⟩ := h.exists_waiter hp.1 hp.2.1 hv
          rw [Option.some.inj ((h.all_eq hq hqb p hm).symm.trans hw)]
        · exact absurd hm hout
      | _ => simp [proper] at hp
  posted a hu hp hv := by
    simp only [proper, decide_eq_true_eq] at hp
    obtain ⟨q, hq, hqa⟩ := h.exists_waiter hp.1 hp.2.1 hv
    obtain ⟨k', hk'⟩ := post_ok h.tidy.sound hp.2.1 (fun _ => List.ne_nil_of_mem hq) hu
    obtain ⟨p, rest, hr⟩ := List.exists_cons_of_ne_nil (List.ne_nil_of_mem hq)
    have hm : p ∈ Q .sem := by simp [hr]
    refine ⟨⟨k', track t.waitsFor t.kernel (.sys (.semPost a)) k'⟩, tracedStep_eq_ok.mpr ⟨hk', rfl⟩, p,
      h.tidy.sound.placed.lists.procs .sem p hm,
      h.all_eq hq hqa p hm, ?_⟩
    exact (sound_step h.tidy.sound hk').1.placed.state .runnable p (mem_post_runnable hv hr)

/-- `sem_init`, `sem_wait` and `sem_post`. -/
def Syscall.onSem : Syscall → Bool
  | .semInit _ _ | .semWait _ | .semPost _ => true
  | _ => false

/-- **A semaphore call** that keeps the semaphores apart returns or blocks, and does not stop the
kernel. -/
theorem Shared.semCall_ok (h : Shared t Q) {c : Syscall} (hc : c.onSem) (hu : userMode t.kernel)
    (hp : proper t (.sys c)) (hs : separate t (.sys c)) : ∃ t', tracedStep t (.sys c) = .ok t' := by
  have hstep : ∃ k', step t.kernel (.sys c) = .ok k' := by
    cases c with
    | semInit a v => exact ⟨_, by rw [step, if_pos hu]; exact semInitAux_eq a v t.kernel⟩
    | semWait a =>
      simp only [separate, decide_eq_true_eq] at hs
      exact wait_ok h.tidy.sound (fun hb => (hs hb).1) hu
    | semPost a =>
      simp only [proper, decide_eq_true_eq] at hp
      apply post_ok h.tidy.sound hp.2.1 _ hu
      intro hv
      obtain ⟨q, hq, -⟩ := h.exists_waiter hp.1 hp.2.1 hv
      exact List.ne_nil_of_mem hq
    | _ => cases hc
  obtain ⟨k', hk'⟩ := hstep
  exact ⟨⟨k', track t.waitsFor t.kernel (.sys c) k'⟩, tracedStep_eq_ok.mpr ⟨hk', rfl⟩⟩

/-- **Semaphores are independent** in every run that keeps them apart, and their calls do not stop
the kernel. -/
theorem independent_of_separate (hb : boot img = .ok k)
    (hr : Reaches tracedStep (fun t e => proper t e ∧ separate t e) (.start k) es t) :
    Independent t ∧ ∀ c : Syscall, c.onSem → userMode t.kernel → proper t (.sys c) →
      separate t (.sys c) → ∃ t', tracedStep t (.sys c) = .ok t' := by
  obtain ⟨Q, hQ⟩ := hr.invariant (P := fun _ t => ∃ Q, Shared t Q) ⟨_, shared_start hb⟩
    fun _ _ _ _ _ ⟨Q, hQ⟩ hok hs => ⟨_, shared_step hQ hok.1 hok.2 hs⟩
  exact ⟨hQ.independent, fun _ hc hu hp hs => hQ.semCall_ok hc hu hp hs⟩

/-- The run of a program with two semaphores from start-up, with its steps checked. -/
def tracedRun (img : Image) (ok : Traced → Event → Bool) (es : List Event) : Option Traced :=
  match boot img with
  | .ok k => checkedRun tracedStep (fun t e => ok t e) (.start k) es
  | .error _ => none

/-- A checked traced run is a traced run whose events all met the condition. -/
theorem tracedRun_eq_some {ok : Traced → Event → Bool} (h : tracedRun img ok es = some t) :
    ∃ k, boot img = .ok k ∧ Reaches tracedStep (fun t e => ok t e) (.start k) es t := by
  unfold tracedRun at h
  split at h
  · next k hb => exact ⟨k, hb, .of_checkedRun h⟩
  · cases h

/-- Three processes and two semaphores: the second is used once the first has no waiter. -/
theorem independent_of_separate_takingTurns :
    ∃ t, tracedRun .blank (fun t e => proper t e && separate t e)
      (List.replicate 10 .timer ++ [.sys (.semInit 0x200100 0), .sys (.semInit 0x200200 0),
        .sys .fork, .sys .fork, .sys (.semWait 0x200100), .sys (.semPost 0x200100),
        .sys (.semWait 0x200200)]) = some t ∧ Independent t := by
  obtain ⟨t, ht⟩ := Option.isSome_iff_exists.mp (show (tracedRun .blank
    (fun t e => proper t e && separate t e) (List.replicate 10 .timer ++
      [.sys (.semInit 0x200100 0), .sys (.semInit 0x200200 0), .sys .fork, .sys .fork,
        .sys (.semWait 0x200100), .sys (.semPost 0x200100),
        .sys (.semWait 0x200200)])).isSome = true by decide +kernel)
  obtain ⟨k, hb, hr⟩ := tracedRun_eq_some ht
  exact ⟨t, ht, (independent_of_separate hb (hr.mono fun t e h => by simpa using h)).1⟩

/-- **A post wakes a stranger.** The first process waits for one semaphore, the second for another;
a post on the second semaphore makes the first process runnable. -/
theorem post_wakes_stranger :
    ¬∀ (img : Image) (k : Kernel) (es : List Event) (t : Traced), boot img = .ok k →
      Reaches tracedStep (fun t e => proper t e) (.start k) es t → Independent t := by
  intro hall
  have hrun : (tracedRun .blank proper (List.replicate 10 .timer ++
      [.sys (.semInit 0x200100 0), .sys (.semInit 0x200200 0), .sys .fork, .sys .fork,
        .sys (.semWait 0x200100), .sys (.semWait 0x200200)])).any (fun t =>
      proper t (.sys (.semPost 0x200200)) && decide (t.waitsFor (.pcb 1) = some 0x200100) &&
        match tracedStep t (.sys (.semPost 0x200200)) with
        | .ok t' => decide ((t'.kernel.pcb (.pcb 1)).state ≠ .semBlocked)
        | .error _ => false) = true := by decide +kernel
  obtain ⟨t, ht, hp⟩ := (Option.any_eq_true _ _).mp hrun
  simp only [Bool.and_eq_true, decide_eq_true_eq] at hp
  obtain ⟨⟨hprop, hw⟩, hs⟩ := hp
  obtain ⟨k, hb, hr⟩ := tracedRun_eq_some ht
  split at hs
  · next t' hk =>
    have := (hall .blank k _ t hb hr).released _ t' hprop hk (.pcb 1) (by decide) _ hw
      (of_decide_eq_true hs)
    simp at this
  · cases hs

end OsLab
