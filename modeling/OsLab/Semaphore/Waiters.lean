import OsLab.Semaphore.Sharing

/-!
# Does a waiting process stay on its list?

`sem_init_aux` empties the one list that all semaphores share. `NotLost` says that every process
that is blocked in `sem_wait_aux` stands on the list of the semaphore it waits for, and that posts
on that semaphore make it runnable again.

`not_lost_of_keepsWaiters`: this holds in every state of a run in which

* a semaphore is initialised while nobody waits;
* a call of `sem_wait_aux` that blocks comes from a process whose `psem` has a list to join, and is on
  an initialised semaphore, whose value then is low enough for all that wait before the caller (with
  one semaphore in use it always is);
* a post that has to wake somebody is on an initialised semaphore;
* no value wraps around under a waiting process, and no fork overwrites a semaphore somebody waits
  for.

The first condition is exact: an initialisation at any other time loses everybody (`init_loses`).
-/

namespace OsLab

open OsLab.Lib

variable {k k' : Kernel} {t t' : Traced} {Q Q' : Queues} {e : Event} {es : List Event} {img : Image}

/-! ### The property -/

/-- The events of processes that use semaphores. -/
def Event.onSems : Event → Bool
  | .timer | .store .. | .sys .exit | .sys .fork | .sys (.sleep _) => true
  | .sys (.semInit _ _) | .sys (.semWait _) | .sys (.semPost _) => true
  | _ => false

/-- Nobody who waits for a semaphore is lost. -/
structure NotLost (t : Traced) : Prop where
  /-- A waiting process is on the list of the semaphore it waits for. -/
  listed : ∀ p ∈ procs, (t.kernel.pcb p).state = .semBlocked →
    ∃ a head, t.waitsFor p = some a ∧ (t.kernel.sem a).list = some head ∧ OnList t.kernel head p
  /-- Enough posts on that semaphore make it runnable. -/
  wakes : userMode t.kernel → ∀ p ∈ procs, (t.kernel.pcb p).state = .semBlocked →
    ∀ a, t.waitsFor p = some a →
      ∃ n k', run step t.kernel (.replicate n (.sys (.semPost a))) = .ok k' ∧
        (k'.pcb p).state = .runnable

/-- What keeps the waiting processes. -/
def keepsWaiters (t : Traced) : Event → Bool
  | .sys (.semInit _ _) => ∀ p ∈ procs, (t.kernel.pcb p).state ≠ .semBlocked
  | .sys (.semPost a) => (t.kernel.sem a).value < 0 → t.kernel.initialised a
  | .sys (.semWait a) =>
    if blocks a t.kernel then
      t.kernel.psemSet ∧ t.kernel.initialised a ∧
        ((procs.filter fun p => (t.kernel.pcb p).state = .semBlocked).card : ℤ) <
          -i32 ((t.kernel.sem a).value - 1)
    else ∀ p ∈ procs, t.waitsFor p ≠ some a
  | .sys .fork => ∀ p ∈ procs, ∀ a ∈ t.waitsFor p, KeptByFork a
  | _ => true

/-! ### The invariant -/

/-- The process at position `i` of the list waits for a semaphore whose value has room for `i`
others before it. -/
structure Waited (t : Traced) (Q : Queues) : Prop where
  tidy : Tidy t.kernel Q
  ahead : ∀ (i : ℕ) p, (Q .sem)[i]? = some p → ∃ a, t.waitsFor p = some a ∧ t.kernel.initialised a ∧
    (i : ℤ) < -(t.kernel.sem a).value ∧ -2 ^ 31 ≤ (t.kernel.sem a).value

/-- After start-up nobody waits. -/
theorem waited_start (hb : boot img = .ok k) : Waited (.start k) startQueues :=
  ⟨tidy_boot hb, fun i p hp => by simp [startQueues] at hp⟩

/-- Events after which the same processes wait for the same semaphores. -/
theorem Waited.of_same (h : Waited t Q) (ht : Tidy t'.kernel Q')
    (hw : t'.waitsFor = track t.waitsFor t.kernel e t'.kernel) (hq : Q' .sem = Q .sem)
    (hsem : ∀ p ∈ Q .sem, ∀ a, t.waitsFor p = some a → t'.kernel.sem a = t.kernel.sem a) :
    Waited t' Q' := by
  refine ⟨ht, ?_⟩
  intro i p hp
  have hp' := List.mem_of_getElem? hp
  rw [hq] at hp
  have hmem := List.mem_of_getElem? hp
  obtain ⟨a, ha, hi, hv⟩ := h.ahead i p hp
  refine ⟨a, ?_, ?_, ?_⟩
  · rw [waitsFor_of_waiting h.tidy ht hw hmem hp', ha]
  · unfold Kernel.initialised
    rw [hsem p hmem a ha]
    exact hi
  · rw [hsem p hmem a ha]
    exact hv

/-- A wait that keeps the waiters. -/
theorem waited_wait {a : ℕ} (h : Waited t Q) (hc : keepsWaiters t (.sys (.semWait a)))
    (hk : tracedStep t (.sys (.semWait a)) = .ok t') :
    Waited t' (stepQueues t.kernel Q (.sys (.semWait a))) := by
  simp only [keepsWaiters] at hc
  obtain ⟨hk, hw⟩ := tracedStep_eq_ok.mp hk
  have ht := tidy_step h.tidy (by simp) hk
  have hupd := sem_of_wait h.tidy.sound hk
  have hsem : ∀ b ≠ a, t'.kernel.sem b = t.kernel.sem b := fun b hb => by
    rw [hupd, Function.update_of_ne hb]
  have hself : t'.kernel.sem a = { t.kernel.sem a with value := i32 ((t.kernel.sem a).value - 1) } := by
    rw [hupd, Function.update_self]
  have hq := stepQueues_wait_sem (Q := Q) (userMode_of_call hk).1 a
  by_cases hb : blocks a t.kernel
  · rw [if_pos hb] at hq hc
    obtain ⟨-, hi, hlt⟩ := of_decide_eq_true hc
    have hcard : (procs.filter fun p => (t.kernel.pcb p).state = .semBlocked).card =
        (Q .sem).length := h.tidy.card_state .sem
    rw [hcard] at hlt
    have hinit : ∀ b, t.kernel.initialised b → t'.kernel.initialised b := fun b hbi =>
      (list_of_value hupd b).trans hbi
    refine ⟨ht, ?_⟩
    intro i p hp
    have hp' := List.mem_of_getElem? hp
    rw [hq] at hp
    rcases Nat.lt_or_ge i (Q .sem).length with hlt' | hge
    · rw [List.getElem?_append_left hlt'] at hp
      obtain ⟨b, hwb, hbi, hv⟩ := h.ahead i p hp
      refine ⟨b, ?_, hinit b hbi, ?_⟩
      · rw [waitsFor_of_waiting h.tidy ht hw (List.mem_of_getElem? hp) hp', hwb]
      · by_cases hba : b = a
        · subst hba
          have hrange := (i32_range ((t.kernel.sem b).value - 1)).1
          rw [hself]
          constructor
          · simp only
            omega
          · exact hrange
        · rw [hsem b hba]
          exact hv
    · -- the caller is the last one now
      have hpos := (List.getElem?_eq_some_iff.mp hp).1
      rw [List.length_append, List.length_singleton] at hpos
      obtain rfl : i = (Q .sem).length := by omega
      rw [List.getElem?_append_right le_rfl, Nat.sub_self] at hp
      obtain rfl : t.kernel.current = p := by simpa using hp
      refine ⟨a, ?_, hinit a hi, ?_⟩
      · exact waitsFor_caller ht hw hp'
      · rw [hself]
        exact ⟨hlt, (i32_range _).1⟩
  · rw [if_neg hb] at hq hc
    have hc := of_decide_eq_true hc
    apply h.of_same ht hw hq
    intro p hp b hpb
    apply hsem
    rintro rfl
    exact hc p (h.tidy.sound.placed.lists.procs .sem p hp) hpb

/-- A post takes the first waiter off. -/
theorem waited_post {a : ℕ} (h : Waited t Q) (hk : tracedStep t (.sys (.semPost a)) = .ok t') :
    Waited t' (stepQueues t.kernel Q (.sys (.semPost a))) := by
  obtain ⟨hk, hw⟩ := tracedStep_eq_ok.mp hk
  have ht := tidy_step h.tidy (by simp) hk
  have hupd := sem_of_post h.tidy.sound hk
  have hsem : ∀ b ≠ a, t'.kernel.sem b = t.kernel.sem b := fun b hb => by
    rw [hupd, Function.update_of_ne hb]
  have hself : t'.kernel.sem a = { t.kernel.sem a with value := i32 ((t.kernel.sem a).value + 1) } := by
    rw [hupd, Function.update_self]
  have hq := stepQueues_post_sem (k := t.kernel) (Q := Q) a
  by_cases hv : (t.kernel.sem a).value < 0
  · -- everybody moves up by one
    rw [if_pos hv] at hq
    refine ⟨ht, ?_⟩
    intro i p hp
    have hp' := List.mem_of_getElem? hp
    rw [hq, List.getElem?_tail] at hp
    obtain ⟨b, hwb, hbi, hlt, hge⟩ := h.ahead (i + 1) p hp
    refine ⟨b, ?_, (list_of_value hupd b).trans hbi, ?_⟩
    · rw [waitsFor_of_waiting h.tidy ht hw (List.mem_of_getElem? hp) hp', hwb]
    · push_cast at hlt
      by_cases hba : b = a
      · subst hba
        rw [hself]
        simp only
        rw [i32_eq_self (by omega) (by omega)]
        omega
      · rw [hsem b hba]
        omega
  · rw [if_neg hv] at hq
    apply h.of_same ht hw hq
    intro p hp b hpb
    apply hsem
    rintro rfl
    obtain ⟨i, hi⟩ := List.mem_iff_getElem?.mp hp
    obtain ⟨c, hc, -, hlt, -⟩ := h.ahead i p hi
    obtain rfl := Option.some.inj (hc.symm.trans hpb)
    omega

/-- **Every event that keeps the waiting processes** keeps the invariant. -/
theorem waited_step (h : Waited t Q) (he : e.onSems) (hc : keepsWaiters t e)
    (hk : tracedStep t e = .ok t') : Waited t' (stepQueues t.kernel Q e) := by
  have halone : e.alone → Waited t' (stepQueues t.kernel Q e) := by
    intro ha
    obtain ⟨hk, hw⟩ := tracedStep_eq_ok.mp hk
    have hinit : ∀ a v, e = .sys (.semInit a v) → Q .sem = [] := by
      rintro a v rfl
      cases ha
    apply h.of_same (tidy_step h.tidy hinit hk) hw (stepQueues_alone_sem ha)
    intro p _ a _
    rw [(switched_of_alone h.tidy.sound ha hk).sem]
  cases e with
  | timer => exact halone rfl
  | store a b => exact halone rfl
  | key _ => cases he
  | sys c =>
    cases c with
    | exit => exact halone rfl
    | sleep n => exact halone rfl
    | fork =>
      obtain ⟨hk, hw⟩ := tracedStep_eq_ok.mp hk
      have ht := tidy_step h.tidy (by simp) hk
      simp only [step] at hk
      split_ifs at hk with hu
      obtain ⟨-, -, -, nx, hf⟩ := forkAux_placed h.tidy.sound.placed hk
      apply h.of_same ht hw (forkQueues_sem t.kernel)
      intro p hp a ha
      have hkept : KeptByFork a :=
        of_decide_eq_true hc p (h.tidy.sound.placed.lists.procs .sem p hp) a ha
      rw [hf]
      exact forked_sem hkept t.kernel
    | semInit a v =>
      have hnone := of_decide_eq_true hc
      have hq : Q .sem = [] := by
        apply List.eq_nil_iff_forall_not_mem.mpr
        intro p hp
        have hproc := h.tidy.sound.placed.lists.procs .sem p hp
        exact hnone p hproc (h.tidy.sound.placed.state .sem p hp)
      obtain ⟨hk, -⟩ := tracedStep_eq_ok.mp hk
      refine ⟨tidy_step h.tidy (fun _ _ _ => hq) hk, ?_⟩
      intro i p hp
      simp [stepQueues] at hp
    | semWait a => exact waited_wait h hc hk
    | semPost a => exact waited_post h hk
    | _ => cases he

/-! ### Posts wake -/

/-- A post by a process leaves it running. -/
theorem userMode_post {a : ℕ} (h : Sound k Q) (hk : step k (.sys (.semPost a)) = .ok k') :
    userMode k' := by
  simp only [step] at hk
  split_ifs at hk with hu
  obtain ⟨-, hcur, hr⟩ := sound_post h hu hk
  exact ⟨by rw [hcur]; exact hu.1, by rw [hr.waiting]; exact hu.2⟩

/-- The process at position `n` of the list is runnable after `n + 1` posts. -/
theorem wakes_of_posts {a : ℕ} {p : Node} {n : ℕ} (h : Sound k Q) (hu : userMode k)
    (hi : k.initialised a) (hp : (Q .sem)[n]? = some p) (hlt : (n : ℤ) < -(k.sem a).value)
    (hge : -2 ^ 31 ≤ (k.sem a).value) :
    ∃ k', run step k (.replicate (n + 1) (.sys (.semPost a))) = .ok k' ∧
      (k'.pcb p).state = .runnable := by
  induction n generalizing k Q with
  | zero =>
    obtain ⟨q, rest, hq⟩ := List.exists_cons_of_ne_nil (List.ne_nil_of_mem (List.mem_of_getElem? hp))
    obtain rfl : q = p := by simpa [hq] using hp
    have hv : (k.sem a).value < 0 := by omega
    obtain ⟨k', hk⟩ := post_ok h hi (fun _ => by simp [hq]) hu
    refine ⟨k', by simp [run_cons, hk], ?_⟩
    exact (sound_step h hk).1.placed.state .runnable q (mem_post_runnable hv hq)
  | succ n ih =>
    have hv : (k.sem a).value < 0 := by omega
    obtain ⟨k1, hk⟩ := post_ok h hi (fun _ => List.ne_nil_of_mem (List.mem_of_getElem? hp)) hu
    have hu1 := userMode_post h hk
    have h1 := (sound_step h hk).1
    have hsem : k1.sem a = { k.sem a with value := (k.sem a).value + 1 } := by
      rw [sem_of_post h hk, Function.update_self, i32_eq_self (by omega) (by omega)]
    have hp1 : (stepQueues k Q (.sys (.semPost a)) .sem)[n]? = some p := by
      rw [stepQueues_post_sem, if_pos hv, List.getElem?_tail]
      exact hp
    obtain ⟨k', hrun, hs⟩ := ih h1 hu1 ((congrArg Sem.list hsem).trans hi) hp1
      (by rw [hsem]; push_cast at hlt; simp only; omega) (by rw [hsem]; simp only; omega)
    refine ⟨k', ?_, hs⟩
    rw [List.replicate_succ, run_cons, hk, ok_bind]
    exact hrun

/-- Nobody who waits is lost. -/
theorem Waited.notLost (h : Waited t Q) : NotLost t where
  listed := by
    intro p hp hs
    have hmem := (h.tidy.state_iff hp .sem).mp hs
    obtain ⟨i, hi⟩ := List.mem_iff_getElem?.mp hmem
    obtain ⟨a, ha, hinit, -⟩ := h.ahead i p hi
    exact ⟨a, .dummysem, ha, hinit, Q .sem, h.tidy.sound.placed.lists.rep.chain .sem, hmem⟩
  wakes := by
    intro hu p hp hs a ha
    obtain ⟨i, hi⟩ := List.mem_iff_getElem?.mp ((h.tidy.state_iff hp .sem).mp hs)
    obtain ⟨b, hb, hinit, hlt, hge⟩ := h.ahead i p hi
    obtain rfl := Option.some.inj (hb.symm.trans ha)
    obtain ⟨k', hk⟩ := wakes_of_posts h.tidy.sound hu hinit hi hlt hge
    exact ⟨i + 1, k', hk⟩

/-- An initialisation while somebody waits loses everybody who does. -/
theorem init_loses {a : ℕ} {v : ℤ} (h : Tidy t.kernel Q)
    (hk : tracedStep t (.sys (.semInit a v)) = .ok t') {p : Node} (hp : p ∈ procs)
    (hs : (t.kernel.pcb p).state = .semBlocked) : ¬NotLost t' := by
  intro hn
  obtain ⟨hk, -⟩ := tracedStep_eq_ok.mp hk
  have hsound := (sound_step h.sound hk).1
  have hs' : (t'.kernel.pcb p).state = .semBlocked := by
    simp only [step] at hk
    split_ifs at hk
    have hker := Except.ok.inj ((semInitAux_eq a v t.kernel).symm.trans hk)
    rw [← hker, Kernel.relink_pcb]
    by_cases hpc : p = t.kernel.current <;> simpa [semInited, hpc] using hs
  obtain ⟨b, head, -, hl, xs, hxs, hmem⟩ := hn.listed p hp hs'
  obtain rfl : head = .dummysem := by
    rcases hsound.sems b with hb | hb
    · rw [hb] at hl
      cases hl
    · exact (Option.some.inj (hb.symm.trans hl)).symm
  obtain rfl : xs = [] := by
    have hempty : Chain t'.kernel.next .dummysem [] := by
      have hchain : Chain t'.kernel.next .dummysem (stepQueues t.kernel Q (.sys (.semInit a v)) .sem) :=
        hsound.placed.lists.rep.chain .sem
      simpa [stepQueues] using hchain
    exact hxs.unique hempty
  cases hmem

/-- The invariant holds in every run that keeps the waiters. -/
theorem waited_run (hb : boot img = .ok k)
    (hr : Reaches tracedStep (fun t e => e.onSems ∧ keepsWaiters t e) (.start k) es t) :
    ∃ Q, Waited t Q :=
  hr.invariant (P := fun _ t => ∃ Q, Waited t Q) ⟨_, waited_start hb⟩
    fun _ _ _ _ _ ⟨_, hQ⟩ hok hs => ⟨_, waited_step hQ hok.1 hok.2 hs⟩

/-- **A semaphore call** that keeps the waiting processes fails an assertion at worst. -/
theorem Waited.semCall_not_wild (h : Waited t Q) {c : Syscall} (hc : c.onSem)
    (hu : userMode t.kernel) (hkeep : keepsWaiters t (.sys c)) (w : Access) :
    tracedStep t (.sys c) ≠ .error (.wild w) := by
  have hstep : step t.kernel (.sys c) ≠ .error (.wild w) := by
    cases c with
    | semInit a v =>
      rw [step, if_pos hu, doSyscall, semInitAux_eq a v t.kernel]
      simp
    | semWait a =>
      obtain ⟨k', hk'⟩ := wait_ok (a := a) h.tidy.sound (fun hb => by
        simp only [keepsWaiters, if_pos hb] at hkeep
        exact (of_decide_eq_true hkeep).1) hu
      rw [hk']
      simp
    | semPost a => exact post_not_wild h.tidy.sound (of_decide_eq_true hkeep) hu w
    | _ => cases hc
  intro hw
  rw [tracedStep] at hw
  cases hs : step t.kernel (.sys c) with
  | ok k' => simp [hs] at hw
  | error x =>
    rw [hs] at hw hstep
    exact hstep (congrArg Except.error (Except.error.inj hw))

/-- **Nobody who waits for a semaphore is lost** in a run that keeps the waiting processes; such a run
is not ended by a semaphore call other than by a failing assertion; and an initialisation at the end
of such a run keeps the waiting processes iff nobody waits. -/
theorem not_lost_of_keepsWaiters (hb : boot img = .ok k)
    (hr : Reaches tracedStep (fun t e => e.onSems ∧ keepsWaiters t e) (.start k) es t) :
    NotLost t ∧
      (∀ c : Syscall, c.onSem → userMode t.kernel → keepsWaiters t (.sys c) → ∀ w : Access,
        tracedStep t (.sys c) ≠ .error (.wild w)) ∧
      ∀ a v t', tracedStep t (.sys (.semInit a v)) = .ok t' →
        (NotLost t' ↔ keepsWaiters t (.sys (.semInit a v))) := by
  obtain ⟨Q, hQ⟩ := waited_run hb hr
  refine ⟨hQ.notLost, fun _ hc hu hk w => hQ.semCall_not_wild hc hu hk w, ?_⟩
  intro a v t' hk
  constructor
  · intro hn
    apply decide_eq_true
    intro p hp hs
    exact init_loses hQ.tidy hk hp hs hn
  · intro hc
    exact (waited_step hQ rfl hc hk).notLost

/-- Two processes wait for the same semaphore, a third one runs. -/
theorem not_lost_of_keepsWaiters_twoWaiters :
    ∃ t, tracedRun .blank (fun t e => e.onSems && keepsWaiters t e)
      (.replicate 10 .timer ++ [.sys (.semInit 0x200100 0), .sys .fork, .sys .fork,
        .sys (.semWait 0x200100), .sys (.semWait 0x200100)]) = some t ∧ NotLost t := by
  obtain ⟨t, ht⟩ := Option.isSome_iff_exists.mp (show (tracedRun .blank
    (fun t e => e.onSems && keepsWaiters t e) (.replicate 10 .timer ++
      [.sys (.semInit 0x200100 0), .sys .fork, .sys .fork, .sys (.semWait 0x200100),
        .sys (.semWait 0x200100)])).isSome = true by decide +kernel)
  obtain ⟨k, hb, hr⟩ := tracedRun_eq_some ht
  exact ⟨t, ht, (not_lost_of_keepsWaiters hb (hr.mono fun t e h => by simpa using h)).1⟩

/-- **An initialisation loses a process.** The first process waits for one semaphore, its child
initialises another. -/
theorem init_loses_waiter :
    ¬∀ (img : Image) (k : Kernel) (es : List Event) (t : Traced), boot img = .ok k →
      Reaches tracedStep (fun _ e => e.onSems) (.start k) es t → NotLost t := by
  intro hall
  have hrun : (tracedRun .blank (fun t e => e.onSems && keepsWaiters t e) (.replicate 10 .timer ++
      [.sys (.semInit 0x200100 0), .sys .fork, .sys (.semWait 0x200100)])).any (fun t =>
      decide ((t.kernel.pcb (.pcb 1)).state = .semBlocked) &&
        (tracedStep t (.sys (.semInit 0x200 0))).toBool) = true := by decide +kernel
  obtain ⟨t, ht, hp⟩ := (Option.any_eq_true _ _).mp hrun
  obtain ⟨hs, hok⟩ := Bool.and_eq_true_iff.mp hp
  obtain ⟨t', hk⟩ := exists_ok hok
  obtain ⟨k, hb, hr⟩ := tracedRun_eq_some ht
  have hr : Reaches tracedStep (fun t e => e.onSems ∧ keepsWaiters t e) (.start k) _ t :=
    hr.mono fun t e h => by simpa using h
  obtain ⟨Q, hQ⟩ := waited_run hb hr
  have hr' := (hr.mono fun _ _ h => h.1 : Reaches tracedStep (fun _ e => e.onSems) (.start k) _ t)
  exact init_loses hQ.tidy hk (by decide) (of_decide_eq_true hs) (hall .blank k _ t' hb (hr'.snoc rfl hk))

end OsLab
