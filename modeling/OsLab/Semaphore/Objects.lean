import OsLab.Semaphore.Counting

/-!
# One pointer, one semaphore?

`sem_init_aux`, `sem_wait_aux` and `sem_post_aux` each take the pointer of the user, and only the first
one adds `Child_Data_Offst` for the process with pid 2. The list that a blocked process joins comes from
none of them: `schedule` reads it through `psem`, which `sem_init_aux` has left in the PCB.

* `WorksOn`: the three calls work on the `sem_t` at one address, and `Joins`: a process that blocks is
  then on its list.
* `Holding.step`: `psem` stays as the process has set it, whatever the others do.
* **`oneObject_iff`**: in every run, the calls of a process with one pointer work on one semaphore iff
  its pid is not 2 and its `psem` has a list whenever it blocks. `psem` is `NULL` in a process that was
  forked before the `sem_init` of another; one that has called `sem_init` itself has set it
  (`listed_run`).
* **`child_init_astray`**: the first child of a program sets a semaphore that it never waits for.
-/

namespace OsLab

open OsLab.Lib

variable {k k' k1 k2 : Kernel} {Q : Queues} {e : Event} {es : List Event} {img : Image} {p : Node}
  {s a : ℕ} {v : ℤ}

/-! ### The property -/

/-- If the current process would block on `s`, it comes to stand on the list of the `sem_t` at `a`. -/
def Joins (s a : ℕ) (k : Kernel) : Prop :=
  userMode k → blocks s k → ∃ k' head, step k (.sys (.semWait s)) = .ok k' ∧
    (k'.sem a).list = some head ∧ OnList k' head k.current

/-- The calls of the current process with pointer `s` work on the `sem_t` at `a`, and on no other. -/
structure WorksOn (s a : ℕ) (k : Kernel) : Prop where
  /-- `sem_init` sets its value, and its list. -/
  init : ∀ v k', step k (.sys (.semInit s v)) = .ok k' →
    k'.sem = Function.update k.sem a ⟨v, some .dummysem⟩
  /-- `sem_wait` decrements it … -/
  wait : ∀ k', step k (.sys (.semWait s)) = .ok k' →
    k'.sem = Function.update k.sem a { k.sem a with value := i32 ((k.sem a).value - 1) }
  /-- … and a caller that blocks joins its list, once somebody has initialised it. -/
  joins : (k.sem a).list ≠ none ∨ (k.pcb k.current).psem = some a → Joins s a k
  /-- `sem_post` increments it … -/
  post : ∀ k', step k (.sys (.semPost s)) = .ok k' →
    k'.sem = Function.update k.sem a { k.sem a with value := i32 ((k.sem a).value + 1) }
  /-- … and takes the first process off its list, if the value is negative. -/
  pops : ∀ k', step k (.sys (.semPost s)) = .ok k' → (k.sem a).value < 0 →
    ∃ head q rest, (k.sem a).list = some head ∧ Chain k.next head (q :: rest) ∧
      Chain k'.next head rest ∧ (k'.pcb q).state = .runnable

/-- Process `p` has not ended, and its semaphore is the one that it last initialised with pointer
`s`; the other processes may do anything. -/
def usesOnly (p : Node) (s : ℕ) (k : Kernel) (e : Event) : Prop :=
  k.current = p → e ≠ .sys .exit ∧ (∀ b, e ≠ .sys (.semDestroy b)) ∧
    ∀ b v, e = .sys (.semInit b v) → b = s

/-- From here on the calls of the current process with pointer `s` work on one object. -/
def OneObject (s : ℕ) (k : Kernel) : Prop :=
  ∃ a, ∀ es k1, Reaches step (usesOnly k.current s) k es k1 → k1.current = k.current → WorksOn s a k1

/-- A call that would block on `s`, a semaphore that somebody has initialised, comes from a process
whose `psem` has a list. -/
def Listed (s : ℕ) (k : Kernel) : Prop :=
  (k.sem s).list ≠ none ∨ (k.pcb k.current).psem = some s → userMode k → blocks s k → k.psemSet

/-! ### `psem` -/

/-- **What an event leaves alone**: `psem` of all but the child of a fork and the caller of
`sem_init_aux` or `sem_destroy_aux`. -/
theorem psem_of_step (h : Sound k Q) (hk : step k e = .ok k') (hc : e = .sys .fork → p ≠ .pcb k.pNum)
    (hown : k.current = p → (∀ b, e ≠ .sys (.semDestroy b)) ∧ ∀ b v, e ≠ .sys (.semInit b v)) :
    (k'.pcb p).psem = (k.pcb p).psem := by
  cases does_of_step h hk with
  | timer hr hres => rw [resume_rest hres, hr.pcb p]
  | key hkey hres => rw [resume_rest hres, keyboardHandle_rest hkey]
  | store a b => rfl
  | exit _ hr => rw [hr.pcb p]
  | sleep hr => rw [hr.pcb p]
  | fork nx => rw [Kernel.relink_pcb, forked_pcb, if_neg (hc rfl)]
  | semInit a v nx =>
    have hp : p ≠ k.current := fun hp => (hown hp.symm).2 a v rfl
    rw [Kernel.relink_pcb]
    simp [semInited, hp]
  | semDestroy a =>
    have hp : p ≠ k.current := fun hp => (hown hp.symm).1 a rfl
    simp [hp]
  | semWait hr => exact (Switched.of_rescheduled hr).psem p
  | semPost hr => exact (Switched.of_rescheduled hr).psem p
  | readStdin hp => rw [hp.rest]
  | file _ hf => rw [hf.pcb p]

/-- The process is alive, and its `psem` is the `sem_t` at `a`. -/
structure Holding (p : Node) (a : ℕ) (k : Kernel) (Q : Queues) : Prop where
  sound : Sound k Q
  alive : p ∈ procs ∧ p ∉ Q .free
  psem : (k.pcb p).psem = some a

/-- Whoever is forked was not alive. -/
theorem child_ne (h : Placed k Q .running) (hp : p ∉ Q .free) (hk : step k e = .ok k') :
    e = .sys .fork → p ≠ .pcb k.pNum := by
  rintro rfl rfl
  simp only [step] at hk
  split_ifs at hk
  obtain ⟨hfree, -⟩ := forkAux_placed h hk
  exact hp hfree

/-- A process that does not end stays alive. -/
theorem alive_step (hp : p ∈ procs ∧ p ∉ Q .free) (hown : k.current = p → e ≠ .sys .exit) :
    p ∈ procs ∧ p ∉ stepQueues k Q e .free := by
  refine ⟨hp.1, fun hfree => ?_⟩
  rcases of_mem_stepQueues_free hfree with hold | ⟨he, hc⟩
  · exact hp.2 hold
  · exact hown hc.symm he

/-- Its pid is the number of its PCB. -/
theorem pid_eq (h : Sound k Q) (hp : p ∈ procs ∧ p ∉ Q .free) {i : ℤ} (hi : p = .pcb i) :
    (k.pcb p).pid = i := by
  subst hi
  exact h.placed.pid i hp.1 hp.2

/-- The address that `sem_init_aux` works on is that of the pointer, but for the process with pid 2. -/
theorem initAddr_eq (h : (k.pcb k.current).pid ≠ 2) : initAddr s k = s := if_neg h

/-- The address that the process with pid 2 uses is another one. -/
theorem initAddr_ne (h : (k.pcb k.current).pid = 2) : initAddr s k ≠ s := by
  have hoff : Child_Data_Offst = 0x200000 := rfl
  rw [initAddr, if_pos h, hoff]
  omega

/-- What `sem_init_aux` leaves. -/
theorem init_spec (hk : step k (.sys (.semInit s v)) = .ok k') :
    userMode k ∧ k'.current = k.current ∧ k'.waiting = none ∧
      k'.sem = Function.update k.sem (initAddr s k) ⟨v, some .dummysem⟩ ∧
      (k'.pcb k.current).psem = some (initAddr s k) ∧
      (k'.pcb k.current).pid = (k.pcb k.current).pid := by
  simp only [step] at hk
  split_ifs at hk with hu
  obtain rfl := Except.ok.inj ((semInitAux_eq s v k).symm.trans hk)
  refine ⟨hu, rfl, hu.2, rfl, ?_, ?_⟩
  · rw [Kernel.relink_pcb]
    simp [semInited]
  · rw [Kernel.relink_pcb]
    simp [semInited]

/-- Each event of a sequence of calls keeps the semaphore. -/
theorem Holding.step (h : Holding p s k Q) (hpid : ∀ i : ℤ, p = .pcb i → i ≠ 2) (he : usesOnly p s k e)
    (hk : step k e = .ok k') : Holding p s k' (stepQueues k Q e) := by
  refine ⟨(sound_step h.sound hk).1, alive_step h.alive fun hc => (he hc).1, ?_⟩
  by_cases hinit : k.current = p ∧ ∃ b v, e = .sys (.semInit b v)
  · obtain ⟨rfl, b, v, rfl⟩ := hinit
    obtain rfl := (he rfl).2.2 b v rfl
    obtain ⟨i, -, -, hi⟩ := mem_procs.mp h.alive.1
    have hne : (k.pcb k.current).pid ≠ 2 := by
      rw [pid_eq h.sound h.alive hi]
      exact hpid i hi
    rw [(init_spec hk).2.2.2.2.1, initAddr_eq hne]
  · rw [psem_of_step h.sound hk (child_ne h.sound.placed h.alive.2 hk), h.psem]
    intro hc
    exact ⟨(he hc).2.1, fun b v hb => hinit ⟨hc, b, v, hb⟩⟩

/-- Alive processes stay alive in such a run. -/
theorem alive_run (h : Sound k Q) (hp : p ∈ procs ∧ p ∉ Q .free)
    (hr : Reaches step (usesOnly p s) k es k') : ∃ Q', Sound k' Q' ∧ p ∈ procs ∧ p ∉ Q' .free :=
  hr.invariant (P := fun _ k' => ∃ Q', Sound k' Q' ∧ p ∈ procs ∧ p ∉ Q' .free) ⟨Q, h, hp⟩
    fun _ _ _ _ _ ⟨_, hQ, halive⟩ he hk =>
      ⟨_, (sound_step hQ hk).1, alive_step halive fun hc => (he hc).1⟩

/-! ### The three calls -/

/-- Whoever blocks stands behind `dummysem`, which is the list of its `psem`. -/
theorem blocked_spec (h : Sound k Q) (hbl : blocks s k) (hk : step k (.sys (.semWait s)) = .ok k') :
    OnList k' .dummysem k.current ∧ k.psemSet := by
  simp only [OsLab.step] at hk
  split_ifs at hk with hu
  obtain ⟨hs, -, hr⟩ := sound_wait h hu hk
  have hsched : schedule ((takeSem s (k.setEax 0)).setState k.current .semBlocked) = .ok k' := by
    have hv : i32 ((k.sem s).value - 1) < 0 := hbl
    simpa [doSyscall, semWaitAux, P, hv] using hk
  obtain ⟨head, hhead⟩ := psemList_of_schedule (by simp) hsched
  obtain ⟨a, hpsem, hlist⟩ := psemList_eq_ok.mp hhead
  have hlist' : (k'.sem a).list = some head := by
    rw [hr.sem]
    exact hlist
  have hold : (k.sem a).list = some head := by
    by_cases ha : a = s
    · subst ha; simpa using hlist
    · simpa [ha] using hlist
  obtain rfl : head = .dummysem := by
    rcases hs.sems a with hno | hdummy
    · rw [hno] at hlist'
      cases hlist'
    · exact Option.some.inj (hlist'.symm.trans hdummy)
  have hq := stepQueues_wait_sem (Q := Q) hu.1 s
  rw [if_pos hbl] at hq
  refine ⟨⟨_, hs.placed.lists.rep.chain .sem, ?_⟩, a, by simpa using hpsem, hold⟩
  rw [hq]
  simp

/-- **A caller that blocks joins the list** of an initialised semaphore iff its `psem` has one. -/
theorem joins_iff_listed (h : Sound k Q) :
    ((k.sem s).list ≠ none ∨ (k.pcb k.current).psem = some s → Joins s s k) ↔ Listed s k := by
  constructor
  · intro hj hown hu hbl
    obtain ⟨k', head, hk, -, -⟩ := hj hown hu hbl
    exact (blocked_spec h hbl hk).2
  · intro hl hown hu hbl
    have hps := hl hown hu hbl
    have hinit : k.initialised s := by
      rcases hown with hlist | hpsem
      · exact (h.sems s).resolve_left hlist
      · obtain ⟨b, hb, hinit⟩ := hps
        obtain rfl : b = s := Option.some.inj (hb.symm.trans hpsem)
        exact hinit
    obtain ⟨k', hk⟩ := wait_ok h (fun _ => hps) hu
    refine ⟨k', .dummysem, hk, ?_, (blocked_spec h hbl hk).1⟩
    rw [list_of_value (sem_of_wait h hk)]
    exact hinit

/-- **The calls of a process whose pid is not 2** work on the semaphore that its pointer names, if its
`psem` has a list when it blocks. -/
theorem worksOn_of_pid (h : Sound k Q) (hpid : (k.pcb k.current).pid ≠ 2) (hl : Listed s k) :
    WorksOn s s k where
  init := by
    intro v k' hk
    rw [(init_spec hk).2.2.2.1, initAddr_eq hpid]
  wait := by
    intro k' hk
    rw [sem_of_wait h hk]
  joins := (joins_iff_listed h).mpr hl
  post := by
    intro k' hk
    rw [sem_of_post h hk]
  pops := by
    intro k' hk hv
    simp only [step] at hk
    split_ifs at hk with hu
    obtain ⟨hs, -, -⟩ := sound_post h hu hk
    have h1 : Sound (k.setEax 0) Q := h.fileCall (.setEax k 0)
    have hV := V_eq_ok h1 hk
    rw [if_pos (by exact hv)] at hV
    obtain ⟨q, rest, nx, hq, hl, -, -⟩ := hV
    have hchain : Chain k.next .dummysem (Q .sem) := h.placed.lists.rep.chain .sem
    have hchain' : Chain k'.next .dummysem (stepQueues k Q (.sys (.semPost s)) .sem) :=
      hs.placed.lists.rep.chain .sem
    rw [stepQueues_post_sem, if_pos hv, hq] at hchain'
    exact ⟨.dummysem, q, rest, hl, hq ▸ hchain, hchain',
      hs.placed.state .runnable q (mem_post_runnable hv hq)⟩

/-- **An initialised semaphore stays so**, unless it lies where a fork writes. -/
theorem initialised_step (h : Sound k Q) (ha : KeptByFork a) (hi : k.initialised a)
    (hk : step k e = .ok k') : k'.initialised a := by
  have hsame : k'.sem a = k.sem a → k'.initialised a := fun hs => (congrArg Sem.list hs).trans hi
  cases does_of_step h hk with
  | timer hr hres => exact hsame (by rw [resume_rest hres, hr.sem])
  | key hkey hres => exact hsame (by rw [resume_rest hres, keyboardHandle_rest hkey])
  | store b v => exact hi
  | exit _ hr => exact hsame (by rw [hr.sem])
  | sleep hr => exact hsame (by rw [hr.sem])
  | fork nx => exact hsame (forked_sem ha k)
  | semInit b v nx =>
    by_cases hb : a = initAddr b k
    · simp [Kernel.initialised, semInited, hb]
    · exact hsame (by simp [semInited, hb])
  | semDestroy b => exact hi
  | semWait hr => exact (list_of_value (sem_of_wait h hk) a).trans hi
  | semPost hr => exact (list_of_value (sem_of_post h hk) a).trans hi
  | readStdin hp => exact hsame (by rw [hp.rest])
  | file _ hf => exact hsame (by rw [hf.sem])

/-- A process that has initialised its semaphore is put on a list when it blocks. -/
theorem Holding.listed (h : Holding k.current s k Q) (hi : k.initialised s) : Listed s k :=
  fun _ _ _ => ⟨s, h.psem, hi⟩

/-- In all that follows, too. -/
theorem listed_run (h : Holding p s k Q) (ha : KeptByFork s) (hi : k.initialised s)
    (hpid : ∀ i : ℤ, p = .pcb i → i ≠ 2) (hr : Reaches step (usesOnly p s) k es k')
    (hc : k'.current = p) : Listed s k' := by
  obtain ⟨Q', hQ', hi'⟩ := hr.invariant
    (P := fun _ k' => ∃ Q', Holding p s k' Q' ∧ k'.initialised s) ⟨Q, h, hi⟩
    fun _ _ _ _ _ ⟨_, hQ, hi⟩ he hk => ⟨_, hQ.step hpid he hk, initialised_step hQ.sound ha hi hk⟩
  subst hc
  exact hQ'.listed hi'

/-! ### The process with pid 2 -/

/-- After its `sem_init_aux` a process can wait, and takes from the semaphore at the pointer. -/
theorem wait_of_init (h : Sound k Q) (hk : step k (.sys (.semInit s v)) = .ok k') :
    ∃ k2, step k' (.sys (.semWait s)) = .ok k2 ∧
      k2.sem = Function.update k'.sem s { k'.sem s with value := i32 ((k'.sem s).value - 1) } := by
  have hs := (sound_step h hk).1
  obtain ⟨hu, hcur, hw, hsem, hpsem, -⟩ := init_spec hk
  have hu' : userMode k' := ⟨by rw [hcur]; exact hu.1, hw⟩
  have hps : k'.psemSet := by
    refine ⟨initAddr s k, ?_, ?_⟩
    · rw [hcur]
      exact hpsem
    · rw [Kernel.initialised, hsem, Function.update_self]
  obtain ⟨k2, hstep⟩ := wait_ok hs (fun _ => hps) hu'
  exact ⟨k2, hstep, by rw [sem_of_wait hs hstep]⟩

/-- A decrement is seen. -/
theorem i32_pred_ne (x : ℤ) : i32 (x - 1) ≠ x := by
  unfold i32
  omega

/-! ### One object, or two -/

/-- A call of `sem_init` shows where the object is. -/
theorem addr_of_worksOn (h : WorksOn s a k) (hu : userMode k) : a = initAddr s k := by
  obtain ⟨k1, hk1⟩ : ∃ k1, step k (.sys (.semInit s ((k.sem a).value + 1))) = .ok k1 := by
    rw [step, if_pos hu]
    exact ⟨_, semInitAux_eq s _ k⟩
  by_contra hne
  have hset := congrFun ((h.init _ k1 hk1).symm.trans (init_spec hk1).2.2.2.1) a
  rw [Function.update_self, Function.update_of_ne hne] at hset
  have hv : (k.sem a).value + 1 = (k.sem a).value := congrArg Sem.value hset
  omega

/-- The process with pid 2 sets one semaphore, and takes from another. -/
theorem not_oneObject_of_pid (h : Sound k Q) (hu : userMode k) (hpid : (k.pcb k.current).pid = 2) :
    ¬OneObject s k := by
  rintro ⟨a, hall⟩
  have ha : a = initAddr s k := addr_of_worksOn (hall [] k .nil rfl) hu
  obtain ⟨k1, hk1⟩ : ∃ k1, step k (.sys (.semInit s 0)) = .ok k1 := by
    rw [step, if_pos hu]
    exact ⟨_, semInitAux_eq s _ k⟩
  obtain ⟨k2, hk2, hwait⟩ := wait_of_init h hk1
  have hr : Reaches step (usesOnly k.current s) k ([] ++ [.sys (.semInit s _)]) k1 :=
    .snoc .nil (fun _ => ⟨by simp, by simp, by rintro b v ⟨⟩; rfl⟩) hk1
  have htake := congrFun (((hall _ k1 hr (init_spec hk1).2.1).wait k2 hk2).symm.trans hwait) a
  rw [Function.update_self, Function.update_of_ne (ha ▸ initAddr_ne hpid)] at htake
  exact i32_pred_ne _ (congrArg Sem.value htake)

/-- The process and its pid, at the end of such a run. -/
theorem pid_run (h : Sound k Q) (hu : userMode k) (hr : Reaches step (usesOnly k.current s) k es k1)
    (hc : k1.current = k.current) :
    ∃ Q1, Sound k1 Q1 ∧ (k1.pcb k1.current).pid = (k.pcb k.current).pid := by
  have halive : k.current ∈ procs ∧ k.current ∉ Q .free :=
    ⟨h.placed.current_mem hu.1, h.placed.apart .free⟩
  obtain ⟨Q1, h1, halive1⟩ := alive_run h halive hr
  obtain ⟨i, -, -, hi⟩ := mem_procs.mp halive.1
  refine ⟨Q1, h1, ?_⟩
  rw [hc, pid_eq h1 halive1 hi, pid_eq h halive hi]

/-- The calls of a process whose pid is not 2 work on one semaphore for as long as it lives iff its
`psem` has a list whenever it blocks. -/
theorem oneObject_iff_listed (h : Sound k Q) (hu : userMode k) (hpid : (k.pcb k.current).pid ≠ 2) :
    OneObject s k ↔ ∀ es k1, Reaches step (usesOnly k.current s) k es k1 →
      k1.current = k.current → Listed s k1 := by
  constructor
  · rintro ⟨a, hall⟩ es k1 hr hc
    obtain rfl : a = s := by
      rw [addr_of_worksOn (hall [] k .nil rfl) hu, initAddr_eq hpid]
    obtain ⟨Q1, h1, -⟩ := pid_run h hu hr hc
    exact (joins_iff_listed h1).mp (hall es k1 hr hc).joins
  · intro hall
    refine ⟨s, ?_⟩
    intro es k1 hr hc
    obtain ⟨Q1, h1, hpid1⟩ := pid_run h hu hr hc
    exact worksOn_of_pid h1 (by rw [hpid1]; exact hpid) (hall es k1 hr hc)

/-- **One pointer names one semaphore iff** the pid is not 2 and `psem` has a list whenever the process
blocks, in every run and for every pointer; for a process that has initialised the semaphore itself,
outside the memory that a fork overwrites, iff the pid is not 2. -/
theorem oneObject_iff (hk : runFrom img es = .ok k) (hu : userMode k) :
    (OneObject s k ↔ (k.pcb k.current).pid ≠ 2 ∧
      ∀ es k1, Reaches step (usesOnly k.current s) k es k1 → k1.current = k.current → Listed s k1) ∧
    ((k.pcb k.current).psem = some s → k.initialised s → KeptByFork s →
      (OneObject s k ↔ (k.pcb k.current).pid ≠ 2)) := by
  obtain ⟨Q, h⟩ := sound_run hk
  have hiff : OneObject s k ↔ (k.pcb k.current).pid ≠ 2 ∧
      ∀ es k1, Reaches step (usesOnly k.current s) k es k1 → k1.current = k.current → Listed s k1 := by
    constructor
    · intro hone
      have hpid : (k.pcb k.current).pid ≠ 2 := fun hpid => not_oneObject_of_pid h hu hpid hone
      exact ⟨hpid, (oneObject_iff_listed h hu hpid).mp hone⟩
    · rintro ⟨hpid, hall⟩
      exact (oneObject_iff_listed h hu hpid).mpr hall
  refine ⟨hiff, ?_⟩
  intro hpsem hi hkept
  rw [hiff]
  constructor
  · exact And.left
  · intro hpid
    refine ⟨hpid, ?_⟩
    intro es k1 hr hc
    have halive : k.current ∈ procs ∧ k.current ∉ Q .free :=
      ⟨h.placed.current_mem hu.1, h.placed.apart .free⟩
    exact listed_run ⟨h, halive, hpsem⟩ hkept hi (fun i hi => pid_eq h halive hi ▸ hpid) hr hc

/-- The first process, when it has initialised its semaphore and forked. -/
theorem oneObject_iff_first : ∃ k, runFrom .blank (.replicate 10 .timer ++
      [.sys (.semInit 0x200100 1), .sys .fork]) = .ok k ∧ OneObject 0x200100 k := by
  obtain ⟨k, hk, hp⟩ := okAnd_eq_true.mp (show okAnd (runFrom .blank (.replicate 10 .timer ++
      [.sys (.semInit 0x200100 1), .sys .fork]))
    (fun k => decide (userMode k ∧ (k.pcb k.current).psem = some 0x200100 ∧
      k.initialised 0x200100 ∧ (k.pcb k.current).pid ≠ 2)) = true by decide +kernel)
  obtain ⟨hu, hpsem, hi, hpid⟩ := of_decide_eq_true hp
  exact ⟨k, hk, ((oneObject_iff hk hu).2 hpsem hi (by decide)).mpr hpid⟩

/-- **The first child** of a program has pid 2: what it sets is not what it waits for. -/
theorem child_init_astray :
    ¬∀ (img : Image) (es : List Event) (k : Kernel) (s : ℕ), runFrom img es = .ok k → userMode k →
      OneObject s k := by
  intro hall
  obtain ⟨k, hk, hp⟩ := okAnd_eq_true.mp (show okAnd
    (runFrom .blank (.replicate 10 .timer ++ [.sys .fork, .sys .exit]))
    (fun k => decide (userMode k ∧ (k.pcb k.current).pid = 2)) = true by decide +kernel)
  obtain ⟨hu, hpid⟩ := of_decide_eq_true hp
  obtain ⟨Q, h⟩ := sound_run hk
  exact not_oneObject_of_pid h hu hpid (hall .blank _ k 0x200100 hk hu)

end OsLab
