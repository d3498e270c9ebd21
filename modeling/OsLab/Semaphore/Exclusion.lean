import OsLab.Scheduler.RoundRobin
import OsLab.Semaphore.Counting

/-!
# Critical sections

The first process initialises a semaphore with `v` before it forks; then processes enter with
`sem_wait` and leave with `sem_post`. Everything else goes on meanwhile: interrupts, files, reads of the
keyboard, forks and sleeps, also of a process that is inside (`Event.keeps`).

* `Guarded` carries who is inside, read off the run: the caller of a wait that has returned, and whom
  a post has released (`insideAfter`).
* `guarded_step`: an event acts on the value, the wait list and those inside as `Lib.Counter` does.
* `exclusion`: as long as only those outside wait and only those inside post, **at most `v` processes
  are inside** in every state; they are different, alive, and none of them is blocked; if somebody
  waits then all `v` places are taken.
-/

namespace OsLab

open OsLab.Lib

variable {k k' : Kernel} {Q : Queues} {e : Event} {s : FirstSem} {v : ℤ} {es : List Event}
  {img : Image} {p : Node}

/-! ### Runs around one semaphore -/

/-- Events that leave the semaphore at `a` to its waits and posts. -/
def Event.keeps (a : ℕ) : Event → Bool
  | .sys (.semInit _ _) | .sys (.semDestroy _) => false
  | .sys (.semWait b) | .sys (.semPost b) => b = a
  | _ => true

/-- An event that is not about processes or semaphores. -/
theorem counted_quiet (h : Counted s k Q) (hk : step k e = .ok k') (hq : stepQueues k Q e = Q)
    (hsem : k'.sem = k.sem) (hpsem : ∀ p, (k'.pcb p).psem = (k.pcb p).psem)
    (he : ∀ a v, e ≠ .sys (.semInit a v)) :
    Counted s k' (stepQueues k Q e) ∧
      counterOf s.addr k' (stepQueues k Q e) = counterOf s.addr k Q := by
  refine h.of_same (tidy_step h.tidy (fun a v hx => absurd hx (he a v)) hk) (by rw [hsem])
    (by rw [hq]) fun p hp hf => ?_
  rw [hpsem]
  exact h.psem p hp (hq ▸ hf)

/-- **`P` and `V` refine a counting semaphore**, whatever else goes on. -/
theorem counted_keeps (h : Counted s k Q) (he : e.keeps s.addr)
    (hv : e = .sys (.semPost s.addr) → (k.sem s.addr).value + 1 < 2 ^ 31)
    (hk : step k e = .ok k') :
    Counted s k' (stepQueues k Q e) ∧
      counterOf s.addr k' (stepQueues k Q e) =
        (semOp k e).elim (counterOf s.addr k Q) (counterOf s.addr k Q).apply := by
  by_cases hsh : e.sharing s.addr
  · exact counted_step h hsh hv hk
  · cases does_of_step h.tidy.sound hk with
    | timer => exact absurd rfl hsh
    | store a b => exact absurd rfl hsh
    | exit => exact absurd rfl hsh
    | sleep => exact absurd rfl hsh
    | fork => exact absurd rfl hsh
    | semWait => exact absurd he hsh
    | semPost => exact absurd he hsh
    | semInit => cases he
    | semDestroy => cases he
    | key hkey hres =>
      apply counted_quiet h hk rfl
      · rw [resume_rest hres, keyboardHandle_rest hkey]
      · intro p
        rw [resume_rest hres, keyboardHandle_rest hkey]
      · exact nofun
    | readStdin hp =>
      apply counted_quiet h hk rfl
      · rw [hp.rest]
      · intro p
        rw [hp.rest]
      · exact nofun
    | @file c _ hc hf =>
      have hsame : ∀ p, (k'.pcb p).psem = (k.pcb p).psem := fun p => by rw [hf.pcb p]
      cases c <;> first
        | exact hc.elim
        | exact counted_quiet h hk rfl hf.sem hsame nofun

/-! ### Who is inside -/

/-- Those inside after an event. -/
def insideAfter (a : ℕ) (k : Kernel) (e : Event) (k' : Kernel) (inside : List Node) : List Node :=
  match e with
  | .sys (.semWait b) =>
    if b = a ∧ (k'.pcb k.current).state ≠ .semBlocked then k.current :: inside else inside
  | .sys (.semPost b) => if b = a then inside.erase k.current ++ releases k e k' else inside
  | _ => inside

/-- The kernel, and who is inside. -/
structure Guarded where
  kernel : Kernel
  inside : List Node

/-- One event. -/
def guardedStep (a : ℕ) (g : Guarded) (e : Event) : Except Stop Guarded := do
  let k' ← step g.kernel e
  .ok ⟨k', insideAfter a g.kernel e k' g.inside⟩

/-- Who waits or exits is outside, who posts is inside. -/
def bracketed (a : ℕ) (g : Guarded) (e : Event) : Prop :=
  e.keeps a ∧ match e with
    | .sys (.semWait _) | .sys .exit => g.kernel.current ∉ g.inside
    | .sys (.semPost _) => g.kernel.current ∈ g.inside
    | _ => True

/-- Whether an event keeps to the brackets can be computed. -/
instance (a : ℕ) (g : Guarded) (e : Event) : Decidable (bracketed a g e) := by
  unfold bracketed
  split <;> exact inferInstance

/-- The kernel's semaphore with those inside. -/
structure Excludes (s : FirstSem) (v : ℤ) (g : Guarded) (Q : Queues) : Prop where
  counted : Counted s g.kernel Q
  held : Counter.Held v (counterOf s.addr g.kernel Q) g.inside
  alive : ∀ p ∈ g.inside, p ∈ procs ∧ p ∉ Q .free

variable {g g' : Guarded}

/-- An event that makes no call on the semaphore. -/
theorem Excludes.other (h : Excludes s v g Q) (he : e.keeps s.addr) (hop : semOp g.kernel e = none)
    (hex : e = .sys .exit → g.kernel.current ∉ g.inside) (hk : step g.kernel e = .ok k') :
    Excludes s v ⟨k', g.inside⟩ (stepQueues g.kernel Q e) := by
  have hpost : e = .sys (.semPost s.addr) → (g.kernel.sem s.addr).value + 1 < 2 ^ 31 := by
    rintro rfl
    cases hop
  obtain ⟨hcounted, hcnt⟩ := counted_keeps h.counted he hpost hk
  rw [hop] at hcnt
  refine ⟨hcounted, by rw [hcnt]; exact h.held, fun p hp => ?_⟩
  obtain ⟨hproc, hfree⟩ := h.alive p hp
  refine ⟨hproc, fun hf => ?_⟩
  rcases of_mem_stepQueues_free hf with hf | ⟨rfl, hc⟩
  · exact hfree hf
  · exact hex rfl (hc ▸ hp)

/-- A wait. -/
theorem Excludes.wait (h : Excludes s v g Q) (hout : g.kernel.current ∉ g.inside)
    (hk : step g.kernel (.sys (.semWait s.addr)) = .ok k') :
    Excludes s v ⟨k', insideAfter s.addr g.kernel (.sys (.semWait s.addr)) k' g.inside⟩
      (stepQueues g.kernel Q (.sys (.semWait s.addr))) := by
  have hc := h.counted
  obtain ⟨hcounted, hcnt⟩ := counted_wait hc hk
  have hcur := hc.tidy.sound.placed.current_mem (userMode_of_call hk).1
  have hq : g.kernel.current ∉ Q .sem := hc.tidy.sound.placed.apart .sem
  have hge := hc.value_ge
  have hlt := hc.value_lt
  -- the caller is blocked afterwards iff it is on the list
  have hblocked : (k'.pcb g.kernel.current).state = .semBlocked ↔
      (g.kernel.sem s.addr).value - 1 < 0 := by
    have hb : blocks s.addr g.kernel ↔ (g.kernel.sem s.addr).value - 1 < 0 := by
      rw [blocks, i32_eq_self (by omega) (by omega)]
    refine (hcounted.tidy.state_iff hcur .sem).trans ?_
    rw [stepQueues_wait_sem (userMode_of_call hk).1]
    split_ifs with hblocks
    · simp [hb.mp hblocks]
    · simp [hb.not.mp hblocks, hq]
  have hins : insideAfter s.addr g.kernel (.sys (.semWait s.addr)) k' g.inside =
      (counterOf s.addr g.kernel Q).inside g.inside g.kernel.current (.wait g.kernel.current) := by
    simp only [insideAfter, Counter.inside, true_and, ne_eq, hblocked, ite_not]
    rfl
  refine ⟨hcounted, ?_, fun p hp => ?_⟩
  · rw [hcnt]
    simp only [hins]
    exact h.held.wait hout hq
  · have hmem : p = g.kernel.current ∨ p ∈ g.inside := by
      simp only [insideAfter] at hp
      split_ifs at hp
      · exact List.mem_cons.mp hp
      · exact .inr hp
    have hold : p ∈ procs ∧ p ∉ Q .free := by
      rcases hmem with rfl | hp
      · exact ⟨hcur, hc.tidy.sound.placed.apart .free⟩
      · exact h.alive p hp
    refine ⟨hold.1, fun hf => hold.2 ?_⟩
    exact (of_mem_stepQueues_free hf).resolve_right fun hx => by cases hx.1

/-- A post. -/
theorem Excludes.post (h : Excludes s v g Q) (hv : v < 2 ^ 31) (hin : g.kernel.current ∈ g.inside)
    (hk : step g.kernel (.sys (.semPost s.addr)) = .ok k') :
    Excludes s v ⟨k', insideAfter s.addr g.kernel (.sys (.semPost s.addr)) k' g.inside⟩
      (stepQueues g.kernel Q (.sys (.semPost s.addr))) := by
  have hc := h.counted
  have hroom : (g.kernel.sem s.addr).value + 1 < 2 ^ 31 := by
    -- a permit is with the caller
    have hpermits : (g.inside.length : ℤ) + max 0 (g.kernel.sem s.addr).value = v := h.held.permits
    have hpos := List.length_pos_of_mem hin
    omega
  obtain ⟨hcounted, hcnt⟩ := counted_post hc hroom hk
  have hrel := (post_wakes hc hroom hk).1
  have hdep : releases g.kernel (.sys (.semPost s.addr)) k' =
      (counterOf s.addr g.kernel Q).departs .post := by
    simpa [semOp] using (observers_eq hc (by simp [Event.sharing]) (fun _ => hroom) hk).2
  have hins : insideAfter s.addr g.kernel (.sys (.semPost s.addr)) k' g.inside =
      (counterOf s.addr g.kernel Q).inside g.inside g.kernel.current .post := by
    simp only [insideAfter, Counter.inside, if_true, hdep]
  refine ⟨hcounted, ?_, fun p hp => ?_⟩
  · rw [hcnt]
    simp only [hins]
    exact h.held.post hin
  · have hold : p ∈ procs ∧ p ∉ Q .free := by
      simp only [insideAfter, if_true, List.mem_append] at hp
      rcases hp with hp | hp
      · exact h.alive p (List.mem_of_mem_erase hp)
      · rw [hrel] at hp
        have hsem : p ∈ Q .sem := List.mem_of_mem_take hp
        refine ⟨hc.tidy.sound.placed.lists.procs .sem p hsem, fun hf => ?_⟩
        have hne := hc.tidy.sound.placed.lists.rep.disjoint .sem .free p hsem hf
        cases hne
    refine ⟨hold.1, fun hf => hold.2 ?_⟩
    exact (of_mem_stepQueues_free hf).resolve_right fun hx => by cases hx.1

/-- **Every event** acts on those inside as the counting semaphore does. -/
theorem guarded_step (h : Excludes s v g Q) (hv : v < 2 ^ 31) (hb : bracketed s.addr g e)
    (hs : guardedStep s.addr g e = .ok g') : Excludes s v g' (stepQueues g.kernel Q e) := by
  obtain ⟨k', hk, hs⟩ := bind_eq_ok.mp hs
  obtain rfl := Except.ok.inj hs
  obtain ⟨he, hb⟩ := hb
  cases e with
  | timer => exact h.other he rfl nofun hk
  | key _ => exact h.other he rfl nofun hk
  | store a b => exact h.other he rfl nofun hk
  | sys c =>
    cases c with
    | semWait a =>
      obtain rfl : a = s.addr := by simpa [Event.keeps] using he
      exact h.wait hb hk
    | semPost a =>
      obtain rfl : a = s.addr := by simpa [Event.keeps] using he
      exact h.post hv hb hk
    | exit => exact h.other he rfl (fun _ => hb) hk
    | _ => exact h.other he rfl nofun hk

/-! ### Runs -/

/-- Before the first fork and the first wait the first process is alone. -/
theorem solo_before (h : Solo k Q) (hes : ∀ e ∈ es, e ≠ .sys .fork ∧ e.waits = false)
    (hk : run step k es = .ok k') : ∃ Q', Solo k' Q' := by
  apply run_invariant hk hes ⟨Q, h⟩
  rintro k1 k2 e ⟨Q1, hQ1⟩ ⟨hfork, hwait⟩ hs
  exact ⟨_, tidy_step hQ1.tidy (fun _ _ _ => hQ1.noWaiter) hs,
    stepQueues_sem_nil hwait hQ1.noWaiter,
    fun p hp => (hQ1.only p hp).imp_right (mem_stepQueues_free hfork)⟩

/-- Those inside are kept apart by the semaphore. -/
structure Excluded (v : ℤ) (g : Guarded) : Prop where
  atMost : (g.inside.length : ℤ) ≤ v
  nodup : g.inside.Nodup
  running : ∀ p ∈ g.inside, (g.kernel.pcb p).state ≠ .dead ∧ (g.kernel.pcb p).state ≠ .semBlocked
  /-- Nobody waits for a free place. -/
  full : (∃ p ∈ procs, (g.kernel.pcb p).state = .semBlocked) → (g.inside.length : ℤ) = v

/-- The invariant gives exclusion. -/
theorem Excludes.excluded (h : Excludes s v g Q) : Excluded v g where
  atMost := h.held.length_le
  nodup := (List.nodup_append.mp h.held.nodup).1
  running := by
    intro p hp
    obtain ⟨hproc, hfree⟩ := h.alive p hp
    have hstate := h.counted.tidy.state_iff hproc
    refine ⟨fun hd => hfree ((hstate .free).mp hd), fun hb => ?_⟩
    exact (List.nodup_append.mp h.held.nodup).2.2 p hp p ((hstate .sem).mp hb) rfl
  full := by
    rintro ⟨p, hproc, hb⟩
    apply h.held.full
    exact List.ne_nil_of_mem ((h.counted.tidy.state_iff hproc .sem).mp hb)

end OsLab
