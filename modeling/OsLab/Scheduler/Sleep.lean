import OsLab.Scheduler.Counters
import OsLab.Scheduler.Partition

/-!
# When a sleeping process wakes

`try_to_wakeup` counts `sleepTime` down at every timer interrupt that arrives while no read waits
for the keyboard (a *tick*, `isTick`) and wakes the processes whose counter has become 0.

* `asleep_run`: a process that has called `sleep_aux n` sleeps through `remaining n - 1` ticks,
  whatever else happens; `remaining n` is `n` for `n ≥ 1`, and `2^32` for `n = 0`, since the counter
  is tested after it was counted down.
* `sleep_ends`: it becomes runnable at tick `n`, not before and not later.
* `sleep_is_late`: a timer interrupt during a read of another process does not count.
-/

namespace OsLab

open OsLab.Lib

variable {k k' : Kernel} {Q : Queues} {e : Event} {p : Node} {es fs : List Event} {img : Image}

/-! ### Ticks -/

/-- The tick of a step, if it is one, with the process that has the CPU. -/
def tickOf (k : Kernel) (e : Event) (_ : Kernel) : List Node := if isTick k e then [k.current] else []

/-- The number of ticks in a run. -/
def ticks (k : Kernel) (es : List Event) : ℕ := (log step tickOf k es).length

/-- No event, no tick. -/
@[simp] theorem ticks_nil (k : Kernel) : ticks k [] = 0 := rfl

/-- The ticks of a run grow by its last event. -/
theorem ticks_snoc (h : run step k es = .ok k') {k'' : Kernel} (he : step k' e = .ok k'') :
    ticks k (es ++ [e]) = ticks k es + if isTick k' e then 1 else 0 := by
  unfold ticks
  rw [log_snoc h he, List.length_append, tickOf]
  split_ifs <;> rfl

/-- How many ticks a counter takes to become 0. -/
def remaining (s : ℤ) : ℤ := (s - 1) % 2 ^ 32 + 1

/-- A sleep of at least one tick has as many to go. -/
theorem remaining_of_pos {s : ℤ} (h1 : 1 ≤ s) (h2 : s < 2 ^ 31) : remaining s = s := by
  unfold remaining
  omega

/-! ### A sleeping process -/

/-- The process `p` is on `blocked_list` and has this many ticks to go. -/
structure Asleep (k : Kernel) (Q : Queues) (p : Node) (r : ℤ) : Prop where
  sound : Sound k Q
  mem : p ∈ Q .blocked
  left : remaining (k.pcb p).sleepTime = r
  range : -2 ^ 31 ≤ (k.pcb p).sleepTime ∧ (k.pcb p).sleepTime < 2 ^ 31

/-- Whoever is ready stays so or gets the CPU. -/
theorem mem_schedQueues_runnable {st : PState} {cur : Node} (hp : p ∈ Q .runnable) :
    p ∈ schedQueues st cur Q .runnable ∨ p = schedNext st cur Q := by
  have hpark : p ∈ parkQueues st cur Q .runnable := mem_parkQueues.mpr (.inl hp)
  rw [← schedNext_cons st cur (List.ne_nil_of_mem hp)] at hpark
  exact (List.mem_cons.mp hpark).symm

/-- What a tick does to a sleeping process. -/
theorem Asleep.tick {r : ℤ} (h : Asleep k Q p r) (he : isTick k e) (hk : step k e = .ok k') :
    if r = 1 then p ∈ stepQueues k Q e .runnable ∨ p = k'.current
    else Asleep k' (stepQueues k Q e) p (r - 1) := by
  obtain ⟨hs', hcur⟩ := sound_step h.sound hk
  have htick := tick_step h.sound he hk
  have hleft := h.left
  obtain ⟨hlo, hhi⟩ := h.range
  obtain ⟨rfl, hn⟩ := of_decide_eq_true he
  have hexp : expires k p = true ↔ r = 1 := by
    rw [expires, decide_eq_true_eq, ← hleft]
    unfold remaining i32
    omega
  have hq : stepQueues k Q .timer = timerQueues k Q := by simp [stepQueues, hn]
  have hnext : k'.current = timerNext k Q := by simpa [stepNext, hn] using hcur
  rw [hq]
  split_ifs with hr
  · have hready : p ∈ tickQueues k Q .runnable :=
      List.mem_append_right _ (List.mem_filter.mpr ⟨h.mem, hexp.mpr hr⟩)
    rw [hnext]
    unfold timerQueues timerNext
    split_ifs
    · exact mem_schedQueues_runnable hready
    · exact .inl hready
  · have hstay : p ∈ tickQueues k Q .blocked := by
      refine List.mem_filter.mpr ⟨h.mem, ?_⟩
      simpa using fun hx => hr (hexp.mp hx)
    have hmem : p ∈ timerQueues k Q .blocked := by
      unfold timerQueues
      split_ifs
      · exact mem_schedQueues (by simp) hstay
      · exact hstay
    have hs' : Sound k' (timerQueues k Q) := hq ▸ hs'
    have hsleep := htick.sleepers p h.mem (hs'.placed.ne_current hmem)
    refine ⟨hs', hmem, ?_, ?_⟩
    · rw [hsleep, ← hleft]
      rw [← hleft] at hr
      unfold remaining i32 at *
      omega
    · rw [hsleep]
      exact i32_range _

/-- Nothing else wakes it. -/
theorem Asleep.keeps {r : ℤ} (h : Asleep k Q p r) (he : ¬isTick k e) (hk : step k e = .ok k') :
    Asleep k' (stepQueues k Q e) p r := by
  have hcounts := counts_step h.sound he hk
  refine ⟨(sound_step h.sound hk).1, mem_stepQueues_blocked he h.mem, ?_, ?_⟩
  · rw [hcounts.sleepers p h.mem]
    exact h.left
  · rw [hcounts.sleepers p h.mem]
    exact h.range

/-- **A sleeping process** sleeps on until its last tick. -/
theorem asleep_run {r : ℤ} (h : Asleep k Q p r) (hr : run step k es = .ok k') (ht : ticks k es < r) :
    ∃ Q', Asleep k' Q' p (r - ticks k es) := by
  induction es using List.reverseRecOn generalizing k' with
  | nil =>
    obtain rfl := Except.ok.inj hr
    exact ⟨Q, by simpa using h⟩
  | append_singleton es e ih =>
    obtain ⟨k1, h1, hs⟩ := run_snoc_eq_ok.mp hr
    rw [ticks_snoc h1 hs] at ht ⊢
    obtain ⟨Q1, hQ1⟩ := ih h1 (by split_ifs at ht <;> omega)
    by_cases he : isTick k1 e
    · rw [if_pos he] at ht ⊢
      have hstep := hQ1.tick he hs
      rw [if_neg (by omega)] at hstep
      push_cast
      rw [← Int.sub_sub]
      exact ⟨_, hstep⟩
    · rw [if_neg he]
      exact ⟨_, by simpa using hQ1.keeps he hs⟩

/-- The last tick wakes it. -/
theorem wakes_at {r : ℤ} (h : Asleep k Q p r) (hr : run step k es = .ok k') (ht : r ≤ ticks k es)
    (h1 : 1 ≤ r) :
    ∃ fs gs k1 k2, es = fs ++ .timer :: gs ∧ run step k fs = .ok k1 ∧ step k1 .timer = .ok k2 ∧
      isTick k1 .timer ∧ ticks k fs + 1 = r ∧
      (OnList k2 runnableList p ∨ k2.current = p) := by
  induction es using List.reverseRecOn generalizing k' with
  | nil =>
    rw [ticks_nil] at ht
    omega
  | append_singleton es e ih =>
    obtain ⟨k1, hk1, hs⟩ := run_snoc_eq_ok.mp hr
    by_cases hlt : r ≤ ticks k es
    · obtain ⟨fs, gs, k2, k3, rfl, hrest⟩ := ih hk1 hlt
      exact ⟨fs, gs ++ [e], k2, k3, by simp, hrest⟩
    · rw [ticks_snoc hk1 hs] at ht
      have he : isTick k1 e := by
        by_contra he
        rw [if_neg he] at ht
        omega
      rw [if_pos he] at ht
      obtain ⟨Q1, hQ1⟩ := asleep_run h hk1 (by omega)
      have hstep := hQ1.tick he hs
      rw [if_pos (by omega)] at hstep
      obtain ⟨rfl, -⟩ := of_decide_eq_true he
      refine ⟨es, [], k1, k', rfl, hk1, hs, he, by omega, ?_⟩
      rcases hstep with hmem | hc
      · left
        exact ⟨_, (sound_step hQ1.sound hs).1.placed.lists.rep.chain .runnable, hmem⟩
      · exact .inr hc.symm

/-! ### `sleep_aux` -/

/-- The caller of `sleep_aux`. -/
theorem asleep_of_sleep {n : ℤ} (h : Sound k Q) (hn : -2 ^ 31 ≤ n ∧ n < 2 ^ 31)
    (hk : step k (.sys (.sleep n)) = .ok k') :
    Asleep k' (schedQueues .blocked k.current Q) k.current (remaining n) := by
  have hs' : Sound k' (schedQueues .blocked k.current Q) := (sound_step h hk).1
  simp only [step] at hk
  split_ifs at hk with hu
  have hmem : k.current ∈ schedQueues .blocked k.current Q .blocked := by
    have hpark : k.current ∈ parkQueues .blocked k.current Q .blocked :=
      mem_parkQueues.mpr (.inr ⟨hu.1, rfl, rfl⟩)
    by_cases hr : Q .runnable = []
    · rwa [schedQueues, if_pos hr, if_neg (by simp)]
    · rwa [schedQueues, if_neg hr, Queues.pop_of_ne _ (by simp)]
  have hne := hs'.placed.ne_current hmem
  obtain ⟨-, hrest⟩ := schedule_counts (show schedule _ = .ok k' from hk) (by simp)
  have hsleep : (k'.pcb k.current).sleepTime = n := by
    rw [(hrest _ hne).2]
    simp
  refine ⟨hs', hmem, ?_, ?_⟩
  · rw [hsleep]
  · rw [hsleep]
    exact hn

/-- **A sleep ends at its last tick**: until then the process is on `blocked_list`, then it is
runnable or runs. -/
theorem sleep_ends {n : ℤ} (h1 : 1 ≤ n) (hn : n < 2 ^ 31) {k0 : Kernel} (hk : runFrom img es = .ok k0)
    (hs : step k0 (.sys (.sleep n)) = .ok k) (hr : run step k fs = .ok k') :
    (ticks k fs < n → OnList k' blockedList k0.current ∧ (k'.pcb k0.current).state = .blocked) ∧
      (n ≤ ticks k fs → ∃ gs hs k1 k2, fs = gs ++ .timer :: hs ∧ run step k gs = .ok k1 ∧
        step k1 .timer = .ok k2 ∧ isTick k1 .timer ∧ ticks k gs + 1 = n ∧
        (OnList k2 runnableList k0.current ∨ k2.current = k0.current)) := by
  obtain ⟨Q, hQ⟩ := sound_run hk
  have hsleep := asleep_of_sleep hQ ⟨by omega, hn⟩ hs
  rw [remaining_of_pos h1 hn] at hsleep
  constructor
  · intro ht
    obtain ⟨Q', hQ'⟩ := asleep_run hsleep hr ht
    exact ⟨⟨_, hQ'.sound.placed.lists.rep.chain .blocked, hQ'.mem⟩,
      hQ'.sound.placed.state .blocked _ hQ'.mem⟩
  · exact fun ht => wakes_at hsleep hr ht h1

/-- A process sleeps for two ticks. -/
theorem sleep_ends_twoTicks :
    ∃ k0 k, runFrom .blank (.replicate 10 .timer) = .ok k0 ∧ step k0 (.sys (.sleep 2)) = .ok k ∧
      ∃ gs hs k1 k2, [.timer, .key 30, .timer] = gs ++ .timer :: hs ∧ run step k gs = .ok k1 ∧
        step k1 .timer = .ok k2 ∧ isTick k1 .timer ∧ (ticks k gs + 1 : ℤ) = 2 ∧
        (OnList k2 runnableList k0.current ∨ k2.current = k0.current) := by
  obtain ⟨k0, hk0, h0⟩ := okAnd_eq_true.mp (show okAnd (runFrom .blank (.replicate 10 .timer))
    (fun k0 => okAnd (step k0 (.sys (.sleep 2)))
      (fun k => okAnd (run step k [.timer, .key 30, .timer])
        (fun _ => 2 ≤ ticks k [.timer, .key 30, .timer]))) = true by decide +kernel)
  obtain ⟨k, hs, h⟩ := okAnd_eq_true.mp h0
  obtain ⟨k', hr, h⟩ := okAnd_eq_true.mp h
  exact ⟨k0, k, hk0, hs, (sleep_ends (by decide) (by decide) hk0 hs hr).2
    (by exact_mod_cast of_decide_eq_true h)⟩

/-- **A sleep that is late**: the first process sleeps for one tick while its child waits for a key.
The timer interrupt that follows is none for it. -/
theorem sleep_is_late :
    ¬∀ (img : Image) (es fs : List Event) (n : ℤ) (k0 k k' : Kernel), 0 ≤ n → n < 2 ^ 31 →
      runFrom img es = .ok k0 → step k0 (.sys (.sleep n)) = .ok k → run step k fs = .ok k' →
      max n 1 ≤ fs.count .timer →
      ∃ gs k1, gs <+: fs ∧ run step k gs = .ok k1 ∧
        (OnList k1 runnableList k0.current ∨ k1.current = k0.current) := by
  intro hall
  obtain ⟨k0, hk0, h0⟩ := okAnd_eq_true.mp (show okAnd (runFrom .blank
      (.replicate 10 .timer ++ [.sys .fork]))
    (fun k0 => okAnd (step k0 (.sys (.sleep 1)))
      (fun k => okAnd (run step k [.sys (.read 0 0x200100 1), .timer])
        (fun _ => ticks k [.sys (.read 0 0x200100 1), .timer] = 0))) = true by decide +kernel)
  obtain ⟨k, hs, h⟩ := okAnd_eq_true.mp h0
  obtain ⟨k', hr, h⟩ := okAnd_eq_true.mp h
  have h := of_decide_eq_true h
  obtain ⟨gs, k1, ⟨hs', hpre⟩, hrun, hawake⟩ := hall .blank _ _ 1 k0 k k' (by decide) (by decide) hk0 hs
    hr (by decide)
  obtain ⟨Q, hQ⟩ := sound_run hk0
  have hsleep := asleep_of_sleep hQ (by decide) hs
  -- no prefix of the run has a tick
  have hticks : ticks k gs = 0 := by
    rw [← hpre, ticks, log_append hrun, List.length_append] at h
    exact (Nat.add_eq_zero_iff.mp h).1
  obtain ⟨Q1, hQ1⟩ := asleep_run hsleep hrun (by rw [hticks]; decide)
  rcases hawake with ⟨xs, hxs, hmem⟩ | hc
  · have hrep := hQ1.sound.placed.lists.rep
    rw [hxs.unique (hrep.chain .runnable)] at hmem
    have hij := hrep.disjoint .runnable .blocked _ hmem hQ1.mem
    cases hij
  · exact hQ1.sound.placed.ne_current hQ1.mem hc.symm

end OsLab
