import OsLab.Scheduler.Partition
import Mathlib.Data.Int.Interval

/-!
# When `fork_aux` finds a PCB

`fork_aux` takes the child's PCB by the counter `p_num`, which `exit_aux` counts down, and not from
`free_list`. It succeeds when the PCB with that index is free, and only then:

* `forkAux_ok`, `forkAux_abort`: on a well-formed process table.
* `fork_succeeds_iff`: in every state reached by forks, exits, sleeps and timer interrupts, in terms
  of the live processes: none of them has `p_num` as its pid.
* `fork_succeeds_of_lifo`: so it is as long as always the process with the highest pid exits.
* `fork_aborts`: a run with an exit in another order.
-/

namespace OsLab

open OsLab.Lib

variable {k k' : Kernel} {Q : Queues} {e : Event} {es : List Event} {img : Image}

/-! ### `fork_aux` on a well-formed process table -/

/-- The descriptor loop succeeds on descriptors that are unused or valid. -/
theorem copyFiles_ok {child : Node} (hc : child ≠ k.current) {n : ℕ}
    (hv : ∀ j < n, ValidSlot ((k.pcb k.current).filepointer j)) :
    ∃ k', copyFiles child n k = .ok k' := by
  induction n with
  | zero => exact ⟨k, rfl⟩
  | succ i ih =>
    obtain ⟨k1, h1⟩ := ih fun j hj => hv j (Nat.lt_succ_of_lt hj)
    obtain ⟨rfl, -⟩ := copyFiles_eq hc rfl h1
    have hcur : ((filesCopied child (k.pcb k.current).filepointer i k).pcb k.current).filepointer =
        (k.pcb k.current).filepointer := by
      simp [filesCopied, hc.symm]
    simp only [copyFiles, h1, ok_bind,
      show (filesCopied child (k.pcb k.current).filepointer i k).current = k.current from rfl, hcur]
    rcases hv i (Nat.lt_succ_self i) with hs | hs
    · simp only [hs, ne_eq, not_true_eq_false, if_false]
      exact ⟨_, rfl⟩
    · have hne : (k.pcb k.current).filepointer i ≠ -1 := by omega
      simp only [ne_eq, hne, not_false_eq_true, if_true, if_pos hs]
      exact ⟨_, rfl⟩

/-- **`fork_aux`** succeeds if `pcb[p_num]` is free. -/
theorem forkAux_ok (h : Placed k Q .running) (hfree : Node.pcb k.pNum ∈ Q .free)
    (hv : ∀ j < MAX_FP_NUM, ValidSlot ((k.pcb k.current).filepointer j)) :
    ∃ k', forkAux k = .ok k' := by
  set child := Node.pcb k.pNum with hchild
  have hc : child ≠ k.current := h.ne_current hfree
  obtain ⟨nx1, h1, hh1⟩ := listDelete_eq h.lists .free hfree
  set k2 := (k.relink nx1).setPcb child fun c => { c with
    fpNum := ((k.relink nx1).pcb (k.relink nx1).current).fpNum } with hk2
  have hfp : (k2.pcb k2.current).filepointer = (k.pcb k.current).filepointer := by
    simp [hk2, Kernel.relink_pcb, hc.symm]
  obtain ⟨k3, h3⟩ := copyFiles_ok (k := k2) (n := MAX_FP_NUM) hc (by rw [hfp]; exact hv)
  obtain ⟨rfl, -⟩ := copyFiles_eq (k := k2) hc rfl h3
  -- the list of the free PCBs aside, the lists are as they were
  have hapart : ∀ j, child ∉ Function.update Q .free ((Q .free).erase child) j := by
    intro j hj
    by_cases hjf : j = .free
    · subst hjf
      rw [Function.update_self] at hj
      exact (h.lists.rep.nodup .free).not_mem_erase hj
    · rw [Function.update_of_ne hjf] at hj
      exact hjf (h.lists.rep.disjoint j .free child hj hfree)
  have hadd : ∀ k4 : Kernel, k4.next = nx1 → ∃ k5,
      (listAdd runnableList child k4 >>= fun k => Except.ok { k with pNum := k.pNum + 1 }) = .ok k5 := by
    intro k4 hn
    have hh4 : Holds k4 (Function.update Q .free ((Q .free).erase child)) := hh1.congr hn
    obtain ⟨nx2, h2, -⟩ := listAdd_eq hh4 .runnable hapart (h.lists.procs _ child hfree)
    rw [show listAdd runnableList child k4 = _ from h2, ok_bind]
    exact ⟨_, rfl⟩
  simp only [forkAux, ← hchild]
  rw [show listDelete freeList child k = _ from h1, ok_bind]
  rw [← hk2, h3, ok_bind]
  apply hadd
  funext p
  by_cases hp : p = child
  · subst hp; simp [Kernel.next, copyFrame, filesCopied, hk2, Kernel.relink_pcb]
  · simp [Kernel.next, copyFrame, filesCopied, hk2, Kernel.relink_pcb, hp]

/-- `fork_aux` fails an assertion if `pcb[p_num]` is not free. -/
theorem forkAux_abort (h : Placed k Q .running) (hfree : Node.pcb k.pNum ∉ Q .free) :
    forkAux k = .error .abort := by
  simp only [forkAux]
  rw [show listDelete freeList (.pcb k.pNum) k = _ from listDelete_abort h.lists .free hfree]
  rfl

/-! ### Runs of forks and exits -/

/-- No process has opened a file. -/
def NoFiles (k : Kernel) : Prop := ∀ p ∈ procs, ∀ j < MAX_FP_NUM, (k.pcb p).filepointer j = -1

/-- After start-up no slot of the file table is taken. -/
theorem noFiles_boot (hb : boot img = .ok k) : NoFiles k := by
  obtain ⟨-, nx, rfl⟩ := placed_boot hb
  intro p hp j hj
  have hfp : ∀ c, (freePcb c).filepointer j = -1 := fun c => if_pos hj
  rcases mem_startQueues p hp with rfl | hfree
  · exact hfp _
  · have hmem : p ∈ firstPcbs 9 := List.mem_of_mem_tail hfree
    have hne : p ≠ .pcb 1 := by
      rintro rfl
      exact absurd hfree (by decide)
    simp only [Kernel.relink_pcb, started, if_neg hne, if_pos hmem]
    exact hfp _

/-- Forks hand on what there is, the others leave the descriptors alone. -/
theorem noFiles_step (hn : NoFiles k) (h : Sound k Q) (he : e.scheduling) (hk : step k e = .ok k') :
    NoFiles k' := by
  have halone : e.alone → NoFiles k' := by
    intro ha p hp j hj
    rw [(switched_of_alone h ha hk).filepointer]
    exact hn p hp j hj
  cases e with
  | timer => exact halone rfl
  | key c => cases he
  | store a b => exact halone rfl
  | sys c =>
    by_cases hf : c = .fork
    · subst hf
      simp only [step] at hk
      split_ifs at hk with hu
      obtain ⟨-, -, -, nx, rfl⟩ := forkAux_placed h.placed hk
      intro p hp j hj
      simp only [Kernel.relink_pcb, forked_pcb]
      split_ifs
      · simp only [childPcb, if_pos hj]
        exact hn _ (h.placed.current_mem hu.1) j hj
      · exact hn p hp j hj
    · apply halone
      cases c <;> first | exact he | exact absurd rfl hf

/-- What a run of forks, exits, sleeps and timer interrupts keeps. -/
theorem scheduling_run (hes : ∀ e ∈ es, e.scheduling) (hk : runFrom img es = .ok k) :
    ∃ Q, Tidy k Q ∧ NoFiles k := by
  obtain ⟨k0, hb, hr⟩ := bind_eq_ok.mp hk
  apply run_invariant hr hes ⟨_, tidy_boot hb, noFiles_boot hb⟩
  rintro k1 k2 e ⟨Q, ht, hn⟩ he hs
  have hni : ∀ a v, e = .sys (.semInit a v) → Q .sem = [] := by
    rintro a v rfl
    cases he
  exact ⟨_, tidy_step ht hni hs, noFiles_step hn ht.sound he hs⟩

/-! ### When a fork succeeds -/

/-- A fork returns, with a child from `free_list` and a new pid. -/
def ForkSucceeds (k : Kernel) : Prop :=
  ∃ k' c, forkAux k = .ok k' ∧ OnList k freeList c ∧ (k'.pcb c).state = .runnable ∧
    ∀ p ∈ procs, (k.pcb p).state ≠ .dead → c ≠ p ∧ (k'.pcb c).pid ≠ (k.pcb p).pid

/-- With a free PCB, `p_num` is the index of a PCB. -/
theorem Tidy.pNum_mem (h : Tidy k Q) (hq : Q .free ≠ []) (hc : k.current ≠ .idle) :
    Node.pcb k.pNum ∈ procs := by
  have hlen := List.length_pos_iff.mpr hq
  have hnum : k.pNum + (Q .free).length = 10 := by simpa using h.sound.placed.pNum
  have h8 := h.sound.placed.length_free_le hc
  exact pcb_mem_procs.mpr ⟨by omega, by omega⟩

/-- `pcb[p_num]` is free iff its index is nobody's pid. -/
theorem Tidy.free_pNum (h : Tidy k Q) (hq : Q .free ≠ []) (hc : k.current ≠ .idle) :
    Node.pcb k.pNum ∈ Q .free ↔ ∀ p ∈ procs, (k.pcb p).state ≠ .dead → (k.pcb p).pid ≠ k.pNum := by
  have hpid : ∀ i, Node.pcb i ∈ procs → (k.pcb (.pcb i)).state ≠ .dead → (k.pcb (.pcb i)).pid = i :=
    fun i hi hd => h.sound.placed.pid i hi fun hf => hd ((h.dead_iff hi).mpr hf)
  have hmem := h.pNum_mem hq hc
  constructor
  · intro hf p hp hd hpe
    obtain ⟨i, -, -, rfl⟩ := mem_procs.mp hp
    rw [hpid i hp hd] at hpe
    subst hpe
    exact hd ((h.dead_iff hp).mpr hf)
  · intro hall
    apply (h.dead_iff hmem).mp
    by_contra hd
    exact hall _ hmem hd (hpid _ hmem hd)

/-- The free list has a member if its head points somewhere. -/
theorem Tidy.free_ne_nil (h : Tidy k Q) (hfree : (k.next freeList).isSome) : Q .free ≠ [] := by
  intro hq
  rw [show k.next freeList = _ from h.sound.placed.lists.next_head .free, hq] at hfree
  cases hfree

/-- Without open files a fork fails only by the `PCB` that it picks. -/
theorem Tidy.forkSucceeds_iff (h : Tidy k Q) (hn : NoFiles k) (hu : userMode k) (hq : Q .free ≠ []) :
    ForkSucceeds k ↔ Node.pcb k.pNum ∈ Q .free := by
  have hplaced := h.sound.placed
  constructor
  · rintro ⟨k', -, hf, -⟩
    exact (forkAux_placed hplaced hf).1
  · intro hmem
    obtain ⟨k', hf⟩ := forkAux_ok hplaced hmem fun j hj =>
      .inl (hn _ (hplaced.current_mem hu.1) j hj)
    obtain ⟨-, -, -, nx, rfl⟩ := forkAux_placed hplaced hf
    have hchild : ((forked k).relink nx).pcb (.pcb k.pNum) =
        { childPcb k with next := nx (.pcb k.pNum) } := by
      rw [Kernel.relink_pcb, forked_pcb, if_pos rfl]
    refine ⟨_, .pcb k.pNum, hf, ⟨Q .free, hplaced.lists.rep.chain .free, hmem⟩, ?_, ?_⟩
    · rw [hchild]
      rfl
    · intro p hp hd
      constructor
      · rintro rfl
        exact hd ((h.dead_iff hp).mpr hmem)
      · rw [hchild]
        exact ((h.free_pNum hq hu.1).mp hmem p hp hd).symm

/-- **A fork succeeds with a free PCB** iff `p_num`, one more than the number of live processes, is
not the pid of a live process. -/
theorem fork_succeeds_iff (hes : ∀ e ∈ es, e.scheduling) (hk : runFrom img es = .ok k)
    (hu : userMode k) (hfree : (k.next freeList).isSome) :
    ForkSucceeds k ↔ ∀ p ∈ procs, (k.pcb p).state ≠ .dead → (k.pcb p).pid ≠ k.pNum := by
  obtain ⟨Q, ht, hn⟩ := scheduling_run hes hk
  have hq := ht.free_ne_nil hfree
  rw [ht.forkSucceeds_iff hn hu hq]
  exact ht.free_pNum hq hu.1

/-- The child of the first fork exits before its parent forks again. -/
theorem fork_succeeds_iff_childExits :
    ∃ k, runFrom .blank (.replicate 10 .timer ++ [.sys .fork, .sys (.sleep 1), .sys .exit] ++
      .replicate 10 .timer) = .ok k ∧ ForkSucceeds k := by
  obtain ⟨k, hk, hp⟩ := okAnd_eq_true.mp (show okAnd (runFrom .blank (.replicate 10 .timer ++
      [.sys .fork, .sys (.sleep 1), .sys .exit] ++ .replicate 10 .timer))
    (fun k => decide (userMode k ∧ (k.next freeList).isSome ∧
      ∀ p ∈ procs, (k.pcb p).state ≠ .dead → (k.pcb p).pid ≠ k.pNum)) = true by decide +kernel)
  obtain ⟨hu, hfree, hpid⟩ := of_decide_eq_true hp
  exact ⟨k, hk, (fork_succeeds_iff (by decide) hk hu hfree).mpr hpid⟩

/-- The first process forks and exits: `p_num` is back at 2, the pid of the child, and the child's
own fork fails an assertion with eight PCBs free. -/
theorem fork_aborts :
    ∃ k, runFrom .blank (.replicate 10 .timer ++ [.sys .fork, .sys .exit]) = .ok k ∧ userMode k ∧
      (k.next freeList).isSome ∧ step k (.sys .fork) = .error .abort ∧ ¬ForkSucceeds k := by
  obtain ⟨k, hk, hp⟩ := okAnd_eq_true.mp (show okAnd (runFrom .blank (.replicate 10 .timer ++
      [.sys .fork, .sys .exit]))
    (fun k => decide (userMode k ∧ (k.next freeList).isSome) && match forkAux k with
      | .error .abort => true
      | _ => false) = true by decide +kernel)
  obtain ⟨hu, hf⟩ := Bool.and_eq_true_iff.mp hp
  obtain ⟨hu, hfree⟩ := of_decide_eq_true hu
  have habort : forkAux k = .error .abort := by
    split at hf
    · next h => exact h
    · cases hf
  refine ⟨k, hk, hu, hfree, ?_, ?_⟩
  · exact (if_pos hu).trans habort
  · rintro ⟨k', c, hc, -⟩
    rw [habort] at hc
    cases hc

/-! ### Exits in the right order -/

/-- A process exits only if its pid is the highest. -/
def lifo (k : Kernel) (e : Event) : Prop :=
  e = .sys .exit → ∀ p ∈ procs, (k.pcb p).state ≠ .dead → (k.pcb p).pid ≤ (k.pcb k.current).pid

/-- The free PCBs are the last ones. -/
def UpClosed (Q : Queues) : Prop :=
  ∀ i j, i < j → Node.pcb i ∈ Q .free → Node.pcb j ∈ procs → Node.pcb j ∈ Q .free

/-- The first of them is `pcb[p_num]`. -/
theorem UpClosed.mem_iff (hup : UpClosed Q) (h : Tidy k Q) {i : ℤ} (hi : Node.pcb i ∈ procs) :
    Node.pcb i ∈ Q .free ↔ k.pNum ≤ i := by
  have hnum : k.pNum + (Q .free).length = 10 := by simpa using h.sound.placed.pNum
  have hnd := h.sound.placed.lists.rep.nodup .free
  obtain ⟨h1, h9⟩ := pcb_mem_procs.mp hi
  -- the PCBs from an index on
  have hcard : ∀ a : ℤ, 1 ≤ a → a ≤ 10 →
      (((Finset.Icc a 9).image Node.pcb).card : ℤ) = 10 - a := by
    intro a ha1 ha
    rw [Finset.card_image_of_injective _ fun x y hxy => Node.pcb.inj hxy, Int.card_Icc]
    omega
  constructor
  · intro hf
    have hsub : (Finset.Icc i 9).image Node.pcb ⊆ (Q .free).toFinset := by
      intro p hp
      obtain ⟨j, hj, rfl⟩ := Finset.mem_image.mp hp
      obtain ⟨hij, hj9⟩ := Finset.mem_Icc.mp hj
      apply List.mem_toFinset.mpr
      rcases hij.eq_or_lt with rfl | hlt
      · exact hf
      · exact hup i j hlt hf (pcb_mem_procs.mpr ⟨by omega, hj9⟩)
    have hle := Finset.card_le_card hsub
    rw [List.toFinset_card_of_nodup hnd] at hle
    have hc := hcard i h1 (by omega)
    omega
  · intro hle
    by_contra hf
    have hsub : (Q .free).toFinset ⊆ (Finset.Icc (i + 1) 9).image Node.pcb := by
      intro p hp
      have hp := List.mem_toFinset.mp hp
      obtain ⟨j, -, hj9, rfl⟩ := mem_procs.mp (h.sound.placed.lists.procs .free p hp)
      refine Finset.mem_image.mpr ⟨j, Finset.mem_Icc.mpr ⟨?_, hj9⟩, rfl⟩
      by_contra hj
      rcases (show j ≤ i by omega).eq_or_lt with rfl | hlt
      · exact hf hp
      · exact hf (hup j i hlt hp hi)
    have hle := Finset.card_le_card hsub
    rw [List.toFinset_card_of_nodup hnd] at hle
    have hc := hcard (i + 1) (by omega) (by omega)
    omega

/-- At the start the free elements are those behind the first. -/
theorem upClosed_start : UpClosed startQueues := by
  intro i j hij hi hj
  rcases mem_startQueues _ hj with hj1 | hj
  · obtain rfl := Node.pcb.inj hj1
    obtain ⟨n, -, hn⟩ := mem_firstPcbs.mp
      (List.mem_of_mem_tail (show _ ∈ (firstPcbs 9).tail from hi))
    have hn := Node.pcb.inj hn
    omega
  · exact hj

/-- Exits in the right order keep the free PCBs the last ones. -/
theorem UpClosed.step (hup : UpClosed Q) (h : Tidy k Q) (hl : lifo k e) (hk : step k e = .ok k') :
    UpClosed (stepQueues k Q e) := by
  intro i j hij hi hj
  have hproc : Node.pcb i ∈ procs := (sound_step h.sound hk).1.placed.lists.procs .free _ hi
  by_cases hf : e = .sys .fork
  · subst hf
    have hfree : ∀ p, p ∈ stepQueues k Q (.sys .fork) .free ↔ p ≠ .pcb k.pNum ∧ p ∈ Q .free := by
      intro p
      simp only [stepQueues, forkQueues]
      rw [Queues.push_of_ne _ _ (by simp), Function.update_self]
      exact (h.sound.placed.lists.rep.nodup .free).mem_erase_iff
    obtain ⟨hne, hi⟩ := (hfree _).mp hi
    have hle := (hup.mem_iff h hproc).mp hi
    refine (hfree _).mpr ⟨?_, hup i j hij hi hj⟩
    rintro hje
    have hje := Node.pcb.inj hje
    omega
  · rcases of_mem_stepQueues_free hi with hi | ⟨rfl, hic⟩
    · exact mem_stepQueues_free hf (hup i j hij hi hj)
    · -- the process that exits has the highest pid of all
      apply mem_stepQueues_free hf
      apply (h.dead_iff hj).mp
      by_contra hd
      have hpid : ∀ a, Node.pcb a ∈ procs → (k.pcb (.pcb a)).state ≠ .dead →
          (k.pcb (.pcb a)).pid = a :=
        fun a ha hd => h.sound.placed.pid a ha fun hf => hd ((h.dead_iff ha).mpr hf)
      have hle := hl rfl _ hj hd
      have hcd : (k.pcb (.pcb i)).state ≠ .dead := by
        rw [hic, h.sound.placed.curState]
        simp
      rw [hpid j hj hd, ← hic, hpid i hproc hcd] at hle
      omega

/-- **As long as the process with the highest pid exits first**, every fork with a free PCB
succeeds. -/
theorem fork_succeeds_of_lifo {k0 : Kernel} (hb : boot img = .ok k0)
    (hr : Reaches step (fun k e => e.scheduling ∧ lifo k e) k0 es k) (hu : userMode k)
    (hfree : (k.next freeList).isSome) : ForkSucceeds k := by
  obtain ⟨Q, ht, hn, hup⟩ := hr.invariant (P := fun _ k => ∃ Q, Tidy k Q ∧ NoFiles k ∧ UpClosed Q)
    ⟨_, tidy_boot hb, noFiles_boot hb, upClosed_start⟩ fun _ k1 _ e _ ⟨Q, ht, hn, hup⟩ ho hs =>
      ⟨_, tidy_step ht (by rintro a v rfl; cases ho.1) hs, noFiles_step hn ht.sound ho.1 hs,
        hup.step ht ho.2 hs⟩
  have hq := ht.free_ne_nil hfree
  apply (ht.forkSucceeds_iff hn hu hq).mpr
  exact (hup.mem_iff ht (ht.pNum_mem hq hu.1)).mpr le_rfl

end OsLab
