import OsLab.Scheduler.Fork

/-!
# The state after start-up

`initPcb` puts `pcb[1..9]` on `free_list`, `preparePCB` moves the first of them to `runnable_list`.
`started` is the kernel that results, with its lists left aside; `boot_eq` says that `boot` does not
fail and ends there. Every run starts from it.
-/

namespace OsLab

open OsLab.Lib

variable {k k' : Kernel} {Q : Queues}

/-- `pcb[1..n]`. -/
def firstPcbs (n : ℕ) : List Node := (List.range n).map fun i : ℕ => .pcb ((i : ℤ) + 1)

/-- The first `PCB` objects. -/
theorem mem_firstPcbs {n : ℕ} {p : Node} :
    p ∈ firstPcbs n ↔ ∃ i : ℕ, i < n ∧ p = .pcb (i + 1) := by
  simp [firstPcbs, eq_comm]

/-- One more. -/
theorem firstPcbs_succ (n : ℕ) : firstPcbs (n + 1) = firstPcbs n ++ [.pcb (n + 1)] := by
  simp [firstPcbs, List.range_succ]

/-- A PCB on `free_list` as `initPcb` leaves it. -/
def freePcb (c : PCB) : PCB :=
  { c with
    pid := -1
    ppid := -1
    state := .dead
    sleepTime := 0
    timeCount := 0
    psem := none
    fpNum := 3
    filepointer := fun j => if j < MAX_FP_NUM then -1 else c.filepointer j }

/-- The kernel after the loop of `initPcb`, its lists aside. -/
def initAll (n : ℕ) (k : Kernel) : Kernel :=
  { k with pcb := fun p => if p ∈ firstPcbs n then freePcb (k.pcb p) else k.pcb p }

/-- All lists empty but the one of the free processes. -/
def freeQueues (n : ℕ) : Queues := Function.update (fun _ => []) .free (firstPcbs n)

/-- The loop of `initPcb` puts one `PCB` after another on the free list. -/
theorem initPcbLoop_eq {n : ℕ} (hn : n ≤ 9) (h : Holds k (freeQueues 0)) :
    ∃ nx, initPcbLoop n k = .ok ((initAll n k).relink nx) ∧
      Holds ((initAll n k).relink nx) (freeQueues n) := by
  induction n with
  | zero => exact ⟨k.next, by simp [initPcbLoop, initAll, firstPcbs], by simpa [initAll, firstPcbs] using h⟩
  | succ i ih =>
    obtain ⟨nx, hrun, hh⟩ := ih (by omega)
    set p := Node.pcb (i + 1) with hp
    set k1 := ((initAll i k).setPcb p freePcb).relink nx with hk1
    have hh1 : Holds k1 (freeQueues i) := hh.congr rfl
    have hnew : ∀ j, p ∉ freeQueues i j := by
      intro j hj
      by_cases hjf : j = .free
      · subst hjf
        rw [freeQueues, Function.update_self] at hj
        obtain ⟨m, hm, he⟩ := mem_firstPcbs.mp hj
        have := Node.pcb.inj he
        omega
      · rw [freeQueues, Function.update_of_ne hjf] at hj
        cases hj
    obtain ⟨nx', hadd, hh'⟩ := listAdd_eq hh1 .free hnew (pcb_mem_procs.mpr (by omega))
    have hker : (k1.relink nx') = (initAll (i + 1) k).relink nx' := by
      refine Kernel.eq_of_pcb _ rfl fun q => ?_
      have hnp : p ∉ firstPcbs i := by simpa [freeQueues] using hnew .free
      by_cases hq : q = p
      · subst hq; simp [hk1, initAll, Kernel.relink_pcb, firstPcbs_succ, hnp, ← hp]
      · simp [hk1, initAll, Kernel.relink_pcb, firstPcbs_succ, hq, ← hp]
    have hQ : Function.update (freeQueues i) .free (freeQueues i .free ++ [p]) =
        freeQueues (i + 1) := by
      simp [freeQueues, firstPcbs_succ, ← hp]
    rw [hker] at hadd hh'
    refine ⟨nx', ?_, hQ ▸ hh'⟩
    rw [initPcbLoop, hrun, ok_bind, ← hadd]
    exact congrArg (listAdd _ p) (Kernel.setPcb_relink (initAll i k) nx p freePcb fun _ _ => rfl)

/-! ### `initPcb` and `preparePCB` -/

/-- The first process. -/
def firstPcb : PCB := { freePcb PCB.zero with pid := 1, state := .runnable, timeCount := 10 }

/-- The kernel after start-up, its lists aside. -/
def started (img : Image) : Kernel :=
  { initScreen (Kernel.bss img) with
    pcb := fun p =>
      if p = .pcb 1 then firstPcb
      else if p ∈ firstPcbs 9 then freePcb PCB.zero
      else if p = .idle then { PCB.zero with state := .running, timeCount := 10 }
      else PCB.zero
    kmem := (startFrame (.pcb 1) img.entry (Kernel.bss img)).kmem
    sysFileTable := fun i => if i < MAX_SYS_FILE_NUM then ⟨-1, 0, 0⟩ else ⟨0, 0, 0⟩
    pNum := 2 }

/-- The queues after start-up. -/
def startQueues : Queues
  | .runnable => [.pcb 1]
  | .free => (firstPcbs 9).tail
  | _ => []

/-- The frame of a new process is in the memory of the `PCB` objects. -/
theorem onlyKmem_startFrame (p : Node) (entry : UInt32) (k : Kernel) :
    OnlyKmem k (startFrame p entry k) := by
  unfold startFrame
  iterate 9 refine OnlyKmem.store ?_ _ _
  rfl

/-- The frame depends on the memory of the `PCB` objects only. -/
theorem startFrame_eq {p : Node} {entry : UInt32} (hm : k'.kmem = k.kmem) :
    startFrame p entry k' = { k' with kmem := (startFrame p entry k).kmem } := by
  have hk : (startFrame p entry k').kmem = (startFrame p entry k).kmem := by
    simp only [startFrame, Kernel.kmem_store, hm]
  rw [← hk]
  exact onlyKmem_startFrame p entry k'

/-- The kernel after `initPcb`, its lists aside. -/
def pcbsInited (img : Image) : Kernel :=
  { Kernel.bss img with
    pcb := fun p =>
      if p ∈ firstPcbs 9 then freePcb PCB.zero
      else if p = .idle then { PCB.zero with state := .running, timeCount := 10 }
      else PCB.zero
    sysFileTable := fun i => if i < MAX_SYS_FILE_NUM then ⟨-1, 0, 0⟩ else ⟨0, 0, 0⟩
    pNum := 1 }

/-- `initPcb` on the kernel's zeroed data. -/
theorem initPcb_eq (img : Image) :
    ∃ nx, initPcb (Kernel.bss img) = .ok ((pcbsInited img).relink nx) ∧
      Holds ((pcbsInited img).relink nx) (freeQueues 9) := by
  set k0 : Kernel := { Kernel.bss img with
    sysFileTable := fun i => if i < MAX_SYS_FILE_NUM then ⟨-1, 0, 0⟩ else ⟨0, 0, 0⟩
    pNum := 1 } with hk0
  have hempty : freeQueues 0 = fun _ => [] := by
    funext i
    cases i <;> rfl
  have hinj : Function.Injective QName.head := by
    intro i j
    cases i <;> cases j <;> simp [QName.head]
  have h0 : Holds k0 (freeQueues 0) := by
    rw [hempty]
    exact ⟨⟨fun _ => rfl, by simp, hinj, by simp, by simp⟩, by simp⟩
  obtain ⟨nx, hrun, hh⟩ := initPcbLoop_eq (le_refl 9) h0
  have hset : ∀ (k : Kernel) (d : Node), (k.pcb d).next = none → k.setNext d none = k :=
    fun k d h => k.setPcb_eq_self (by rw [← h])
  have hidle : Node.idle ∉ firstPcbs 9 := by decide
  refine ⟨nx, ?_, hh.congr rfl⟩
  simp only [initPcb]
  rw [hset _ _ rfl, hset _ _ rfl, hset _ _ rfl]
  change (initPcbLoop 9 k0 >>= fun k => Except.ok
    { k.setPcb .idle fun c =>
        { c with pid := 0, state := .running, timeCount := 10, sleepTime := 0, psem := none } with
      current := .idle }) = _
  rw [hrun, ok_bind]
  refine congrArg Except.ok (Kernel.eq_of_pcb _ rfl fun p => ?_)
  by_cases hp : p = .idle
  · subst hp; simp [pcbsInited, initAll, Kernel.relink_pcb, hidle, hk0, Kernel.bss, PCB.zero]
  · simp [pcbsInited, initAll, Kernel.relink_pcb, hp, hk0, Kernel.bss]

/-- **Start-up** does not fail: it leaves the first process ready and the others free. -/
theorem boot_eq (img : Image) :
    ∃ nx, boot img = .ok ((started img).relink nx) ∧
      Holds ((started img).relink nx) startQueues := by
  obtain ⟨nx, hinit, hh⟩ := initPcb_eq img
  have h1 : Node.pcb 1 ∈ freeQueues 9 .free := by decide
  have hh0 : Holds (initScreen ((pcbsInited img).relink nx)) (freeQueues 9) := hh.congr rfl
  obtain ⟨nx1, hdel, hh1⟩ := listDelete_eq hh0 .free h1
  have hfree : ∀ j, Node.pcb 1 ∉ Function.update (freeQueues 9) .free
      ((freeQueues 9 .free).erase (.pcb 1)) j := by
    intro j
    cases j <;> decide
  have hh1' : Holds (({ started img with pNum := 1 } : Kernel).relink nx1)
      (Function.update (freeQueues 9) .free ((freeQueues 9 .free).erase (.pcb 1))) := hh1.congr rfl
  obtain ⟨nx2, hadd, hh2⟩ := listAdd_eq hh1' .runnable hfree (by decide)
  have hQ : Function.update (Function.update (freeQueues 9) .free
      ((freeQueues 9 .free).erase (.pcb 1))) .runnable
      (Function.update (freeQueues 9) .free ((freeQueues 9 .free).erase (.pcb 1)) .runnable ++
        [.pcb 1]) = startQueues := by
    funext i
    cases i <;> decide
  rw [hQ] at hh2
  have hhead := listHead_eq hh2 .runnable
  refine ⟨nx2, ?_, hh2.congr rfl⟩
  rw [boot, hinit, ok_bind]
  change (listDelete freeList (.pcb 1) (initScreen ((pcbsInited img).relink nx)) >>= fun k =>
    listAdd runnableList (.pcb 1) (startFrame (.pcb 1) img.entry (k.setPcb (.pcb 1) fun c =>
      { c with pid := k.pNum, ppid := -1, state := .runnable, timeCount := 10, sleepTime := 0 })) >>=
    fun k => listHead runnableList k >>= fun q => assert ((k.pcb q).pid = 1) >>= fun _ =>
    Except.ok { k with pNum := k.pNum + 1 }) = _
  set k1 := (initScreen ((pcbsInited img).relink nx)).relink nx1 with hk1
  have hker : startFrame (.pcb 1) img.entry (k1.setPcb (.pcb 1) fun c =>
        { c with pid := k1.pNum, ppid := -1, state := .runnable, timeCount := 10, sleepTime := 0 }) =
      ({ started img with pNum := 1 } : Kernel).relink nx1 := by
    refine (startFrame_eq (k := Kernel.bss img) ?_).trans ?_
    · rfl
    have hmem : Node.pcb 1 ∈ firstPcbs 9 := by decide
    refine Kernel.eq_of_pcb _ rfl fun p => ?_
    by_cases hp : p = .pcb 1
    · subst hp
      simp [hk1, started, pcbsInited, initScreen, Kernel.relink_pcb, hmem, firstPcb, freePcb]
    · simp [hk1, started, pcbsInited, initScreen, Kernel.relink_pcb, hp]
  rw [show listDelete freeList (.pcb 1) _ = _ from hdel, ok_bind]
  rw [hker]
  rw [show listAdd runnableList (.pcb 1) _ = _ from hadd, ok_bind]
  rw [show listHead runnableList _ = _ from hhead]
  rfl

/-- After start-up a process is the first one or free. -/
theorem mem_startQueues : ∀ p ∈ procs, p = .pcb 1 ∨ p ∈ startQueues .free := by decide

/-- The process table after start-up: `idle` has the CPU. -/
theorem placed_boot {img : Image} (hb : boot img = .ok k) :
    Placed k startQueues .running ∧ ∃ nx, k = (started img).relink nx := by
  obtain ⟨nx, hrun, hh⟩ := boot_eq img
  obtain rfl := Except.ok.inj (hrun.symm.trans hb)
  have hlist : ∀ i, ∀ p ∈ startQueues i, ((started img).pcb p).state = i.state := by
    intro i
    cases i <;>
      simp [startQueues, started, firstPcbs, List.range_succ, firstPcb, freePcb, QName.state]
  have hidle : ∀ i, Node.idle ∉ startQueues i := by
    intro i
    cases i <;> decide
  refine ⟨⟨hh, .inl rfl, hidle, hlist, rfl, fun i hi hf => ?_, rfl⟩, nx, rfl⟩
  obtain rfl : i = 1 := Node.pcb.inj ((mem_startQueues _ hi).resolve_right hf)
  rfl

/-- At the start every process is on a list. -/
theorem complete_start : Complete .idle startQueues := fun p hp =>
  .inr ((mem_startQueues p hp).elim (fun h => ⟨.runnable, by simp [startQueues, h]⟩)
    fun h => ⟨.free, h⟩)

end OsLab
