import OsLab.Scheduler.Steps

/-!
# What `fork_aux` does

`fork_aux` moves one PCB from `free_list` to `runnable_list`; everything else it does is in
`forked`, the kernel after the call with the lists left aside.

* The child is `pcb[p_num]`. If that PCB is not free the assertion of `list_delete` fails, so a call
  that returns found it free (`forkAux_placed`).
* The descriptor loop is `addLinks` on `sysFileTable`; it also shows that every descriptor the
  caller holds is an index into the table.
* The frame of the child is that of the caller but for `eax` and the segment selectors
  (`forkFrame`).
-/

namespace OsLab

open OsLab.Lib

variable {k k' : Kernel} {Q : Queues}

/-! ### The descriptors -/

/-- The reference counts once the first `n` of the descriptors `fp` are held twice. -/
def addLinks (fp : ℕ → ℤ) : ℕ → (ℕ → SysFile) → ℕ → SysFile
  | 0, t => t
  | i + 1, t =>
    if fp i ≠ -1 then
      Function.update (addLinks fp i t) (fp i).toNat
        { addLinks fp i t (fp i).toNat with
          linkNum := i32 ((addLinks fp i t (fp i).toNat).linkNum + 1) }
    else addLinks fp i t

/-- A descriptor is unused or refers to a slot of `sysFileTable`. -/
def ValidSlot (s : ℤ) : Prop := s = -1 ∨ 0 ≤ s ∧ s < MAX_SYS_FILE_NUM

/-- The kernel after the descriptor loop of `fork_aux`. -/
def filesCopied (child : Node) (fp : ℕ → ℤ) (n : ℕ) (k : Kernel) : Kernel :=
  { k.setPcb child fun c =>
      { c with filepointer := fun j => if j < n then fp j else c.filepointer j } with
    sysFileTable := addLinks fp n k.sysFileTable }

/-- The loop over the descriptors, when it returns, has met valid slots only. -/
theorem copyFiles_eq {child : Node} (hc : child ≠ k.current) {fp : ℕ → ℤ}
    (hfp : (k.pcb k.current).filepointer = fp) {n : ℕ} (hk : copyFiles child n k = .ok k') :
    k' = filesCopied child fp n k ∧ ∀ j < n, ValidSlot (fp j) := by
  induction n generalizing k' with
  | zero =>
    obtain rfl : k = k' := by simpa [copyFiles] using hk
    exact ⟨by simp [filesCopied, addLinks, Kernel.setPcb], by simp⟩
  | succ i ih =>
    obtain ⟨k1, h1, hk⟩ := bind_eq_ok.mp hk
    obtain ⟨rfl, hvalid⟩ := ih h1
    have hcur : ((filesCopied child fp i k).pcb k.current).filepointer = fp := by
      simp [filesCopied, hc.symm, hfp]
    have hupd : ∀ c : ℕ → ℤ, Function.update (fun j => if j < i then fp j else c j) i (fp i) =
        fun j => if j < i + 1 then fp j else c j := by
      intro c
      funext j
      rcases Nat.lt_trichotomy j i with h | rfl | h
      · simp [h, h.ne, Nat.lt_succ_of_lt h]
      · simp
      · rw [Function.update_of_ne h.ne', if_neg (by omega), if_neg (by omega)]
    simp only [show (filesCopied child fp i k).current = k.current from rfl, hcur] at hk
    have hlt : ∀ j < i + 1, j < i ∨ j = i := fun j => Nat.lt_succ_iff_lt_or_eq.mp
    by_cases hs : fp i = -1
    · simp only [hs, ne_eq, not_true_eq_false, if_false, Except.ok.injEq] at hk
      refine ⟨?_, fun j hj => (hlt j hj).elim (hvalid j) fun he => .inl (he ▸ hs)⟩
      rw [← hk]
      simp only [filesCopied, ← hupd, addLinks, hs]
      simp [Kernel.setPcb]
    · simp only [ne_eq, hs, not_false_eq_true, if_true] at hk
      split_ifs at hk with hr
      refine ⟨?_, fun j hj => (hlt j hj).elim (hvalid j) fun he => .inr (he ▸ hr)⟩
      rw [← Except.ok.inj hk]
      simp only [filesCopied, ← hupd, addLinks]
      simp [Kernel.setPcb, Kernel.setFile, hs]

/-! ### The frame -/

/-- The trap frame of the child. -/
def forkFrame (k : Kernel) : TfField → UInt32
  | .eax => 0
  | .cs => USEL SEG_UCODE2
  | .ds | .es | .ss | .fs => USEL SEG_UDATA2
  | .gs => KSEL SEG_KDISPLAY
  | f => k.tf k.current f

/-- A field of a trap frame is set, all others stay. -/
theorem setTf_tf (k : Kernel) (p q : Node) (f g : TfField) (w : UInt32) :
    (k.setTf p f w).tf q g = if q = p ∧ g = f then w else k.tf q g := by
  by_cases hq : q = p
  · subst hq
    by_cases hg : g = f
    · subst hg; simp [Kernel.tf]
    · have hidx : g.idx ≠ f.idx := fun h => hg (TfField.idx_inj.mp h)
      simp [Kernel.tf, hg, hidx]
  · simp [Kernel.tf, hq]

/-- The copy of the frame goes to the child only. -/
theorem copyFrame_kmem_of_ne {child p : Node} (h : p ≠ child) (o : ℕ) :
    (copyFrame child k).kmem p o = k.kmem p o := by
  simp [copyFrame, h]

/-- The child's frame is the caller's, with the child's own segments and `eax`. -/
theorem copyFrame_tf {child : Node} (h : child ≠ k.current) (f : TfField) :
    (copyFrame child k).tf child f = forkFrame k f := by
  simp only [copyFrame, setTf_tf, Kernel.store_current, h.symm, false_and, if_false, true_and]
  cases f <;> rfl

/-- The kernel stack of the child is not touched. -/
theorem copyFrame_stack {child : Node} {o : ℕ} (ho : o < MAX_STACK_SIZE) :
    (copyFrame child k).kmem child o = k.kmem child o := by
  have hne : ∀ i, o ≠ MAX_STACK_SIZE + i := fun i => by omega
  simp [copyFrame, hne]

/-- What lies behind the frame is not copied. -/
theorem copyFrame_behind {child : Node} {o : ℕ} (ho : MAX_STACK_SIZE + TF_SIZE ≤ o) :
    (copyFrame child k).kmem child o = k.kmem child o := by
  have hne : ∀ f : TfField, o ≠ MAX_STACK_SIZE + f.idx := fun f => by
    have := f.idx_lt
    omega
  simp [copyFrame, hne]

/-- Only the trap frames and `current` matter for the copy. -/
theorem copyFrame_congr {child : Node} (hc : child ≠ k.current) (hm : k'.kmem = k.kmem)
    (hcur : k'.current = k.current) : (copyFrame child k').kmem = (copyFrame child k).kmem := by
  funext p o
  by_cases hp : p = child
  · subst hp
    by_cases ho : o < MAX_STACK_SIZE
    · rw [copyFrame_stack ho, copyFrame_stack ho, hm]
    · by_cases hf : o - MAX_STACK_SIZE < TF_SIZE
      · obtain ⟨f, hf⟩ := TfField.exists_idx hf
        obtain rfl : o = MAX_STACK_SIZE + f.idx := by omega
        have htf : k'.tf = k.tf := by unfold Kernel.tf; rw [hm]
        have := copyFrame_tf (k := k') (hcur ▸ hc) f
        rw [show forkFrame k' = forkFrame k by unfold forkFrame; rw [htf, hcur],
          ← copyFrame_tf hc f] at this
        exact this
      · rw [copyFrame_behind (by omega), copyFrame_behind (by omega), hm]
  · rw [copyFrame_kmem_of_ne hp, copyFrame_kmem_of_ne hp, hm]

/-- The copy of the frame changes the memory of the `PCB` objects only. -/
theorem onlyKmem_copyFrame (child : Node) (k : Kernel) : OnlyKmem k (copyFrame child k) := by
  unfold copyFrame
  iterate 19 refine OnlyKmem.store ?_ _ _
  rfl

/-- The copy depends on the memory of the `PCB` objects only. -/
theorem copyFrame_eq {child : Node} (hc : child ≠ k.current) (hm : k'.kmem = k.kmem)
    (hcur : k'.current = k.current) :
    copyFrame child k' = { k' with kmem := (copyFrame child k).kmem } := by
  rw [← copyFrame_congr hc hm hcur]
  exact onlyKmem_copyFrame child k'

/-! ### The whole call -/

/-- The PCB of the child. -/
def childPcb (k : Kernel) : PCB :=
  { k.pcb (.pcb k.pNum) with
    fpNum := (k.pcb k.current).fpNum
    filepointer := fun j =>
      if j < MAX_FP_NUM then (k.pcb k.current).filepointer j
      else (k.pcb (.pcb k.pNum)).filepointer j
    pid := k.pNum
    state := .runnable
    timeCount := 10
    sleepTime := 0
    psem := (k.pcb k.current).psem
    ppid := (k.pcb k.current).pid }

/-- The kernel after `fork_aux`, its lists aside. -/
def forked (k : Kernel) : Kernel :=
  { k with
    kmem := ({ k with kmem := (copyFrame (.pcb k.pNum) k).kmem }.setEax k.pNum).kmem
    pcb := Function.update k.pcb (.pcb k.pNum) (childPcb k)
    sysFileTable := addLinks (k.pcb k.current).filepointer MAX_FP_NUM k.sysFileTable
    mem := copyBytes k.mem IMAGE_SIZE
    sem := copySems k.sem
    pNum := k.pNum + 1 }

/-- The queues after `fork_aux`. -/
def forkQueues (k : Kernel) (Q : Queues) : Queues :=
  Queues.push (Function.update Q .free ((Q .free).erase (.pcb k.pNum))) .runnable (.pcb k.pNum)

/-- A fork fills one `PCB`. -/
theorem forked_pcb (k : Kernel) (p : Node) :
    (forked k).pcb p = if p = .pcb k.pNum then childPcb k else k.pcb p := by
  by_cases hp : p = .pcb k.pNum
  · subst hp; simp [forked]
  · simp [forked, hp]

/-- After a fork the runnable queue has the child in addition. -/
theorem mem_forkQueues {i : QName} {p : Node} (hp : p ∈ forkQueues k Q i) :
    p ∈ Q i ∨ i = .runnable ∧ p = .pcb k.pNum := by
  refine (Queues.mem_push.mp hp).imp (fun hp => ?_) id
  by_cases hif : i = .free
  · subst hif
    rw [Function.update_self] at hp
    exact List.mem_of_mem_erase hp
  · rwa [Function.update_of_ne hif] at hp

/-- The places after a fork. -/
theorem Placed.fork (h : Placed k Q .running) (hfree : Node.pcb k.pNum ∈ Q .free)
    {nx : Node → Option Node} (hh : Holds ((forked k).relink nx) (forkQueues k Q)) :
    Placed ((forked k).relink nx) (forkQueues k Q) .running := by
  have hc : k.current ≠ .pcb k.pNum := (h.ne_current hfree).symm
  have hchild : Node.pcb k.pNum ∈ forkQueues k Q .runnable := Queues.mem_push.mpr (.inr ⟨rfl, rfl⟩)
  have hcur : ((forked k).relink nx).current = k.current := rfl
  refine ⟨hh, h.current, fun i hi => ?_, fun i p hp => ?_, ?_, fun i hi hf => ?_, ?_⟩
  · rcases mem_forkQueues hi with hi | ⟨-, hi⟩
    · exact h.apart i hi
    · exact hc hi
  · rw [Kernel.relink_pcb, forked_pcb]
    by_cases hpc : p = .pcb k.pNum
    · subst hpc
      rw [if_pos rfl, hh.rep.disjoint i .runnable _ hp hchild]
      rfl
    · rw [if_neg hpc]
      exact h.state i p ((mem_forkQueues hp).resolve_right fun hr => hpc hr.2)
  · rw [Kernel.relink_pcb, forked_pcb, hcur, if_neg hc]
    exact h.curState
  · rw [Kernel.relink_pcb, forked_pcb]
    by_cases hic : Node.pcb i = .pcb k.pNum
    · rw [if_pos hic]
      exact (Node.pcb.inj hic).symm
    · rw [if_neg hic]
      refine h.pid i hi fun hm => hf (Queues.mem_push.mpr (.inl ?_))
      rw [Function.update_self]
      exact (List.mem_erase_of_ne hic).mpr hm
  · have hlen : ((Q .free).erase (.pcb k.pNum)).length = (Q .free).length - 1 :=
      List.length_erase_of_mem hfree
    have hpos : 0 < (Q .free).length := List.length_pos_of_mem hfree
    have hnum : k.pNum + (Q .free).length = 10 := by simpa using h.pNum
    have hnum' : ((forked k).relink nx).pNum = k.pNum + 1 := rfl
    rw [forkQueues, Queues.push_of_ne _ _ (by simp), Function.update_self, hlen, hnum', if_neg (by simp)]
    omega

/-- **`fork_aux`** that returns found `pcb[p_num]` free, and leaves it at the end of the runnable
processes. -/
theorem forkAux_placed (h : Placed k Q .running) (hk : forkAux k = .ok k') :
    Node.pcb k.pNum ∈ Q .free ∧ (∀ j < MAX_FP_NUM, ValidSlot ((k.pcb k.current).filepointer j)) ∧
      Placed k' (forkQueues k Q) .running ∧ ∃ nx, k' = (forked k).relink nx := by
  set child := Node.pcb k.pNum with hchild
  obtain ⟨k1, h1, hk⟩ := bind_eq_ok.mp hk
  have hfree : child ∈ Q .free := mem_of_listDelete h.lists .free h1
  have hc : child ≠ k.current := h.ne_current hfree
  obtain ⟨nx1, h1', hh1⟩ := listDelete_eq h.lists .free hfree
  obtain rfl : k.relink nx1 = k1 := Except.ok.inj (h1'.symm.trans h1)
  obtain ⟨k2, h2, hk⟩ := bind_eq_ok.mp hk
  obtain ⟨rfl, hvalid⟩ := copyFiles_eq (by exact hc)
    (show _ = (k.pcb k.current).filepointer by simp [Kernel.relink_pcb, ← hchild, hc.symm]) h2
  obtain ⟨k3, h3, hk⟩ := bind_eq_ok.mp hk
  -- the kernel before the last `list_add`, in closed form
  have h3' : listAdd runnableList child (({ forked k with pNum := k.pNum } : Kernel).relink nx1) =
      .ok k3 := by
    rw [← h3]
    rw [copyFrame_eq hc ?_ ?_]
    rotate_left
    · rfl
    · rfl
    congr 1
    refine (Kernel.eq_of_pcb _ rfl fun p => ?_).symm
    by_cases hp : p = child
    · subst hp; simp [forked, childPcb, filesCopied, Kernel.relink_pcb, hc.symm, ← hchild]
    · simp [forked, filesCopied, Kernel.relink_pcb, hp, ← hchild]
  have hapart : ∀ j, child ∉ Function.update Q .free ((Q .free).erase child) j := by
    intro j hj
    by_cases hjf : j = .free
    · subst hjf
      rw [Function.update_self] at hj
      exact (h.lists.rep.nodup .free).not_mem_erase hj
    · rw [Function.update_of_ne hjf] at hj
      exact hjf (h.lists.rep.disjoint j .free child hj hfree)
  have hh1' : Holds (({ forked k with pNum := k.pNum } : Kernel).relink nx1)
      (Function.update Q .free ((Q .free).erase child)) := hh1.congr rfl
  obtain ⟨nx2, h2', hh2⟩ := listAdd_eq hh1' .runnable hapart (h.lists.procs _ child hfree)
  obtain rfl := Except.ok.inj (h2'.symm.trans h3')
  obtain rfl := Except.ok.inj hk
  exact ⟨hfree, hvalid, h.fork hfree (hh2.congr rfl), nx2, rfl⟩

/-- **Nobody is lost** by a fork. -/
theorem Complete.fork {cur : Node} (h : Complete cur Q) : Complete cur (forkQueues k Q) := by
  intro p hp
  refine (h p hp).imp id fun ⟨i, hi⟩ => ?_
  by_cases hpc : p = .pcb k.pNum
  · exact ⟨.runnable, Queues.mem_push.mpr (.inr ⟨rfl, hpc⟩)⟩
  · refine ⟨i, Queues.mem_push.mpr (.inl ?_)⟩
    by_cases hif : i = .free
    · subst hif
      rw [Function.update_self]
      exact (List.mem_erase_of_ne hpc).mpr hi
    · rwa [Function.update_of_ne hif]

end OsLab
