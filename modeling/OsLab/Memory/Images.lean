import OsLab.Scheduler.Sound

/-!
# Memory images and `fork_aux`

A process sees physical memory through the base of its data segment: the first process at base 0,
every child at base `0x200000` (the selector is the one in its trap frame; programs do not load
another). Its image is the range of logical addresses `0x200000` to `0x3FFFFF` (`image`), so there
are only two images, one for the first process and one for all children.

`fork_aux` copies the first onto the second, whoever calls it. `fork_copies_iff` says when that is a
copy of the caller that disturbs nobody: exactly when every live process, the caller among them,
uses the first image, or the two images happen to be equal. `fork_overwrites_sibling` is a run in
which it is not.
-/

namespace OsLab

open OsLab.Lib

variable {k k' : Kernel} {Q : Queues} {e : Event} {es : List Event} {img : Image}

/-! ### The copy -/

/-- What the copy of `fork_aux` leaves at an address. -/
theorem copyBytes_apply {mem : ℕ → UInt8} {n a : ℕ} (hn : n ≤ IMAGE_SIZE) :
    copyBytes mem n a =
      if IMAGE_DEST ≤ a ∧ a < IMAGE_DEST + n then mem (a - IMAGE_SIZE) else mem a := by
  induction n generalizing a with
  | zero => exact (if_neg (by omega)).symm
  | succ n ih =>
    have hlt : n + 1 ≤ 0x200000 := hn
    -- the source range ends where the destination begins, so it is never overwritten
    have hsrc : copyBytes mem n (IMAGE_SRC + n) = mem (IMAGE_SRC + n) := by
      rw [ih (by omega), if_neg]
      unfold IMAGE_DEST IMAGE_SRC
      omega
    unfold copyBytes
    by_cases ha : a = IMAGE_DEST + n
    · subst ha
      have hback : IMAGE_DEST + n - IMAGE_SIZE = IMAGE_SRC + n := by
        unfold IMAGE_DEST IMAGE_SRC IMAGE_SIZE
        omega
      rw [Function.update_self, hsrc, if_pos (by omega), hback]
    · rw [Function.update_of_ne ha, ih (by omega)]
      congr 1
      rw [eq_iff_iff]
      omega

/-- Everything at a physical address: the byte, and the words of the semaphores that lie there. -/
def cell (k : Kernel) (a : ℕ) : UInt8 × ℤ × Option Node :=
  (k.mem a, (k.sem a).value, (k.sem (a - 4)).list)

/-- The cells after a fork: the image of the children is the first image, all else is as before. -/
theorem cell_forked {a : ℕ} (ha : IMAGE_SRC ≤ a) (nx : Node → Option Node) :
    cell ((forked k).relink nx) a = if inDest a then cell k (a - IMAGE_SIZE) else cell k a := by
  have h4 : 0x200000 ≤ a := ha
  have hback : a - 4 + 4 = a := by omega
  have hcomm : a - 4 - IMAGE_SIZE = a - IMAGE_SIZE - 4 := by omega
  have hmem : ((forked k).relink nx).mem a = if inDest a then k.mem (a - IMAGE_SIZE) else k.mem a :=
    copyBytes_apply (le_refl _)
  unfold cell
  rw [hmem]
  change (_, (copySems k.sem a).value, (copySems k.sem (a - 4)).list) = _
  unfold copySems
  simp only [hback, hcomm]
  split_ifs <;> rfl

/-! ### Images -/

/-- What process `p` sees at position `i` of its image. -/
def image (k : Kernel) (p : Node) (i : ℕ) : UInt8 × ℤ × Option Node :=
  cell k (dataAddr p (IMAGE_SRC + i) k)

/-- A process that is not dead. -/
def alive (k : Kernel) (p : Node) : Prop := (k.pcb p).state ≠ .dead

/-- Whether a process is alive can be computed. -/
instance (k : Kernel) (p : Node) : Decidable (alive k p) := inferInstanceAs (Decidable (_ ≠ _))

/-- The data segment of `p` is the first process's. -/
def onFirstImage (k : Kernel) (p : Node) : Prop := segBase (k.tf p .ds) = 0

/-- Whether a process has the first image can be computed. -/
instance (k : Kernel) (p : Node) : Decidable (onFirstImage k p) :=
  inferInstanceAs (Decidable (_ = _))

/-- The child gets a copy of the image that the caller sees. -/
def CopiesCaller (k k' : Kernel) : Prop :=
  ∀ i < IMAGE_SIZE, image k' (.pcb k.pNum) i = image k k.current i

/-- The other live processes see the same as before. -/
def LeavesOthers (k k' : Kernel) : Prop :=
  ∀ q ∈ procs, alive k q → q ≠ k.current → ∀ i < IMAGE_SIZE, image k' q i = image k q i

/-- The two images hold the same. -/
def imagesEqual (k : Kernel) : Prop :=
  ∀ i < IMAGE_SIZE, cell k (IMAGE_SRC + i) = cell k (IMAGE_DEST + i)

/-- Every process uses one of the two images. -/
def Segmented (k : Kernel) : Prop :=
  ∀ p ∈ procs, onFirstImage k p ∨ segBase (k.tf p .ds) = Child_Data_Offst

/-- The image of the first process. -/
theorem image_of_first {p : Node} {i : ℕ} (h : onFirstImage k p) (hi : i < IMAGE_SIZE) :
    image k p i = cell k (IMAGE_SRC + i) := by
  have hlt : i < 0x200000 := hi
  unfold onFirstImage at h
  unfold image dataAddr
  rw [h]
  congr 1
  change (0 + (0x200000 + i)) % 2 ^ 32 = 0x200000 + i
  omega

/-- The image of a child. -/
theorem image_of_child {p : Node} {i : ℕ} (h : segBase (k.tf p .ds) = Child_Data_Offst)
    (hi : i < IMAGE_SIZE) : image k p i = cell k (IMAGE_DEST + i) := by
  have hlt : i < 0x200000 := hi
  unfold image dataAddr
  rw [h]
  congr 1
  change (0x200000 + (0x200000 + i)) % 2 ^ 32 = 0x400000 + i
  omega

/-- All data segments start at base 0. -/
theorem onFirstImage_boot (hb : boot img = .ok k) (p : Node) : onFirstImage k p := by
  obtain ⟨-, nx, rfl⟩ := placed_boot hb
  have htf : ((started img).relink nx).tf p .ds = if p = .pcb 1 then USEL SEG_UDATA1 else 0 := by
    change (startFrame (.pcb 1) img.entry (Kernel.bss img)).tf p .ds = _
    unfold startFrame
    simp only [setTf_tf]
    by_cases hp : p = .pcb 1
    · simp [hp]
    · simp [hp, Kernel.tf, Kernel.bss]
  unfold onFirstImage
  rw [htf]
  split_ifs <;> decide

/-- After start-up only the first process has segments. -/
theorem segmented_boot (hb : boot img = .ok k) : Segmented k :=
  fun p _ => .inl (onFirstImage_boot hb p)

/-- An event changes no field of a frame but `eax`, except that a fork fills the frame of its child. -/
theorem tf_of_step (h : Sound k Q) (hk : step k e = .ok k') {p : Node} {f : TfField}
    (hf : f ≠ .eax) (hc : e = .sys .fork → p ≠ .pcb k.pNum) : k'.tf p f = k.tf p f := by
  apply kmem_of_step h hk _ hc
  rintro ⟨-, ho⟩
  exact hf (TfField.idx_inj.mp (by omega))

/-- Every event keeps the segments. -/
theorem segmented_step (h : Sound k Q) (hs : Segmented k) (hk : step k e = .ok k') :
    Segmented k' := by
  intro p hp
  by_cases hc : e = .sys .fork → p ≠ .pcb k.pNum
  · unfold onFirstImage
    rw [tf_of_step h hk (by simp) hc]
    exact hs p hp
  · push Not at hc
    obtain ⟨rfl, rfl⟩ := hc
    simp only [step] at hk
    split_ifs at hk
    obtain ⟨hfree, -, -, nx, rfl⟩ := forkAux_placed h.placed hk
    right
    rw [tf_child_of_fork (h.placed.ne_current hfree), forkFrame]
    decide

/-- The segments are right in every state that is reached. -/
theorem segmented_run (hk : runFrom img es = .ok k) : ∃ Q, Sound k Q ∧ Segmented k := by
  apply runFrom_invariant hk
  · intro k hb
    exact ⟨_, sound_boot hb, segmented_boot hb⟩
  · rintro k k' e ⟨Q, hQ, hseg⟩ hs
    exact ⟨_, (sound_step hQ hs).1, segmented_step hQ hseg hs⟩

/-! ### When a fork copies the caller and disturbs nobody -/

/-- A fork that succeeds, with what it does to cells and data segments. -/
theorem fork_spec (h : Sound k Q) (hk : step k (.sys .fork) = .ok k') :
    userMode k ∧ Node.pcb k.pNum ∈ Q .free ∧
      (∀ a, IMAGE_SRC ≤ a → cell k' a = if inDest a then cell k (a - IMAGE_SIZE) else cell k a) ∧
      segBase (k'.tf (.pcb k.pNum) .ds) = Child_Data_Offst ∧
      ∀ q ≠ .pcb k.pNum, k'.tf q .ds = k.tf q .ds := by
  have hother : ∀ q ≠ .pcb k.pNum, k'.tf q .ds = k.tf q .ds := fun q hq =>
    tf_of_step h hk (by simp) fun _ => hq
  simp only [step] at hk
  split_ifs at hk with hu
  obtain ⟨hfree, -, -, nx, rfl⟩ := forkAux_placed h.placed hk
  refine ⟨hu, hfree, fun a ha => cell_forked ha nx, ?_, hother⟩
  rw [tf_child_of_fork (h.placed.ne_current hfree), forkFrame]
  decide

/-- The first image stays, and the second becomes equal to it. -/
theorem cells_of_fork (h : Sound k Q) (hk : step k (.sys .fork) = .ok k') {i : ℕ}
    (hi : i < IMAGE_SIZE) : cell k' (IMAGE_SRC + i) = cell k (IMAGE_SRC + i) ∧
      cell k' (IMAGE_DEST + i) = cell k (IMAGE_SRC + i) := by
  obtain ⟨-, -, hcell, -, -⟩ := fork_spec h hk
  have hlt : i < 0x200000 := hi
  have hback : IMAGE_DEST + i - IMAGE_SIZE = IMAGE_SRC + i := by
    unfold IMAGE_DEST IMAGE_SRC IMAGE_SIZE
    omega
  constructor
  · rw [hcell _ (Nat.le_add_right _ _), if_neg]
    unfold inDest IMAGE_DEST IMAGE_SRC
    omega
  · rw [hcell _ (by unfold IMAGE_DEST IMAGE_SRC; omega), if_pos, hback]
    unfold inDest
    omega

/-- The new child has what was in the first image. -/
theorem image_child_of_fork (h : Sound k Q) (hk : step k (.sys .fork) = .ok k') {i : ℕ}
    (hi : i < IMAGE_SIZE) : image k' (.pcb k.pNum) i = cell k (IMAGE_SRC + i) := by
  obtain ⟨-, -, -, hds, -⟩ := fork_spec h hk
  rw [image_of_child hds hi]
  exact (cells_of_fork h hk hi).2

section

variable (h : Sound k Q) (hs : Segmented k) (hk : step k (.sys .fork) = .ok k')
include h hs hk

/-- What the caller sees after the call is what the child sees. -/
theorem image_caller_of_fork {i : ℕ} (hi : i < IMAGE_SIZE) :
    image k' (.pcb k.pNum) i = image k' k.current i := by
  obtain ⟨hu, hfree, -, hds, hother⟩ := fork_spec h hk
  have hcells := cells_of_fork h hk hi
  have hne : k.current ≠ .pcb k.pNum := (h.placed.ne_current hfree).symm
  rw [image_child_of_fork h hk hi]
  rcases hs k.current (h.placed.current_mem hu.1) with hc | hc
  · have hc' : onFirstImage k' k.current := by
      unfold onFirstImage
      rwa [hother _ hne]
    rw [image_of_first hc' hi, hcells.1]
  · rw [image_of_child (by rwa [hother _ hne]) hi, hcells.2]

/-- The caller is copied if its image is the first one or both images are equal. -/
theorem copiesCaller_iff : CopiesCaller k k' ↔ imagesEqual k ∨ onFirstImage k k.current := by
  obtain ⟨hu, -, -, -, -⟩ := fork_spec h hk
  have hc := hs k.current (h.placed.current_mem hu.1)
  constructor
  · intro hcopy
    rcases hc with hc | hc
    · exact .inr hc
    · left
      intro i hi
      have hi' := hcopy i hi
      rwa [image_child_of_fork h hk hi, image_of_child hc hi] at hi'
  · intro hcond i hi
    rw [image_child_of_fork h hk hi]
    rcases hc with hc | hc
    · rw [image_of_first hc hi]
    · rw [image_of_child hc hi]
      rcases hcond with heq | hfirst
      · exact heq i hi
      · exact absurd (hfirst.symm.trans hc) (by decide)

/-- The others are left alone if they all have the first image or both images are equal. -/
theorem leavesOthers_iff : LeavesOthers k k' ↔
    imagesEqual k ∨ ∀ q ∈ procs, alive k q → q ≠ k.current → onFirstImage k q := by
  obtain ⟨-, hfree, -, -, hother⟩ := fork_spec h hk
  -- the child is dead before the call, so it is none of the others
  have hne : ∀ q, alive k q → q ≠ .pcb k.pNum := by
    rintro q hq rfl
    exact hq (h.placed.state .free _ hfree)
  have hsecond : ∀ q, alive k q → segBase (k.tf q .ds) = Child_Data_Offst → ∀ i < IMAGE_SIZE,
      (image k' q i = image k q i ↔ cell k (IMAGE_SRC + i) = cell k (IMAGE_DEST + i)) := by
    intro q hq hds i hi
    rw [image_of_child (by rwa [hother q (hne q hq)]) hi, image_of_child hds hi,
      (cells_of_fork h hk hi).2]
  constructor
  · intro hleave
    by_cases hall : ∀ q ∈ procs, alive k q → q ≠ k.current → onFirstImage k q
    · exact .inr hall
    · push Not at hall
      obtain ⟨q, hq, hlive, hcur, hds⟩ := hall
      left
      intro i hi
      exact (hsecond q hlive ((hs q hq).resolve_left hds) i hi).mp (hleave q hq hlive hcur i hi)
  · intro hcond q hq hlive hcur i hi
    rcases hs q hq with hds | hds
    · have hds' : onFirstImage k' q := by
        unfold onFirstImage
        rwa [hother q (hne q hlive)]
      rw [image_of_first hds' hi, image_of_first hds hi, (cells_of_fork h hk hi).1]
    · rw [hsecond q hlive hds i hi]
      rcases hcond with heq | hfirst
      · exact heq i hi
      · exact absurd ((hfirst q hq hlive hcur).symm.trans hds) (by decide)

end

/-- **A fork copies the caller and disturbs nobody** exactly when every live process, the caller
among them, uses the first image, or the two images are equal. After the call the child and the
caller always see the same. -/
theorem fork_copies_iff (hr : runFrom img es = .ok k) (hk : step k (.sys .fork) = .ok k') :
    (CopiesCaller k k' ∧ LeavesOthers k k' ↔
      imagesEqual k ∨ ∀ q ∈ procs, alive k q → onFirstImage k q) ∧
    (∀ i < IMAGE_SIZE, image k' (.pcb k.pNum) i = image k' k.current i) ∧
    (LeavesOthers k k' ↔
      imagesEqual k ∨ ∀ q ∈ procs, alive k q → q ≠ k.current → onFirstImage k q) := by
  obtain ⟨Q, h, hs⟩ := segmented_run hr
  have hleave := leavesOthers_iff h hs hk
  refine ⟨?_, fun i hi => image_caller_of_fork h hs hk hi, hleave⟩
  obtain ⟨hu, -, -, -, -⟩ := fork_spec h hk
  have hcur := h.placed.current_mem hu.1
  have hlive : alive k k.current := by
    unfold alive
    rw [h.placed.curState]
    simp
  rw [copiesCaller_iff h hs hk, hleave]
  constructor
  · rintro ⟨heq | hc, heq' | hall⟩
    · exact .inl heq
    · exact .inl heq
    · exact .inl heq'
    · right
      intro q hq hql
      by_cases hqc : q = k.current
      · exact hqc ▸ hc
      · exact hall q hq hql hqc
  · rintro (heq | hall)
    · exact ⟨.inl heq, .inl heq⟩
    · exact ⟨.inr (hall _ hcur hlive), .inr fun q hq hql _ => hall q hq hql⟩

/-- The first fork of the first process, after ten ticks. -/
theorem fork_copies_iff_first :
    ∃ k k', runFrom .blank (List.replicate 10 .timer) = .ok k ∧ step k (.sys .fork) = .ok k' ∧
      (CopiesCaller k k' ∧ LeavesOthers k k' ↔
        imagesEqual k ∨ ∀ q ∈ procs, alive k q → onFirstImage k q) ∧
      (∀ i < IMAGE_SIZE, image k' (.pcb k.pNum) i = image k' k.current i) ∧
      (LeavesOthers k k' ↔
        imagesEqual k ∨ ∀ q ∈ procs, alive k q → q ≠ k.current → onFirstImage k q) := by
  have hrun : okAnd (runFrom .blank (List.replicate 10 .timer)) (fun k =>
      okAnd (step k (.sys .fork)) fun _ => true) = true := by decide +kernel
  simp only [okAnd_eq_true] at hrun
  obtain ⟨k, hr, k', hk, -⟩ := hrun
  exact ⟨k, k', hr, hk, fork_copies_iff hr hk⟩

/-- **A second fork overwrites the first child.** The first process forks, stores to its memory and
forks again. -/
theorem fork_overwrites_sibling :
    ¬∀ (img : Image) (es : List Event) (k k' : Kernel), runFrom img es = .ok k →
      step k (.sys .fork) = .ok k' → CopiesCaller k k' ∧ LeavesOthers k k' := by
  intro hall
  have hrun : okAnd (runFrom .blank (List.replicate 10 .timer)) (fun k1 =>
      decide (k1.mem 0x200000 = 0) && okAnd (step k1 (.sys .fork)) fun k2 =>
      decide (userMode k2) && decide (dataAddr k2.current 0x200000 k2 = 0x200000) &&
      okAnd (step k2 (.store 0x200000 1)) fun k => decide (alive k (.pcb 2)) &&
      decide (.pcb 2 ≠ k.current) && decide (¬onFirstImage k (.pcb 2)) &&
      okAnd (step k (.sys .fork)) fun _ => true) = true := by decide +kernel
  simp only [okAnd_eq_true, Bool.and_eq_true, decide_eq_true_eq] at hrun
  obtain ⟨k1, h1, hzero, k2, h2, ⟨hu, haddr⟩, k, h3, ⟨⟨hlive, hne⟩, hds⟩, k', hk, -⟩ := hrun
  have hr : runFrom .blank (List.replicate 10 .timer ++ [.sys .fork] ++ [.store 0x200000 1]) =
      .ok k :=
    runFrom_snoc_eq_ok.mpr ⟨k2, runFrom_snoc_eq_ok.mpr ⟨k1, h1, h2⟩, h3⟩
  obtain ⟨Q1, hs1, -⟩ := segmented_run h1
  obtain ⟨Q, hs, hseg⟩ := segmented_run hr
  rcases (leavesOthers_iff hs hseg hk).mp (hall _ _ k k' hr hk).2 with heq | hfirst
  · -- the byte stored by the first process is in its own image only
    simp only [step, if_pos hu] at h3
    obtain rfl := Except.ok.inj h3
    have hcell := congrArg Prod.fst (heq 0 (by decide))
    have hcopy := congrArg Prod.fst (cells_of_fork hs1 h2 (show 0 < IMAGE_SIZE by decide)).2
    simp only [cell, userStore, haddr] at hcell hcopy
    rw [show IMAGE_SRC + 0 = 0x200000 from rfl, Function.update_self,
      Function.update_of_ne (by decide), hcopy] at hcell
    rw [show IMAGE_SRC + 0 = 0x200000 from rfl, hzero] at hcell
    cases hcell
  · exact hds (hfirst (.pcb 2) (by decide) hlive hne)

end OsLab
