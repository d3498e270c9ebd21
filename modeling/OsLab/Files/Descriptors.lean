import OsLab.Lib.Counting
import OsLab.Files.SameFiles
import Mathlib.Data.Finset.Prod

/-!
# Open files and their reference counts

A descriptor of a process is an index into `sysFileTable` or -1. Four pieces of bookkeeping follow
from the descriptors: the `link_num` of a slot, whether its `inode_index` is -1, the number of used
slots, and the `fp_num` of a process. `FilesCounted` says that they agree with the descriptors.

* `FilesCounted.openSlot`: `open_aux` keeps it, given an inode that the lookup found.
* `FilesCounted.close`: so does `close_aux`.
* `FilesCounted.fork`: and `fork_aux`, which overwrites the descriptors of the PCB it takes from
  `free_list`, if those are -1.
* `FilesCounted.slotOf_iff`: so the handlers find a slot exactly for the descriptors that are open.

All three go through `DescriptorSet`, which says what one descriptor contributes to the counts.
-/

namespace OsLab

open OsLab.Lib

variable {k k' : Kernel}

/-! ### The four counts -/

/-- The descriptors of all processes. -/
def descriptors : Finset (Node × ℕ) := procs ×ˢ Finset.range MAX_FP_NUM

/-- The descriptors of the processes. -/
theorem mem_descriptors {p : Node} {fd : ℕ} :
    (p, fd) ∈ descriptors ↔ p ∈ procs ∧ fd < MAX_FP_NUM := by
  simp [descriptors]

/-- `p->filepointer[fd]`. -/
def Kernel.descriptor (k : Kernel) (x : Node × ℕ) : ℤ := (k.pcb x.1).filepointer x.2

/-- The number of descriptors that refer to slot `s`. -/
def refs (k : Kernel) (s : ℕ) : ℕ := countOf (· = (s : ℤ)) k.descriptor descriptors

/-- The number of files that `p` has open. -/
def openFiles (k : Kernel) (p : Node) : ℕ :=
  countOf (· ≠ -1) (k.pcb p).filepointer (Finset.range MAX_FP_NUM)

/-- The number of used slots. -/
def usedSlots (k : Kernel) : ℕ :=
  countOf (fun f : SysFile => f.inodeIndex ≠ -1) k.sysFileTable (Finset.range MAX_SYS_FILE_NUM)

/-- The bookkeeping agrees with the descriptors. -/
structure FilesCounted (k : Kernel) : Prop where
  valid : ∀ x ∈ descriptors, ValidSlot (k.descriptor x)
  linkNum : ∀ s < MAX_SYS_FILE_NUM, (k.sysFileTable s).linkNum = refs k s
  inodeIndex : ∀ s < MAX_SYS_FILE_NUM, (k.sysFileTable s).inodeIndex = -1 ↔ refs k s = 0
  offset : ∀ s < MAX_SYS_FILE_NUM, refs k s = 0 → (k.sysFileTable s).offset = 0
  sysFileNum : k.sysFileNum = usedSlots k
  fpNum : ∀ p ∈ procs, (k.pcb p).fpNum = 3 + openFiles k p

/-- There are 72 descriptors, so no count wraps. -/
theorem refs_le (k : Kernel) (s : ℕ) : refs k s ≤ 72 := (countOf_le _ _ _).trans (by decide)

/-- A slot that a descriptor refers to is in use. -/
theorem refs_ne_zero {p : Node} {fd s : ℕ} (hp : p ∈ procs) (hfd : fd < MAX_FP_NUM)
    (hs : (k.pcb p).filepointer fd = s) : refs k s ≠ 0 := by
  unfold refs
  rw [countOf_pos]
  exact ⟨(p, fd), mem_descriptors.mpr ⟨hp, hfd⟩, hs⟩

/-- The counts depend on the descriptors and the file table only. -/
theorem FilesCounted.congr (h : FilesCounted k)
    (hfp : ∀ p, (k'.pcb p).filepointer = (k.pcb p).filepointer)
    (hfn : ∀ p, (k'.pcb p).fpNum = (k.pcb p).fpNum) (htab : k'.sysFileTable = k.sysFileTable)
    (hnum : k'.sysFileNum = k.sysFileNum) : FilesCounted k' := by
  have hd : k'.descriptor = k.descriptor := by
    funext x
    unfold Kernel.descriptor
    rw [hfp]
  have hr : ∀ s, refs k' s = refs k s := by
    intro s
    unfold refs
    rw [hd]
  constructor
  · rw [hd]
    exact h.valid
  · intro s hlt
    rw [htab, hr]
    exact h.linkNum s hlt
  · intro s hlt
    rw [htab, hr]
    exact h.inodeIndex s hlt
  · intro s hlt
    rw [htab, hr]
    exact h.offset s hlt
  · unfold usedSlots
    rw [hnum, htab]
    exact h.sysFileNum
  · intro p hp
    unfold openFiles
    rw [hfn, hfp]
    exact h.fpNum p hp

/-- **A slot in use is not handed out** by `getAvlSystemFile`. -/
theorem FilesCounted.getAvlSystemFile (h : FilesCounted k) {s : ℕ}
    (hs : getAvlSystemFile k = s) : s < MAX_SYS_FILE_NUM ∧ refs k s = 0 := by
  rcases firstIndex_spec (fun i => (k.sysFileTable i).inodeIndex = -1) MAX_SYS_FILE_NUM 0 with
    ⟨j, -, hj, heq, hfree⟩ | ⟨hnone, -⟩
  · obtain rfl : j = s := by
      unfold OsLab.getAvlSystemFile at hs
      omega
    exact ⟨by omega, (h.inodeIndex j (by omega)).mp hfree⟩
  · unfold OsLab.getAvlSystemFile at hs
    omega

/-! ### One descriptor changes -/

/-- The kernels differ in one descriptor: that of `p` at index `fd`, which is now `v`. -/
structure DescriptorSet (k k' : Kernel) (p : Node) (fd : ℕ) (v : ℤ) : Prop where
  mem : p ∈ procs
  lt : fd < MAX_FP_NUM
  descriptor : k'.descriptor = Function.update k.descriptor (p, fd) v

namespace DescriptorSet

variable {p : Node} {fd : ℕ} {v : ℤ}

/-- The references to the slots. -/
theorem refs (h : DescriptorSet k k' p fd v) (s : ℕ) :
    refs k' s + (if (k.pcb p).filepointer fd = s then 1 else 0) =
      OsLab.refs k s + if v = s then 1 else 0 := by
  unfold OsLab.refs
  rw [h.descriptor]
  exact countOf_update _ (mem_descriptors.mpr ⟨h.mem, h.lt⟩)

/-- The descriptors afterwards. -/
theorem filepointer (h : DescriptorSet k k' p fd v) (q : Node) :
    (k'.pcb q).filepointer = if q = p then Function.update (k.pcb p).filepointer fd v
      else (k.pcb q).filepointer := by
  funext j
  have hj : (k'.pcb q).filepointer j = k'.descriptor (q, j) := rfl
  rw [hj, h.descriptor]
  split_ifs with hq
  · subst hq
    by_cases hfd : j = fd
    · subst hfd; simp
    · simp [hfd, Kernel.descriptor]
  · simp [hq, Kernel.descriptor]

/-- The number of open files of the process. -/
theorem openFiles (h : DescriptorSet k k' p fd v) :
    openFiles k' p + (if (k.pcb p).filepointer fd ≠ -1 then 1 else 0) =
      OsLab.openFiles k p + if v ≠ -1 then 1 else 0 := by
  unfold OsLab.openFiles
  rw [h.filepointer, if_pos rfl]
  exact countOf_update _ (Finset.mem_range.mpr h.lt)

/-- That of the other processes. -/
theorem openFiles_of_ne (h : DescriptorSet k k' p fd v) {q : Node} (hq : q ≠ p) :
    OsLab.openFiles k' q = OsLab.openFiles k q := by
  unfold OsLab.openFiles
  rw [h.filepointer, if_neg hq]

/-- A valid slot keeps the descriptors valid. -/
theorem valid (h : DescriptorSet k k' p fd v) (hv : ValidSlot v)
    (hk : ∀ x ∈ descriptors, ValidSlot (k.descriptor x)) :
    ∀ x ∈ descriptors, ValidSlot (k'.descriptor x) := by
  intro x hx
  rw [h.descriptor]
  by_cases hxp : x = (p, fd)
  · subst hxp; simpa using hv
  · rw [Function.update_of_ne hxp]
    exact hk x hx

end DescriptorSet

/-- One slot of `sysFileTable` changes. -/
theorem usedSlots_update {s : ℕ} {f : SysFile} (hs : s < MAX_SYS_FILE_NUM)
    (ht : k'.sysFileTable = Function.update k.sysFileTable s f) :
    usedSlots k' + (if (k.sysFileTable s).inodeIndex ≠ -1 then 1 else 0) =
      usedSlots k + if f.inodeIndex ≠ -1 then 1 else 0 := by
  unfold usedSlots
  rw [ht]
  exact countOf_update _ (Finset.mem_range.mpr hs)

/-- The comparison of two slots, as numbers of either type. -/
theorem ite_cast_eq (s t : ℕ) :
    (if (s : ℤ) = t then 1 else 0 : ℕ) = if t = s then 1 else 0 := by
  split_ifs <;> omega

/-! ### `open_aux` -/

/-- What `open_aux` does once the file has been looked up. -/
structure Opened (k k' : Kernel) (inode : ℤ) (s fd : ℕ) : Prop where
  slot : getAvlSystemFile k = s
  lt : s < MAX_SYS_FILE_NUM
  index : fd < MAX_FP_NUM
  unused : (k.pcb k.current).filepointer fd = -1
  descriptor : k'.descriptor = Function.update k.descriptor (k.current, fd) s
  fpNum : ∀ p, (k'.pcb p).fpNum = (k.pcb p).fpNum + if p = k.current then 1 else 0
  sysFileTable : k'.sysFileTable = Function.update k.sysFileTable s ⟨inode, 1, 0⟩
  sysFileNum : k'.sysFileNum = k.sysFileNum + 1
  fs : k'.fs = k.fs

/-- The second part of `open_aux`, when it returns. -/
theorem openSlot_opened {index : ℤ} (h : openSlot index k = .ok k') :
    ∃ s fd, Opened k k' index s fd := by
  simp only [openSlot, bind_eq_ok, assert_eq_ok] at h
  obtain ⟨-, hne, h⟩ := h
  obtain ⟨s, -, hs, hslot, -⟩ := (firstIndex_spec (fun i => (k.sysFileTable i).inodeIndex = -1)
    MAX_SYS_FILE_NUM 0).resolve_right fun hn => hne (.inl hn.1)
  obtain ⟨fd, -, hfd, hfp, hunused⟩ := (firstIndex_spec
    (fun i => (k.pcb k.current).filepointer i = -1) (MAX_FP_NUM - 3) 3).resolve_right
    fun hn => hne (.inr hn.1)
  have hslot : getAvlSystemFile k = s := hslot
  have hfp : getAvlFilepointer k = fd := hfp
  obtain rfl := Except.ok.inj h
  refine ⟨s, fd, hslot, by omega, by omega, hunused, ?_, ?_, ?_, rfl, rfl⟩
  · funext x
    obtain ⟨p, j⟩ := x
    by_cases hp : p = k.current
    · subst hp
      by_cases hj : j = fd
      · subst hj; simp [Kernel.descriptor, hslot, hfp]
      · simp [Kernel.descriptor, hfp, hj]
    · simp [Kernel.descriptor, hp]
  · intro p
    by_cases hp : p = k.current
    · subst hp; simp
    · simp [hp]
  · change Function.update k.sysFileTable (getAvlSystemFile k).toNat ⟨index, 1, 0⟩ = _
    rw [hslot, Int.toNat_natCast]

/-- It sets a descriptor of the caller. -/
theorem Opened.set {index : ℤ} {s fd : ℕ} (h : Opened k k' index s fd) (hc : k.current ∈ procs) :
    DescriptorSet k k' k.current fd s := ⟨hc, h.index, h.descriptor⟩

/-- **`open_aux`** of a file that the lookup found. -/
theorem FilesCounted.openSlot {index : ℤ} (h : FilesCounted k) (hc : k.current ∈ procs)
    (hi : index ≠ -1) (hk : openSlot index k = .ok k') : FilesCounted k' := by
  obtain ⟨s, fd, ho⟩ := openSlot_opened hk
  have hset := ho.set hc
  have hfree : refs k s = 0 := (h.getAvlSystemFile ho.slot).2
  have hrefs : ∀ t : ℕ, refs k' t = refs k t + if t = s then 1 else 0 := by
    intro t
    have ht := hset.refs t
    have hne : ¬(-1 : ℤ) = t := by omega
    rw [ho.unused, if_neg hne] at ht
    rwa [ite_cast_eq] at ht
  have htab : ∀ t, k'.sysFileTable t = if t = s then ⟨index, 1, 0⟩ else k.sysFileTable t := by
    intro t
    rw [ho.sysFileTable, Function.update_apply]
  constructor
  · exact hset.valid (.inr ⟨by omega, by exact_mod_cast ho.lt⟩) h.valid
  · intro t ht
    rw [htab, hrefs]
    split_ifs with hts
    · subst hts; simp [hfree]
    · simpa using h.linkNum t ht
  · intro t ht
    rw [htab, hrefs]
    split_ifs with hts
    · simp [hi]
    · simpa using h.inodeIndex t ht
  · intro t ht hz
    rw [htab]
    rw [hrefs] at hz
    split_ifs at hz ⊢ with hts
    exact h.offset t ht hz
  · have hu := usedSlots_update ho.lt ho.sysFileTable
    have hs := (h.inodeIndex s ho.lt).mpr hfree
    rw [if_neg (not_not.mpr hs), if_pos hi] at hu
    rw [ho.sysFileNum, h.sysFileNum]
    omega
  · intro p hp
    rw [ho.fpNum, h.fpNum p hp]
    split_ifs with hpc
    · subst hpc
      have hopen := hset.openFiles
      have hsne : ¬(s : ℤ) = -1 := by omega
      rw [ho.unused, if_neg (by simp), if_pos hsne] at hopen
      omega
    · rw [hset.openFiles_of_ne hpc]
      omega

/-! ### `close_aux` -/

/-- A slot after one of its references is gone. -/
def SysFile.released (f : SysFile) : SysFile :=
  if i32 (f.linkNum - 1) = 0 then ⟨-1, 0, 0⟩ else { f with linkNum := i32 (f.linkNum - 1) }

/-- A reference less. -/
theorem released_linkNum (f : SysFile) : f.released.linkNum = i32 (f.linkNum - 1) := by
  unfold SysFile.released
  split_ifs with hz
  · exact hz.symm
  · rfl

/-- A slot in use is free again when its last reference goes. -/
theorem released_free {f : SysFile} (hu : f.inodeIndex ≠ -1) :
    f.released.inodeIndex = -1 ↔ i32 (f.linkNum - 1) = 0 := by
  unfold SysFile.released
  split_ifs with hz
  · exact iff_of_true rfl hz
  · exact iff_of_false hu hz

/-- The last reference takes the position with it. -/
theorem released_offset {f : SysFile} (hz : i32 (f.linkNum - 1) = 0) : f.released.offset = 0 := by
  rw [SysFile.released, if_pos hz]

/-- What `close_aux` does to slot `s`. -/
def dropRef (s : ℕ) (k : Kernel) : Kernel :=
  { k with
    sysFileTable := Function.update k.sysFileTable s (k.sysFileTable s).released
    sysFileNum := k.sysFileNum - if i32 ((k.sysFileTable s).linkNum - 1) = 0 then 1 else 0 }

/-- What `close_aux` does. -/
structure Closed (k k' : Kernel) (s fd : ℕ) : Prop where
  index : fd < MAX_FP_NUM
  held : (k.pcb k.current).filepointer fd = s
  lt : s < MAX_SYS_FILE_NUM
  descriptor : k'.descriptor = Function.update k.descriptor (k.current, fd) (-1)
  fpNum : ∀ p, (k'.pcb p).fpNum = (k.pcb p).fpNum - if p = k.current then 1 else 0
  sysFileTable : k'.sysFileTable = Function.update k.sysFileTable s (k.sysFileTable s).released
  sysFileNum : k'.sysFileNum =
    k.sysFileNum - if i32 ((k.sysFileTable s).linkNum - 1) = 0 then 1 else 0
  fs : k'.fs = k.fs

/-- A descriptor that can be looked up. -/
theorem slotOf_eq_ok {fd : ℤ} {s : ℕ} (h : slotOf fd k = .ok s) :
    0 ≤ fd ∧ fd < MAX_FP_NUM ∧ (k.pcb k.current).filepointer fd.toNat = s ∧ s < MAX_SYS_FILE_NUM := by
  simp only [slotOf] at h
  split_ifs at h with hfd hs
  obtain rfl := Except.ok.inj h
  exact ⟨hfd.1, hfd.2, by omega, by omega⟩

/-- The descriptor is open in the calling process. -/
def IsOpen (k : Kernel) (fd : ℤ) : Prop :=
  0 ≤ fd ∧ fd < MAX_FP_NUM ∧ (k.pcb k.current).filepointer fd.toNat ≠ -1

/-- Whether a descriptor is open can be computed. -/
instance (k : Kernel) (fd : ℤ) : Decidable (IsOpen k fd) := inferInstanceAs (Decidable (_ ∧ _))

/-- **An open descriptor is found**, and no other. -/
theorem FilesCounted.slotOf_iff {fd : ℤ} (h : FilesCounted k) (hc : k.current ∈ procs) :
    (∃ s, slotOf fd k = .ok s) ↔ IsOpen k fd := by
  constructor
  · rintro ⟨s, hs⟩
    obtain ⟨h0, hlt, hheld, -⟩ := slotOf_eq_ok hs
    exact ⟨h0, hlt, by rw [hheld]; omega⟩
  · rintro ⟨h0, hlt, hne⟩
    have hv : ValidSlot ((k.pcb k.current).filepointer fd.toNat) :=
      h.valid (k.current, fd.toNat) (mem_descriptors.mpr ⟨hc, by omega⟩)
    rcases hv with hv | ⟨h1, h2⟩
    · exact absurd hv hne
    · refine ⟨((k.pcb k.current).filepointer fd.toNat).toNat, ?_⟩
      rw [slotOf, if_pos ⟨h0, hlt⟩]
      exact if_pos ⟨h1, h2⟩

/-- `close_aux` on a slot that exists. -/
theorem closeAux_eq {fd : ℤ} {s : ℕ} (hs : slotOf fd k = .ok s) :
    closeAux fd k = .ok ((((dropRef s k).setFilepointer fd.toNat (-1)).setPcb k.current fun c =>
      { c with fpNum := c.fpNum - 1 }).setEax 0) := by
  simp only [closeAux, hs, ok_bind, Kernel.setFile_sysFileTable, Function.update_self]
  have hdrop : (if i32 ((k.sysFileTable s).linkNum - 1) = 0 then
      { (k.setFile s fun f => { f with linkNum := i32 (f.linkNum - 1) }).setFile s
          fun f => { f with inodeIndex := -1, offset := 0 } with sysFileNum := k.sysFileNum - 1 }
      else k.setFile s fun f => { f with linkNum := i32 (f.linkNum - 1) }) = dropRef s k := by
    unfold dropRef SysFile.released
    split_ifs with hz
    · simp [Kernel.setFile, hz]
    · simp [Kernel.setFile]
  rw [← hdrop]
  split_ifs <;> rfl

/-- It drops the reference of its descriptor. -/
theorem closeAux_slot {fd : ℤ} {s : ℕ} (hs : slotOf fd k = .ok s) (h : closeAux fd k = .ok k') :
    Closed k k' s fd.toNat := by
  obtain ⟨h0, h8, hheld, hlt⟩ := slotOf_eq_ok hs
  obtain rfl := Except.ok.inj ((closeAux_eq hs).symm.trans h)
  refine ⟨by omega, hheld, hlt, ?_, ?_, rfl, rfl, rfl⟩
  · funext ⟨p, j⟩
    by_cases hp : p = k.current
    · subst hp
      by_cases hj : j = fd.toNat
      · subst hj; simp [Kernel.descriptor, dropRef]
      · simp [Kernel.descriptor, dropRef, hj]
    · simp [Kernel.descriptor, dropRef, hp]
  · intro p
    by_cases hp : p = k.current
    · subst hp; simp [dropRef]
    · simp [dropRef, hp]

/-- When `close_aux` returns, it has done that for some slot. -/
theorem closeAux_closed {fd : ℤ} (h : closeAux fd k = .ok k') : ∃ s, Closed k k' s fd.toNat := by
  obtain ⟨s, hs, -⟩ := bind_eq_ok.mp h
  exact ⟨s, closeAux_slot hs h⟩

/-- **`close_aux`.** -/
theorem FilesCounted.close {fd : ℤ} (h : FilesCounted k) (hc : k.current ∈ procs)
    (hk : closeAux fd k = .ok k') : FilesCounted k' := by
  obtain ⟨s, hcl⟩ := closeAux_closed hk
  have hset : DescriptorSet k k' k.current fd.toNat (-1) := ⟨hc, hcl.index, hcl.descriptor⟩
  have hpos : refs k s ≠ 0 := refs_ne_zero hc hcl.index hcl.held
  have hle := refs_le k s
  have hlink : i32 ((k.sysFileTable s).linkNum - 1) = refs k s - 1 := by
    rw [h.linkNum s hcl.lt]
    exact i32_eq_self (by omega) (by omega)
  have hrefs : ∀ t : ℕ, refs k' t + (if t = s then 1 else 0) = refs k t := by
    intro t
    have ht := hset.refs t
    have hne : ¬(-1 : ℤ) = t := by omega
    rwa [hcl.held, if_neg hne, ite_cast_eq] at ht
  have htab : ∀ t, k'.sysFileTable t =
      if t = s then (k.sysFileTable s).released else k.sysFileTable t := by
    intro t
    rw [hcl.sysFileTable, Function.update_apply]
  have hs := hrefs s
  rw [if_pos rfl] at hs
  have hused : (k.sysFileTable s).inodeIndex ≠ -1 := fun hi => hpos ((h.inodeIndex s hcl.lt).mp hi)
  constructor
  · exact hset.valid (.inl rfl) h.valid
  · intro t ht
    rw [htab]
    have hrt := hrefs t
    split_ifs at hrt ⊢ with hts
    · subst hts
      rw [released_linkNum, hlink]
      omega
    · rw [h.linkNum t ht]
      omega
  · intro t ht
    rw [htab]
    have hrt := hrefs t
    split_ifs at hrt ⊢ with hts
    · subst hts
      rw [released_free hused, hlink]
      omega
    · rw [h.inodeIndex t ht]
      omega
  · intro t ht hz
    rw [htab]
    have hrt := hrefs t
    split_ifs at hrt ⊢ with hts
    · subst hts
      exact released_offset (by rw [hlink]; omega)
    · exact h.offset t ht (by omega)
  · have hu := usedSlots_update hcl.lt hcl.sysFileTable
    simp only [ne_eq, released_free hused, hused, not_false_eq_true, if_true, ite_not] at hu
    rw [hcl.sysFileNum, h.sysFileNum]
    split_ifs at hu ⊢ <;> omega
  · intro p hp
    rw [hcl.fpNum, h.fpNum p hp]
    split_ifs with hpc
    · subst hpc
      have hopen := hset.openFiles
      have hsne : (s : ℤ) ≠ -1 := by omega
      rw [hcl.held, if_pos hsne, if_neg (by simp)] at hopen
      omega
    · rw [hset.openFiles_of_ne hpc]
      omega

/-! ### `fork_aux` -/

/-- The number of descriptors among the first `n` of `fp` that refer to slot `s`. -/
def fpRefs (fp : ℕ → ℤ) (n s : ℕ) : ℕ := countOf (· = (s : ℤ)) fp (Finset.range n)

/-- The loop of `fork_aux` counts every descriptor it copies, and changes nothing else. -/
theorem addLinks_apply {fp : ℕ → ℤ} {t : ℕ → SysFile} {n s : ℕ} (hn : n ≤ MAX_FP_NUM)
    (hfp : ∀ j < n, ValidSlot (fp j)) (h0 : 0 ≤ (t s).linkNum) (h1 : (t s).linkNum ≤ 72) :
    addLinks fp n t s = { t s with linkNum := (t s).linkNum + fpRefs fp n s } := by
  induction n with
  | zero => simp [addLinks, fpRefs, countOf]
  | succ n ih =>
    have hn8 : n + 1 ≤ 8 := hn
    have ih := ih (by omega) fun j hj => hfp j (by omega)
    have hle : fpRefs fp n s ≤ n := (countOf_le _ _ _).trans (by simp)
    have hsucc : fpRefs fp (n + 1) s = fpRefs fp n s + if fp n = s then 1 else 0 :=
      countOf_range_succ _
    rw [hsucc]
    unfold addLinks
    by_cases hneg : fp n = -1
    · have hs : ¬fp n = s := by omega
      rw [if_neg (not_not.mpr hneg), ih, if_neg hs]
      rfl
    · rw [if_pos hneg]
      rcases hfp n (by omega) with hv | ⟨hv, -⟩
      · exact absurd hv hneg
      · by_cases hs : fp n = s
        · obtain rfl : (fp n).toNat = s := by omega
          rw [Function.update_self, ih, if_pos hs]
          simp only
          rw [i32_eq_self (by omega) (by omega)]
          push_cast
          rw [Int.add_assoc]
        · rw [Function.update_of_ne (by omega), ih, if_neg hs]
          rfl

/-- Whatever the descriptors are, inodes and positions stay. -/
theorem addLinks_rest (fp : ℕ → ℤ) (t : ℕ → SysFile) (n s : ℕ) :
    (addLinks fp n t s).inodeIndex = (t s).inodeIndex ∧ (addLinks fp n t s).offset = (t s).offset := by
  induction n with
  | zero => exact ⟨rfl, rfl⟩
  | succ n ih =>
    unfold addLinks
    split_ifs with hneg
    · by_cases hs : s = (fp n).toNat
      · subst hs
        rw [Function.update_self]
        exact ih
      · rw [Function.update_of_ne hs]
        exact ih
    · exact ih

/-- All descriptors once the first `n` of `fp` are copied to `child`. -/
def copiedDescriptors (k : Kernel) (child : Node) (fp : ℕ → ℤ) (n : ℕ) (x : Node × ℕ) : ℤ :=
  if x.1 = child ∧ x.2 < n then fp x.2 else k.descriptor x

/-- One descriptor more is copied. -/
theorem copiedDescriptors_succ (k : Kernel) (child : Node) (fp : ℕ → ℤ) (n : ℕ) :
    copiedDescriptors k child fp (n + 1) =
      Function.update (copiedDescriptors k child fp n) (child, n) (fp n) := by
  funext ⟨p, j⟩
  unfold copiedDescriptors
  by_cases hp : p = child
  · subst hp
    rcases Nat.lt_trichotomy j n with h | rfl | h
    · simp [h, h.ne, Nat.lt_succ_of_lt h]
    · simp
    · have h1 : ¬j < n := by omega
      have h2 : ¬j < n + 1 := by omega
      simp only [true_and, h2, if_false]
      rw [Function.update_of_ne (by simpa using h.ne')]
      simp [h1]
  · simp [hp]

/-- The child gets the descriptors of its parent in place of none. -/
theorem refs_copied {child : Node} {fp : ℕ → ℤ} (hchild : child ∈ procs)
    (hfree : ∀ j < MAX_FP_NUM, (k.pcb child).filepointer j = -1) {n : ℕ} (hn : n ≤ MAX_FP_NUM) (s : ℕ) :
    countOf (· = (s : ℤ)) (copiedDescriptors k child fp n) descriptors = refs k s + fpRefs fp n s := by
  induction n with
  | zero =>
    have h0 : copiedDescriptors k child fp 0 = k.descriptor := by
      funext x
      simp [copiedDescriptors]
    rw [h0]
    rfl
  | succ n ih =>
    have hold : ¬copiedDescriptors k child fp n (child, n) = s := by
      have hneg : k.descriptor (child, n) = -1 := hfree n hn
      simp only [copiedDescriptors, Nat.lt_irrefl, and_false, if_false, hneg]
      omega
    have hsucc : fpRefs fp (n + 1) s = fpRefs fp n s + if fp n = s then 1 else 0 :=
      countOf_range_succ _
    have hu := countOf_update (· = (s : ℤ)) (f := copiedDescriptors k child fp n) (v := fp n)
      (mem_descriptors.mpr ⟨hchild, hn⟩)
    rw [copiedDescriptors_succ, hsucc]
    rw [if_neg hold, ih (by omega)] at hu
    omega

/-- The child starts with the descriptors of its parent. -/
theorem forked_descriptor (k : Kernel) (nx : Node → Option Node) :
    ((forked k).relink nx).descriptor =
      copiedDescriptors k (.pcb k.pNum) (k.pcb k.current).filepointer MAX_FP_NUM := by
  funext x
  obtain ⟨p, j⟩ := x
  unfold Kernel.descriptor copiedDescriptors
  rw [Kernel.relink_pcb, forked_pcb]
  by_cases hp : p = .pcb k.pNum
  · subst hp
    simp only [if_true, childPcb, true_and]
    rfl
  · simp only [hp, if_false, false_and]
    rfl

/-- Each slot counts what the child got. -/
theorem FilesCounted.forked_slot (h : FilesCounted k) (hc : k.current ∈ procs) {s : ℕ}
    (hs : s < MAX_SYS_FILE_NUM) (nx : Node → Option Node) :
    ((forked k).relink nx).sysFileTable s =
      { k.sysFileTable s with
        linkNum := (k.sysFileTable s).linkNum + fpRefs (k.pcb k.current).filepointer MAX_FP_NUM s } := by
  have hvalid : ∀ j < MAX_FP_NUM, ValidSlot ((k.pcb k.current).filepointer j) := fun j hj =>
    h.valid (k.current, j) (mem_descriptors.mpr ⟨hc, hj⟩)
  have hlink := h.linkNum s hs
  have hle := refs_le k s
  exact addLinks_apply (le_refl _) hvalid (by omega) (by omega)

/-- **`fork_aux`** onto a PCB without open files. -/
theorem FilesCounted.fork (h : FilesCounted k) (hc : k.current ∈ procs)
    (hchild : Node.pcb k.pNum ∈ procs)
    (hfree : ∀ j < MAX_FP_NUM, (k.pcb (.pcb k.pNum)).filepointer j = -1) (nx : Node → Option Node) :
    FilesCounted ((forked k).relink nx) := by
  have hd := forked_descriptor k nx
  have htab := fun s hs => h.forked_slot hc (s := s) hs nx
  set child := Node.pcb k.pNum
  set fp := (k.pcb k.current).filepointer
  have hrefs : ∀ s, refs ((forked k).relink nx) s = refs k s + fpRefs fp MAX_FP_NUM s := by
    intro s
    unfold refs
    rw [hd]
    exact refs_copied hchild hfree (le_refl _) s
  -- what the child refers to, its parent has referred to already
  have hzero : ∀ s, refs k s = 0 → fpRefs fp MAX_FP_NUM s = 0 := by
    intro s hs
    unfold fpRefs
    rw [countOf_eq_zero]
    intro j hj hjs
    exact refs_ne_zero hc (Finset.mem_range.mp hj) hjs hs
  constructor
  · rintro ⟨p, j⟩ hx
    rw [hd]
    unfold copiedDescriptors
    split_ifs with hp
    · exact h.valid (k.current, j) (mem_descriptors.mpr ⟨hc, hp.2⟩)
    · exact h.valid _ hx
  · intro s hs
    rw [htab s hs, hrefs, h.linkNum s hs]
    push_cast
    rfl
  · intro s hs
    rw [htab s hs, hrefs]
    have hi := h.inodeIndex s hs
    have hz := hzero s
    simp only
    rw [hi]
    omega
  · intro s hs hz
    rw [htab s hs]
    rw [hrefs] at hz
    exact h.offset s hs (by omega)
  · have hused : usedSlots ((forked k).relink nx) = usedSlots k := by
      unfold usedSlots
      rw [countOf_congr_iff]
      intro s hs
      rw [htab s (Finset.mem_range.mp hs)]
    rw [hused]
    exact h.sysFileNum
  · intro p hp
    unfold openFiles
    rw [Kernel.relink_pcb, forked_pcb]
    split_ifs with hpc
    · have hcur := h.fpNum k.current hc
      change (k.pcb k.current).fpNum = _
      rw [hcur]
      unfold openFiles
      rw [countOf_congr]
      intro j hj
      simp [childPcb, Finset.mem_range.mp hj]
    · exact h.fpNum p hp

end OsLab
