import OsLab.Files.Access
import OsLab.Files.OpenFiles

/-!
# Descriptors that stay open

`Held k p fd s` says that descriptor `fd` of process `p` refers to slot `s` of the open-file table.
As long as `p` does not close it, the slot stays what it is (`held_step`): it goes on referring to
its inode, and only a call through one of the descriptors that share it moves its position. The
counts of `Files.OpenFiles` are what keeps a close of another descriptor from giving the slot back.
-/

namespace OsLab

open OsLab.Lib

variable {k k' : Kernel} {Q : Queues} {e : Event} {p : Node} {fd s : ℕ}

/-- Descriptor `fd` of process `p` refers to slot `s`. -/
structure Held (k : Kernel) (p : Node) (fd s : ℕ) : Prop where
  mem : p ∈ procs
  lt : fd < MAX_FP_NUM
  slot : (k.pcb p).filepointer fd = s

/-- The event closes descriptor `fd` of process `p`. -/
def closes (p : Node) (fd : ℕ) (k : Kernel) (e : Event) : Prop :=
  k.current = p ∧ e = .sys (.close fd)

/-- The event is a call through a descriptor of slot `s`. -/
def through (s : ℕ) (k : Kernel) (e : Event) : Prop :=
  ∃ c fd a, e = .sys c ∧ c.access k = some (fd, a) ∧ slotOf fd k = .ok s

/-- A slot with a holder has a reference. -/
theorem Held.refs_ne_zero (h : Held k p fd s) : refs k s ≠ 0 :=
  OsLab.refs_ne_zero h.mem h.lt h.slot

/-- A slot with a holder is in the table. -/
theorem Held.slot_lt (h : Held k p fd s) (hf : FilesCounted k) : s < MAX_SYS_FILE_NUM := by
  have hslot : k.descriptor (p, fd) = s := h.slot
  rcases hf.valid (p, fd) (mem_descriptors.mpr ⟨h.mem, h.lt⟩) with hv | hv
  · omega
  · omega

/-- Who holds a descriptor is not free. -/
theorem Held.not_free (h : Held k p fd s) (hf : FilesKept k Q) : p ∉ Q .free := by
  intro hp
  have hneg := hf.free p hp fd h.lt
  rw [h.slot] at hneg
  omega

/-- Another descriptor is set. -/
theorem Held.set {q : Node} {j : ℕ} {v : ℤ} (h : Held k p fd s) (hset : DescriptorSet k k' q j v)
    (hne : ¬(p = q ∧ fd = j)) : Held k' p fd s := by
  refine ⟨h.mem, h.lt, ?_⟩
  rw [hset.filepointer]
  split_ifs with hpq
  · rw [Function.update_of_ne fun hj => hne ⟨hpq, hj⟩, ← hpq]
    exact h.slot
  · exact h.slot

/-- Holding depends on the descriptors of the process only. -/
theorem Held.congr (h : Held k p fd s) (hfp : (k'.pcb p).filepointer = (k.pcb p).filepointer) :
    Held k' p fd s := ⟨h.mem, h.lt, by rw [hfp]; exact h.slot⟩

/-- **A close of another descriptor** leaves the descriptor as it is. -/
theorem Held.close {fd' : ℤ} (hf : FilesKept k Q) (h : Held k p fd s) (hu : userMode k)
    (hc : ¬closes p fd k (.sys (.close fd'))) (hk : closeAux fd' k = .ok k') : Held k' p fd s := by
  obtain ⟨t, ht, -⟩ := bind_eq_ok.mp hk
  obtain ⟨h0, -, -, -⟩ := slotOf_eq_ok ht
  have hcl := closeAux_slot ht hk
  refine h.set ⟨hf.sound.placed.current_mem hu.1, hcl.index, hcl.descriptor⟩ ?_
  rintro ⟨rfl, hfd⟩
  refine hc ⟨rfl, ?_⟩
  rw [hfd, Int.toNat_of_nonneg h0]

/-- And it does not give the slot back: two descriptors refer to it, and one of them is left. -/
theorem Held.linkNum_close {fd' : ℤ} (hf : FilesKept k Q) (h : Held k p fd s) (hu : userMode k)
    (hc : ¬closes p fd k (.sys (.close fd'))) (ht : slotOf fd' k = .ok s)
    (hk : closeAux fd' k = .ok k') : i32 ((k.sysFileTable s).linkNum - 1) ≠ 0 := by
  have hcl := closeAux_slot ht hk
  have hset : DescriptorSet k k' k.current fd'.toNat (-1) :=
    ⟨hf.sound.placed.current_mem hu.1, hcl.index, hcl.descriptor⟩
  have hpos := (h.close hf hu hc hk).refs_ne_zero
  have hrefs := hset.refs s
  have hne : ¬(-1 : ℤ) = s := by omega
  rw [if_pos hcl.held, if_neg hne] at hrefs
  have hle := refs_le k s
  rw [hf.files.linkNum s hcl.lt, i32_eq_self (by omega) (by omega)]
  omega

/-- **An open** sets a descriptor that was free, and hands out a slot that is not in use. -/
theorem Held.openFile {path : List UInt8} {r : ℤ × Kernel} (hf : FilesKept k Q) (h : Held k p fd s)
    (hu : userMode k) (hlook : openLookup path k = .ok r) (hslot : openSlot r.1 r.2 = .ok k') :
    Held k' p fd s ∧ k'.sysFileTable s = k.sysFileTable s := by
  have hrest := openLookup_rest hlook
  have hlookf : FilesCounted r.2 := by
    rw [hrest]
    exact hf.files.congr (fun _ => rfl) (fun _ => rfl) rfl rfl
  have hlookh : Held r.2 p fd s := by
    rw [hrest]
    exact h.congr rfl
  obtain ⟨t, j, ho⟩ := openSlot_opened hslot
  have hcur : r.2.current ∈ procs := by
    rw [hrest]
    exact hf.sound.placed.current_mem hu.1
  have hts : s ≠ t := by
    rintro rfl
    exact hlookh.refs_ne_zero (hlookf.getAvlSystemFile ho.slot).2
  refine ⟨hlookh.set (ho.set hcur) ?_, ?_⟩
  · rintro ⟨rfl, rfl⟩
    have hneg := ho.unused
    rw [hlookh.slot] at hneg
    omega
  · rw [ho.sysFileTable, Function.update_of_ne hts, hrest]

/-- **A descriptor that is not closed** keeps its slot, and the slot its inode; its position changes
only through one of its descriptors. -/
theorem held_step (hf : FilesKept k Q) (h : Held k p fd s) (hc : ¬closes p fd k e)
    (hk : step k e = .ok k') :
    Held k' p fd s ∧ (k'.sysFileTable s).inodeIndex = (k.sysFileTable s).inodeIndex ∧
      (¬through s k e → (k'.sysFileTable s).offset = (k.sysFileTable s).offset) := by
  have hs := h.slot_lt hf.files
  cases onFiles_of_step hf.sound hk with
  | same hsame =>
    refine ⟨h.congr (hsame.filepointer p), ?_, fun _ => ?_⟩
    · rw [hsame.sysFileTable]
    · rw [hsame.sysFileTable]
  | @access c fd' a t hu hacc ht hmoved hstep =>
    refine ⟨h.congr (hmoved.filepointer p), ?_, ?_⟩
    · by_cases hts : s = t
      · subst hts
        exact hmoved.inodeIndex
      · rw [hmoved.others s hts]
    · intro hno
      have hts : s ≠ t := by
        rintro rfl
        exact hno ⟨c, fd', a, rfl, hacc, ht⟩
      rw [hmoved.others s hts]
  | openFile hu hstr hlook hslot =>
    obtain ⟨hheld, htab⟩ := h.openFile hf hu hlook hslot
    exact ⟨hheld, by rw [htab], fun _ => by rw [htab]⟩
  | @close fd' hu hclose =>
    obtain ⟨t, ht, -⟩ := bind_eq_ok.mp hclose
    have hcl := closeAux_slot ht hclose
    have hheld := h.close hf hu hc hclose
    by_cases hts : s = t
    · subst hts
      have htab : k'.sysFileTable s =
          { k.sysFileTable s with linkNum := i32 ((k.sysFileTable s).linkNum - 1) } := by
        rw [hcl.sysFileTable, Function.update_self, SysFile.released,
          if_neg (h.linkNum_close hf hu hc ht hclose)]
      exact ⟨hheld, by rw [htab], fun _ => by rw [htab]⟩
    · have htab : k'.sysFileTable s = k.sysFileTable s := by
        rw [hcl.sysFileTable, Function.update_of_ne hts]
      exact ⟨hheld, by rw [htab], fun _ => by rw [htab]⟩
  | remove hu hstr hrm heq =>
    rw [heq]
    exact ⟨h.congr rfl, rfl, fun _ => rfl⟩
  | fork hu hfork =>
    obtain ⟨hnew, -, -, nx, rfl⟩ := forkAux_placed hf.sound.placed hfork
    have hne : p ≠ .pcb k.pNum := by
      rintro rfl
      exact h.not_free hf hnew
    have htab := hf.files.forked_slot (hf.sound.placed.current_mem hu.1) hs nx
    refine ⟨h.congr ?_, by rw [htab], fun _ => by rw [htab]⟩
    rw [Kernel.relink_pcb, forked_pcb, if_neg hne]

end OsLab
