import OsLab.Files.Layout
import OsLab.Files.StoreRuns
import OsLab.Lib.SafeStore
import OsLab.Memory.Loader

/-!
# The machine is switched off and on

Here a run goes over many starts of the machine (`powerStep`). What lasts are the two megabytes that an
`exit` has written back, and the sectors in front of them, which hold the application.

* `AppFits`: the application can be loaded, and its sectors stay below the file system. Then what is
  loaded is what was written back (`load_sameBytes`).
* `IsSafe`: the kernel has the files of a `Lib.SafeStore`, and the disk those that are saved in it;
  `isSafe_step` is the step.
* **`power_refines`**: so over all its starts the machine is such a store.
* **`power_recovers`**: a start brings back the files of the last exit.
* **`file_survives`**: what was written before an exit is read after any number of starts.

The tests use a disk without an application, on which everything but the file system is zero (`NoApp`).
-/

namespace OsLab

open OsLab.Lib

variable {disk disk' : Disk} {mem : ℕ → UInt8} {buffer o : ℕ} {fs : FileSystem} {s : ProgramHeader}
  {k k' k0 : Kernel} {Q : Queues} {e : Event} {ev : PowerEvent} {evs : List PowerEvent}
  {own : Set ℕ} {files : FilePath → Option (List UInt8)} {τ : SafeStore Node FilePath UInt8}

/-! ### What is loaded -/

/-- Where the application begins on the disk. -/
abbrev USER_OFFSET : ℕ := 512 + 102400

/-- The application begins at a sector. -/
theorem userOffset_aligned : SECTSIZE ∣ USER_OFFSET := ⟨201, rfl⟩

/-- The application can be loaded, and what its segments store, whole sectors, keeps off the kernel's
buffer and the memory that the kernel runs in, and below the file system. -/
structure AppFits (disk : Disk) (buffer : ℕ) (own : Set ℕ) : Prop where
  loadable : Loadable disk USER_OFFSET buffer own
  offset : ∀ s ∈ segments disk USER_OFFSET, 0 < s.filesz.toNat → USER_OFFSET + s.off.toNat < 2 ^ 31
  back : ∀ s ∈ segments disk USER_OFFSET, 0 < s.filesz.toNat →
    (USER_OFFSET + s.off.toNat) % SECTSIZE ≤ s.paddr.toNat
  clear : ∀ s ∈ segments disk USER_OFFSET, ∀ a, storeAt disk USER_OFFSET s a ≠ none →
    (a < buffer ∨ buffer + 4096 ≤ a) ∧ a < FS_OFFSET_IN_MEM ∧ a ∉ own
  below : buffer + 4096 ≤ FS_OFFSET_IN_MEM

/-- Then it is loaded as its headers say. -/
theorem AppFits.direct (h : AppFits disk buffer own) : Direct disk USER_OFFSET buffer own where
  offset := h.offset
  back := h.back
  table s hs i hi b hb := by
    have htable := h.loadable.table
    have hnone : storeAt disk USER_OFFSET s (buffer + tableAt disk USER_OFFSET + i) = none := by
      by_contra hne
      obtain ⟨hout, -⟩ := h.clear s hs _ hne
      omega
    have hcovers : ¬s.covers (buffer + tableAt disk USER_OFFSET + i) := by
      intro ha
      have := h.loadable.apart s hs _ ha
      omega
    rw [storeAt_of_not_covers hcovers, hb] at hnone
    cases hnone
  outside s hs a ha := by
    rw [← storeAt_of_not_covers fun hcov => h.loadable.outside s hs a hcov ha]
    by_contra hne
    exact (h.clear s hs a hne).2.2 ha

/-- **The application** leaves the file system alone. -/
theorem AppFits.loadUMain_fs (h : AppFits disk buffer own) :
    (loadUMain disk buffer mem).1 (FS_OFFSET_IN_MEM + o) = mem (FS_OFFSET_IN_MEM + o) := by
  have hload : (loadUMain disk buffer mem).1 = overlays (readBytes disk buffer USER_OFFSET 4096 mem)
      ((segments disk USER_OFFSET).map (storeAt disk USER_OFFSET)) :=
    loadElf_eq userOffset_aligned (by decide) h.loadable h.direct
  have hbelow := h.below
  rw [hload, overlays_of_none, readBytes_headers_other userOffset_aligned (by decide) (by omega)]
  intro w hw
  obtain ⟨s, hs, rfl⟩ := List.mem_map.mp hw
  by_contra hne
  have := (h.clear s hs _ hne).2.1
  omega

/-- **What is loaded** is the file system of the disk. -/
theorem load_sameBytes (h : AppFits disk buffer own) (hl : Loads disk fs) :
    SameBytes fs (Image.load disk buffer mem).fs := by
  intro o ho
  exact byte_ofBytes.trans (h.loadUMain_fs.trans (hl mem o ho))

/-- **The application** depends on the sectors in front of the file system only. -/
theorem AppFits.congr (h : AppFits disk buffer own) (hfront : ∀ s < FS_SECTOR, disk' s = disk s) :
    AppFits disk' buffer own := by
  have hfile : ∀ o < 4096, fileByte disk' USER_OFFSET o = fileByte disk USER_OFFSET o := by
    intro o ho
    unfold fileByte diskByte
    rw [hfront]
    simp only [USER_OFFSET, SECTSIZE, FS_SECTOR]
    omega
  have htable := h.loadable.table
  have hhead : fileHeader disk' USER_OFFSET = fileHeader disk USER_OFFSET :=
    elfHeader_congr fun i hi => by
      rw [Nat.zero_add]
      exact hfile i (by omega)
  have hat : tableAt disk' USER_OFFSET = tableAt disk USER_OFFSET := by rw [tableAt, hhead, tableAt]
  have hsize : tableSize disk' USER_OFFSET = tableSize disk USER_OFFSET := by
    rw [tableSize, hhead, tableSize]
  have hseg : segments disk' USER_OFFSET = segments disk USER_OFFSET := by
    unfold segments segmentsFrom
    rw [hhead]
    congr 1
    apply List.map_congr_left
    intro i hi
    have hi : i < (fileHeader disk USER_OFFSET).phnum.toNat := by
      rw [List.mem_range'_1] at hi
      omega
    unfold headerOf
    rw [hat]
    refine programHeader_congr fun j hj => hfile _ ?_
    unfold tableSize at htable
    simp only [PH_SIZE] at hj htable ⊢
    omega
  exact {
    loadable := {
      table := by rw [hat, hsize]; exact h.loadable.table
      size := by rw [hseg]; exact h.loadable.size
      disjoint := by rw [hseg]; exact h.loadable.disjoint
      apart := by rw [hseg]; exact h.loadable.apart
      outside := by rw [hseg]; exact h.loadable.outside
      buffer := h.loadable.buffer }
    offset := by rw [hseg]; exact h.offset
    back := by rw [hseg]; exact h.back
    clear := by
      rw [hseg]
      exact fun s hs a ha => h.clear s hs a (mt storeAt_eq_none_iff.mpr ha)
    below := h.below }

/-- A file system with these files is on the disk. -/
def SavedOn (disk : Disk) (files : FilePath → Option (List UInt8)) : Prop :=
  ∃ fs, Loads disk fs ∧ WellFormed fs ∧ CleanFiles fs ∧ filesOf fs = files

/-! ### A disk without an application -/

/-- A disk with this file system and zeros in front of it. -/
def formatted (fs : FileSystem) : Disk := fun s i =>
  if FS_SECTOR ≤ s then fs.byte (SECTSIZE * (s - FS_SECTOR) + i) else 0

/-- The memory with the file system loaded, and with the zeros that `loadUMain` has taken for headers. -/
def loadedMem (fs : FileSystem) (buffer : ℕ) (mem : ℕ → UInt8) (a : ℕ) : UInt8 :=
  if FS_OFFSET_IN_MEM ≤ a ∧ a < FS_OFFSET_IN_MEM + FS_SIZE then fs.byte (a - FS_OFFSET_IN_MEM)
  else if buffer ≤ a ∧ a < buffer + 4096 then 0
  else mem a

/-- What is loaded then. -/
def Image.loaded (fs : FileSystem) (disk : Disk) (buffer : ℕ) (mem : ℕ → UInt8) : Image where
  mem := loadedMem fs buffer mem
  semValue a := intOf (wordAt (loadedMem fs buffer mem) a)
  fs := .ofBytes fun o => loadedMem fs buffer mem (FS_OFFSET_IN_MEM + o)
  disk := disk
  entry := 0

/-- `loadFS` writes nothing but the file system. -/
theorem loadFS_eq {a : ℕ} : loadFS disk mem a =
    if FS_OFFSET_IN_MEM ≤ a ∧ a < FS_OFFSET_IN_MEM + FS_SIZE then
      diskByte disk (SECTSIZE * FS_SECTOR + (a - FS_OFFSET_IN_MEM))
    else mem a := by
  have hoff : FS_OFFSET_IN_DISK = ((SECTSIZE * FS_SECTOR : ℕ) : ℤ) := by decide
  have hlim : ∀ s, SECTSIZE * FS_SECTOR / SECTSIZE ≤ s → s < sectors (SECTSIZE * FS_SECTOR + FS_SIZE) →
      s < 2 ^ 28 := fun s _ hs => Nat.lt_trans hs (by decide)
  have hlen : SECTSIZE * sectors (SECTSIZE * FS_SECTOR % SECTSIZE + FS_SIZE) = FS_SIZE := by decide
  have hmod : SECTSIZE * FS_SECTOR % SECTSIZE = 0 := by decide
  unfold loadFS
  rw [hoff, readBytes_eq (by omega) hlim, hlen, hmod, memSet_eq, Nat.add_zero]
  by_cases h : FS_OFFSET_IN_MEM ≤ a ∧ a < FS_OFFSET_IN_MEM + FS_SIZE
  · rw [if_pos h, if_pos h, Nat.add_sub_assoc h.1]
  · rw [if_neg h, if_neg h, if_neg h]

/-- The file system of a formatted disk. -/
theorem loads_formatted (fs : FileSystem) : Loads (formatted fs) fs := by
  intro mem o ho
  have hsize : SECTSIZE = 512 := rfl
  have hsect : (SECTSIZE * FS_SECTOR + o) / SECTSIZE = FS_SECTOR + o / SECTSIZE := by
    rw [hsize]
    omega
  have hbyte : (SECTSIZE * FS_SECTOR + o) % SECTSIZE = o % SECTSIZE := by
    rw [hsize]
    omega
  rw [loadFS_eq, if_pos (by omega), Nat.add_sub_cancel_left, diskByte, hsect, hbyte, formatted,
    if_pos (Nat.le_add_right ..), Nat.add_sub_cancel_left, Nat.div_add_mod]

/-- There are zeros in front of the file system. -/
def NoApp (disk : Disk) : Prop := ∀ s < FS_SECTOR, disk s = fun _ => 0

/-- A disk that is only formatted has no application. -/
theorem noApp_formatted (fs : FileSystem) : NoApp (formatted fs) := by
  intro s hs
  funext i
  exact if_neg (by omega)

namespace NoApp

/-- Its header reads as zeros. -/
theorem fileByte_eq (h : NoApp disk) (ho : o < 4096) : fileByte disk USER_OFFSET o = 0 := by
  unfold fileByte diskByte
  rw [h]
  simp only [USER_OFFSET, SECTSIZE, FS_SECTOR]
  omega

/-- They are no application. -/
theorem fileHeader_eq (h : NoApp disk) : fileHeader disk USER_OFFSET = ⟨0, 0, 0⟩ := by
  have hzero : elfHeader (fun _ => 0) 0 = ⟨0, 0, 0⟩ := by decide
  rw [← hzero]
  exact elfHeader_congr fun i hi => h.fileByte_eq (by omega)

/-- Such a header fits everywhere. -/
theorem appFits (h : NoApp disk) (hb : buffer + 4096 ≤ FS_OFFSET_IN_MEM)
    (hown : ∀ a ∈ own, a < buffer ∨ buffer + 4096 ≤ a) : AppFits disk buffer own := by
  have hseg : segments disk USER_OFFSET = [] := by
    unfold segments
    rw [h.fileHeader_eq]
    rfl
  have hnone : ∀ s ∈ segments disk USER_OFFSET, False := by
    intro s hs
    rw [hseg] at hs
    cases hs
  exact {
    loadable := {
      table := by
        rw [tableAt, tableSize, h.fileHeader_eq]
        decide
      size := fun s hs => (hnone s hs).elim
      disjoint := by
        rw [hseg]
        exact .nil
      apart := fun s hs => (hnone s hs).elim
      outside := fun s hs => (hnone s hs).elim
      buffer := hown }
    offset := fun s hs => (hnone s hs).elim
    back := fun s hs => (hnone s hs).elim
    clear := fun s hs => (hnone s hs).elim
    below := hb }

/-- Without an application the loader reads the header and nothing more. -/
theorem loadUMain_eq (h : NoApp disk) : loadUMain disk buffer mem =
    (readBytes disk buffer USER_OFFSET 4096 mem, 0) := by
  have hhead : elfHeader (readBytes disk buffer USER_OFFSET 4096 mem) buffer = ⟨0, 0, 0⟩ := by
    rw [← h.fileHeader_eq]
    refine elfHeader_congr fun i hi => ?_
    rw [readBytes_headers userOffset_aligned (by decide) (by omega), Nat.zero_add]
  unfold loadUMain loadElf
  dsimp only
  rw [show USER_OFFSET_IN_DISK = (USER_OFFSET : ℤ) from rfl, hhead]
  exact Prod.ext rfl (congrArg ELFHeader.entry hhead)

/-- **What is loaded** then. -/
theorem load_eq (h : NoApp disk) (hl : Loads disk fs) (hb : buffer + 4096 ≤ FS_OFFSET_IN_MEM) :
    Image.load disk buffer mem = .loaded fs disk buffer mem := by
  have hmem : readBytes disk buffer USER_OFFSET 4096 (loadFS disk mem) = loadedMem fs buffer mem := by
    funext a
    unfold loadedMem
    by_cases hbuf : buffer ≤ a ∧ a < buffer + 4096
    · obtain ⟨i, rfl⟩ := Nat.exists_eq_add_of_le hbuf.1
      rw [readBytes_headers userOffset_aligned (by decide) (by omega), h.fileByte_eq (by omega),
        if_neg (by omega), if_pos hbuf]
    · rw [readBytes_headers_other userOffset_aligned (by decide) (by omega), if_neg hbuf]
      by_cases hfs : FS_OFFSET_IN_MEM ≤ a ∧ a < FS_OFFSET_IN_MEM + FS_SIZE
      · obtain ⟨i, rfl⟩ := Nat.exists_eq_add_of_le hfs.1
        rw [hl mem i (by omega), if_pos hfs, Nat.add_sub_cancel_left]
      · rw [loadFS_eq, if_neg hfs, if_neg hfs]
  unfold Image.load Image.loaded
  dsimp only
  rw [h.loadUMain_eq, hmem]

end NoApp

/-- Then power-on is start-up with what was loaded. -/
theorem powerOn_eq (h : NoApp disk) (hl : Loads disk fs) (hb : buffer + 4096 ≤ FS_OFFSET_IN_MEM) :
    powerOn disk buffer mem = boot (.loaded fs disk buffer mem) := by
  rw [powerOn, h.load_eq hl hb]

/-! ### The store that is saved -/

/-- What an event calls; an exit saves. -/
def safeCalls (k : Kernel) (ev : PowerEvent) (k' : Kernel) : List (SafeCall Node FilePath UInt8) :=
  match ev with
  | .event (.sys .exit) => [.save]
  | .event e => (storeCalls k e k').map .call
  | .power _ => [.restart]

/-- The events that keep the tables, with those of `regular`. -/
def steady (k : Kernel) : PowerEvent → Bool
  | .event e => regular k e
  | .power _ => true

/-- The kernel has the files of the store, and its disk those that are saved. -/
structure IsSafe (buffer : ℕ) (own : Set ℕ) (k : Kernel) (τ : SafeStore Node FilePath UInt8) : Prop where
  store : IsStore k τ.store
  saved : SavedOn k.disk τ.saved
  app : AppFits k.disk buffer own

/-- Start-up leaves the disk. -/
theorem disk_boot {img : Image} (hb : boot img = .ok k) : k.disk = img.disk := by
  obtain ⟨-, nx, rfl⟩ := placed_boot hb
  rfl

/-- **Switched on**, the machine has the files that are saved. -/
theorem isSafe_powerOn (hs : SavedOn disk files) (ha : AppFits disk buffer own)
    (hb : powerOn disk buffer mem = .ok k) : IsSafe buffer own k ⟨.fresh files, files⟩ := by
  have hdisk : k.disk = disk := disk_boot hb
  obtain ⟨fs, hl, hwf, hclean, rfl⟩ := hs
  have hsame : SameBytes fs (Image.load disk buffer mem).fs := load_sameBytes ha hl
  have hstore := isStore_boot hb (hsame.sameTree.wellFormed hwf) (hsame.cleanFiles hclean)
  rw [storeOf, hsame.filesOf_eq hwf hclean] at hstore
  refine ⟨hstore, ?_, ?_⟩
  · rw [hdisk]
    exact ⟨fs, hl, hwf, hclean, rfl⟩
  · rw [hdisk]
    exact ha

/-- An exit saves the files. -/
theorem isSafe_exit (h : IsSafe buffer own k τ) (hr : regular k (.sys .exit))
    (hk : step k (.sys .exit) = .ok k') : IsSafe buffer own k' ⟨τ.store, τ.store.files⟩ := by
  obtain ⟨⟨Q, hf, hst⟩, -, happ⟩ := h
  obtain ⟨hloads, hfront⟩ := disk_exit hf.sound hk
  have hkept := filesKept_step hf (orderly_of_regular hst hr) hk
  refine ⟨⟨_, hkept, ?_⟩, ⟨k.fs, hloads, hst.wf, hst.clean, hst.files.symm⟩, happ.congr hfront⟩
  rcases stored_step hst hf hr hk with ⟨-, hst'⟩ | ⟨c, σ, hc, -⟩
  · exact hst'
  · cases hc

/-- A write saves nothing. -/
theorem IsSafe.written {fd len : ℤ} {buf : ℕ} {σ : Store Node FilePath UInt8} (h : IsSafe buffer own k τ)
    (hw : step k (.sys (.write fd buf len)) = .ok k') (hst : IsStore k' σ) :
    IsSafe buffer own k' ⟨σ, τ.saved⟩ := by
  obtain ⟨⟨Q, hf, -⟩, hsaved, happ⟩ := h
  rw [← disk_step hf.sound (by simp) hw] at hsaved happ
  exact ⟨hst, hsaved, happ⟩

/-- Only an exit saves. -/
theorem exit_of_safeCalls (hc : safeCalls k ev k' = [.save]) : ev = .event (.sys .exit) := by
  unfold safeCalls at hc
  split at hc
  · rfl
  · next e _ =>
    have hmem : SafeCall.save ∈ (storeCalls k e k').map .call := by simp [hc]
    obtain ⟨c, -, hsave⟩ := List.mem_map.mp hmem
    cases hsave
  · cases hc

/-- Only a start restarts. -/
theorem power_of_safeCalls (hc : safeCalls k ev k' = [.restart]) : ∃ mem, ev = .power mem := by
  unfold safeCalls at hc
  split at hc
  · cases hc
  · next e _ =>
    have hmem : SafeCall.restart ∈ (storeCalls k e k').map .call := by simp [hc]
    obtain ⟨c, -, hrestart⟩ := List.mem_map.mp hmem
    cases hrestart
  · exact ⟨_, rfl⟩

/-- A call of the store is one of the kernel. -/
theorem storeCalls_of_safeCalls {c : StoreCall Node FilePath UInt8}
    (hc : safeCalls k ev k' = [.call c]) : ∃ e, ev = .event e ∧ storeCalls k e k' = [c] := by
  unfold safeCalls at hc
  split at hc
  · cases hc
  · next e _ =>
    refine ⟨e, rfl, List.map_injective_iff.mpr (fun _ _ h => SafeCall.call.inj h) ?_⟩
    exact hc
  · cases hc

/-- **One event**, as the calls that it makes; all of them are of a kind. -/
theorem isSafe_step {spec : SafeStore Node FilePath UInt8 → SafeCall Node FilePath UInt8 →
      SafeStore Node FilePath UInt8 → Prop} (h : IsSafe buffer own k τ) (hr : steady k ev)
    (hk : powerStep buffer k ev = .ok k')
    (hspec : ∀ c τ', safeCalls k ev k' = [c] → SafeStore.Step 0 τ c τ' → spec τ c τ') :
    ∃ τ', Trace spec τ (safeCalls k ev k') τ' ∧ IsSafe buffer own k' τ' := by
  cases ev with
  | power mem =>
    exact ⟨_, .single (hspec _ _ rfl .restart), isSafe_powerOn h.saved h.app hk⟩
  | event e =>
    by_cases he : e = .sys .exit
    · subst he
      exact ⟨_, .single (hspec _ _ rfl .save), isSafe_exit h hr hk⟩
    · have hcalls : safeCalls k (.event e) k' = (storeCalls k e k').map .call := by
        unfold safeCalls
        split
        · next heq => exact absurd (PowerEvent.event.inj heq) he
        · next heq =>
          obtain rfl := PowerEvent.event.inj heq
          rfl
        · next heq => cases heq
      obtain ⟨⟨Q, hf, hst⟩, hsaved, happ⟩ := h
      have hf' := filesKept_step hf (orderly_of_regular hst hr) hk
      have hdisk := disk_step hf.sound he hk
      rw [← hdisk] at hsaved happ
      rw [hcalls] at hspec ⊢
      rcases stored_step hst hf hr hk with ⟨hnil, hst'⟩ | ⟨c, σ, hc, hs, hst'⟩
      · rw [hnil]
        exact ⟨τ, .nil, ⟨_, hf', hst'⟩, hsaved, happ⟩
      · rw [hc] at hspec ⊢
        exact ⟨⟨σ, τ.saved⟩, .single (hspec _ _ rfl (.call hs)), ⟨_, hf', hst'⟩, hsaved, happ⟩

/-! ### A trial -/

/-- A formatted disk, without files. -/
def blankDisk : Disk := formatted Image.blank.fs

/-- The formatted disk has no application. -/
theorem blankDisk_noApp : NoApp blankDisk := noApp_formatted _

/-- The formatted disk can be loaded. -/
theorem blankDisk_loads : Loads blankDisk Image.blank.fs := loads_formatted _

/-- And its files are those of the formatted file system. -/
theorem blankDisk_saved : SavedOn blankDisk (filesOf Image.blank.fs) :=
  ⟨_, blankDisk_loads, blank_wellFormed, blank_cleanFiles, rfl⟩

/-- The buffer of the loader, and what is in memory. -/
abbrev trialBuffer : ℕ := 0x110000

/-- The kernel below its buffer. -/
def kernelImage : Set ℕ := { a | 0x100000 ≤ a ∧ a < trialBuffer }

/-- The buffer of the loader is away from the kernel. -/
theorem kernelImage_apart : ∀ a ∈ kernelImage, a < trialBuffer ∨ trialBuffer + 4096 ≤ a :=
  fun _ ha => .inl ha.2

/-- The memory when the power comes: a path is in it. -/
abbrev trialMem : ℕ → UInt8 := Image.withPath.mem

/-- The first process creates `/a`, writes two bytes to it, closes it and exits; the machine is switched
off and on, and the first process opens `/a` again. -/
structure Trial (k0 k1 k2 k3 k4 k5 k6 k7 : Kernel) : Prop where
  on : powerOn blankDisk trialBuffer trialMem = .ok k0
  opened : Reaches step (fun k e => regular k e) k0 openFirst k1
  opensA : opensA k1
  regular_write : regular k1 (.sys (.write 3 0x200300 2))
  written : step k1 (.sys (.write 3 0x200300 2)) = .ok k2
  regular_close : regular k2 (.sys (.close 3))
  closed : step k2 (.sys (.close 3)) = .ok k3
  regular_exit : regular k3 (.sys .exit)
  exited : step k3 (.sys .exit) = .ok k4
  again : powerOn k4.disk trialBuffer trialMem = .ok k5
  opened' : Reaches step (fun k e => regular k e) k5 openFirst k6
  opensA' : OsLab.opensA k6
  read : step k6 (.sys (.read 3 0x200400 2)) = .ok k7

/-- The events of the trial, up to the exit and from the start on. -/
def beforeExit : List Event := openFirst ++ [.sys (.write 3 0x200300 2)] ++ [.sys (.close 3)]

/-- The power comes back, and the first process opens the file again. -/
def afterExit : List PowerEvent := [.power trialMem] ++ openFirst.map .event

/-- The trial can be carried out. -/
theorem exists_trial : ∃ k0 k1 k2 k3 k4 k5 k6 k7, Trial k0 k1 k2 k3 k4 k5 k6 k7 := by
  have hrun : okAnd (boot (.loaded Image.blank.fs blankDisk trialBuffer trialMem)) (fun k0 =>
      (checkedRun step (fun k e => regular k e) k0 openFirst).any fun k1 => opensA k1 &&
        regular k1 (.sys (.write 3 0x200300 2)) && okAnd (step k1 (.sys (.write 3 0x200300 2))) fun k2 => regular k2 (.sys (.close 3)) &&
          okAnd (step k2 (.sys (.close 3))) fun k3 => regular k3 (.sys .exit) &&
            okAnd (step k3 (.sys .exit)) fun k4 =>
              okAnd (boot (.loaded k3.fs k4.disk trialBuffer trialMem)) fun k5 =>
                (checkedRun step (fun k e => regular k e) k5 openFirst).any fun k6 => opensA k6 &&
                  (step k6 (.sys (.read 3 0x200400 2))).toBool) = true := by
    decide +kernel
  obtain ⟨k0, h0, hrun⟩ := okAnd_eq_true.mp hrun
  obtain ⟨k1, h1, hrun⟩ := (Option.any_eq_true _ _).mp hrun
  obtain ⟨hopen1, hrun⟩ := Bool.and_eq_true_iff.mp hrun
  obtain ⟨hopen1, hwrite⟩ := Bool.and_eq_true_iff.mp hopen1
  obtain ⟨k2, h2, hrun⟩ := okAnd_eq_true.mp hrun
  obtain ⟨hclose, hrun⟩ := Bool.and_eq_true_iff.mp hrun
  obtain ⟨k3, h3, hrun⟩ := okAnd_eq_true.mp hrun
  obtain ⟨hexit, hrun⟩ := Bool.and_eq_true_iff.mp hrun
  obtain ⟨k4, h4, hrun⟩ := okAnd_eq_true.mp hrun
  obtain ⟨k5, h5, hrun⟩ := okAnd_eq_true.mp hrun
  obtain ⟨k6, h6, hrun⟩ := (Option.any_eq_true _ _).mp hrun
  obtain ⟨hopen6, hrun⟩ := Bool.and_eq_true_iff.mp hrun
  obtain ⟨k7, h7⟩ := exists_ok hrun
  have hr1 := Reaches.of_checkedRun h1
  have hk3 : runFrom (.load blankDisk trialBuffer trialMem)
      (openFirst ++ [.sys (.write 3 0x200300 2)] ++ [.sys (.close 3)]) = .ok k3 := by
    have hon : boot (.load blankDisk trialBuffer trialMem) = .ok k0 := by
      rw [blankDisk_noApp.load_eq blankDisk_loads (by decide)]
      exact h0
    exact runFrom_snoc_eq_ok.mpr ⟨k2, runFrom_snoc_eq_ok.mpr
      ⟨k1, bind_eq_ok.mpr ⟨k0, hon, hr1.run_eq⟩, h2⟩, h3⟩
  obtain ⟨Q, hs⟩ := sound_run hk3
  have hfront : NoApp k4.disk := fun s hs =>
    (front_run (runFrom_snoc_eq_ok.mpr ⟨k3, hk3, h4⟩) s hs).trans (blankDisk_noApp s hs)
  refine ⟨k0, k1, k2, k3, k4, k5, k6, k7, ?_, hr1, hopen1, hwrite, h2, hclose, h3, hexit, h4, ?_,
    .of_checkedRun h6, hopen6, h7⟩
  · rw [powerOn_eq blankDisk_noApp blankDisk_loads (by decide)]
    exact h0
  · rw [powerOn_eq hfront (disk_exit hs h4).1 (by decide)]
    exact h5

/-- Regular events keep the machine steady. -/
theorem steady_of_regular {es : List Event} (h : Reaches step (fun k e => regular k e) k es k') :
    Reaches (powerStep buffer) (fun k ev => steady k ev) k (es.map .event) k' := by
  have hmap : Reaches (powerStep buffer) (fun k ev => ∃ e, ev = .event e ∧ regular k e) k (es.map .event)
      k' := h.map fun _ _ => rfl
  refine hmap.mono fun k ev hev => ?_
  obtain ⟨e, rfl, hr⟩ := hev
  exact hr

namespace Trial

variable {k1 k2 k3 k4 k5 k6 k7 : Kernel}

/-- Before the exit it is a regular run. -/
theorem before (h : Trial k0 k1 k2 k3 k4 k5 k6 k7) :
    Reaches step (fun k e => regular k e) k0 beforeExit k3 :=
  (h.opened.snoc h.regular_write h.written).snoc h.regular_close h.closed

/-- After it the run is steady. -/
theorem after (h : Trial k0 k1 k2 k3 k4 k5 k6 k7) :
    Reaches (powerStep trialBuffer) (fun k ev => steady k ev) k4 afterExit k6 := by
  have hpower : Reaches (powerStep trialBuffer) (fun k ev => steady k ev) k4 ([] ++ [.power trialMem]) k5 :=
    .snoc .nil rfl h.again
  exact hpower.trans (steady_of_regular h.opened')

end Trial

/-! ### The machine is a store that is saved -/

/-- **After any number of starts** the machine has the files of the last exit. -/
theorem power_recovers {k1 k2 k3 : Kernel} {evs1 evs2 : List PowerEvent} {mem' : ℕ → UInt8}
    (hs : SavedOn disk files) (ha : AppFits disk buffer own) (hb : powerOn disk buffer mem = .ok k0)
    (hr1 : Reaches (powerStep buffer) (fun k ev => steady k ev) k0 evs1 k1)
    (hreg : regular k1 (.sys .exit)) (hexit : step k1 (.sys .exit) = .ok k2)
    (hr2 : Reaches (powerStep buffer) (fun k ev => steady k ev ∧ ev ≠ .event (.sys .exit)) k2 evs2 k3)
    (hon : powerOn k3.disk buffer mem' = .ok k) : filesOf k.fs = filesOf k1.fs := by
  obtain ⟨τ1, -, h1⟩ := hr1.simulates (R := IsSafe buffer own) (isSafe_powerOn hs ha hb)
    fun _ _ _ _ h hok hk => isSafe_step h hok hk fun _ _ _ hcall => hcall
  obtain ⟨τ3, htrace, h3⟩ :
      ∃ τ3, Trace (fun τ c τ' => SafeStore.Step 0 τ c τ' ∧ c ≠ .save) ⟨τ1.store, τ1.store.files⟩
        (log (powerStep buffer) safeCalls k2 evs2) τ3 ∧ IsSafe buffer own k3 τ3 :=
    hr2.simulates (isSafe_exit h1 hreg hexit) fun _ _ _ _ h hok hk =>
      isSafe_step h hok.1 hk fun c τ' hc hcall => by
        refine ⟨hcall, ?_⟩
        rintro rfl
        exact hok.2 (exit_of_safeCalls hc)
  obtain ⟨-, -, hst⟩ := (isSafe_powerOn h3.saved h3.app hon).store
  obtain ⟨-, -, hst1⟩ := h1.store
  rw [← hst.files, ← hst1.files]
  exact SafeStore.recovers .save htrace .restart

/-- After the trial the machine is switched on a third time. -/
theorem power_recovers_trial : ∃ k0 k3 k4 k6 k, powerOn blankDisk trialBuffer trialMem = .ok k0 ∧
    run step k0 beforeExit = .ok k3 ∧ step k3 (.sys .exit) = .ok k4 ∧
    run (powerStep trialBuffer) k4 afterExit = .ok k6 ∧ powerOn k6.disk trialBuffer trialMem = .ok k ∧
    filesOf k.fs = filesOf k3.fs := by
  obtain ⟨k0, k1, k2, k3, k4, k5, k6, k7, h⟩ := exists_trial
  obtain ⟨nx, hon, -⟩ := boot_eq (.load k6.disk trialBuffer trialMem)
  have hno : ∀ ev ∈ afterExit, ev ≠ .event (.sys .exit) := by
    intro ev hev
    rintro rfl
    simp [afterExit, openFirst] at hev
  exact ⟨k0, k3, k4, k6, _, h.on, h.before.run_eq, h.exited, h.after.run_eq, hon,
    power_recovers blankDisk_saved (blankDisk_noApp.appFits (by decide) kernelImage_apart) h.on
      (steady_of_regular h.before)
      h.regular_exit h.exited (h.after.and hno) hon⟩

/-- The event is a write to the file with this name. -/
def writesNamed (name : FilePath) (k : Kernel) (ev : PowerEvent) : Prop :=
  ∃ e, ev = .event e ∧ writesFile name k e

/-- A quiet event of the machine is a quiet call. -/
theorem quiet_of_calls {name : FilePath} {c : SafeCall Node FilePath UInt8}
    {τ' : SafeStore Node FilePath UInt8} (h : IsSafe buffer own k τ) (hk : powerStep buffer k ev = .ok k')
    (hno : ¬writesNamed name k ev) (hc : safeCalls k ev k' = [c]) (hcall : SafeStore.Step 0 τ c τ') :
    SafeStore.Quiet 0 name τ c τ' := by
  refine ⟨hcall, ?_⟩
  rintro c' rfl hw
  obtain ⟨e, rfl, hcalls⟩ := storeCalls_of_safeCalls hc
  obtain ⟨Q, -, hst⟩ := h.store
  exact hno ⟨e, rfl, writesFile_of_writesTo hst hcalls hk hw⟩

/-- **What has been written to a file before an exit** is read there after any number of starts, by
whatever process, if nobody writes to the file in between. -/
theorem file_survives {k1 k2 k3 k4 k5 k6 : Kernel} {evs1 evs3 : List PowerEvent} {es2 : List Event}
    {name : FilePath} {fd fd' len : ℤ} {buf buf' s s' : ℕ}
    (hs : SavedOn disk files) (ha : AppFits disk buffer own) (hb : powerOn disk buffer mem = .ok k0)
    (hr1 : Reaches (powerStep buffer) (fun k ev => steady k ev) k0 evs1 k1)
    (ho1 : OpenOn k1 fd s name) (hout : fd ≠ stdout) (h0 : 0 ≤ len)
    (hw : step k1 (.sys (.write fd buf len)) = .ok k2)
    (hr2 : Reaches step (fun k e => regular k e ∧ ¬writesFile name k e) k2 es2 k3)
    (hreg : regular k3 (.sys .exit)) (hexit : step k3 (.sys .exit) = .ok k4)
    (hr3 : Reaches (powerStep buffer) (fun k ev => steady k ev ∧ ¬writesNamed name k ev) k4 evs3 k5)
    (ho5 : OpenOn k5 fd' s' name) (hin : fd' ≠ stdin) (hbuf : buf' < 2 ^ 32)
    (hpos : (k5.sysFileTable s').offset = (k1.sysFileTable s).offset)
    (hrd : step k5 (.sys (.read fd' buf' len)) = .ok k6) :
    eaxOf k5 k6 = len.toNat ∧ loadBytes k6.mem (userBuf buf' k5) len.toNat =
      slice (bufByte k1 (userBuf buf k1)) 0 len.toNat := by
  -- the saved store that goes with the three runs
  obtain ⟨τ1, -, hsafe1⟩ := hr1.simulates (R := IsSafe buffer own) (isSafe_powerOn hs ha hb)
    fun _ _ _ _ h hok hk => isSafe_step h hok hk fun _ _ _ hcall => hcall
  obtain ⟨f, b, σ2, hb1, rfl, hoff1, hfit, hwrite, hst2⟩ := hsafe1.store.write ho1 hout h0 hw
  have hsafe2 : IsSafe buffer own k2 ⟨σ2, τ1.saved⟩ := hsafe1.written hw hst2
  have hr2' : Reaches (powerStep buffer)
      (fun k ev => ∃ e, ev = .event e ∧ regular k e ∧ ¬writesFile f.name k e) k2 (es2.map .event) k3 :=
    hr2.map fun _ _ => rfl
  obtain ⟨τ3, hquiet, hsafe3⟩ :
      ∃ τ3, Trace (fun τ c τ' => SafeStore.Quiet 0 f.name τ c τ' ∧ c ≠ .restart) ⟨σ2, τ1.saved⟩
        (log (powerStep buffer) safeCalls k2 (es2.map .event)) τ3 ∧ IsSafe buffer own k3 τ3 :=
    hr2'.simulates hsafe2 fun _ _ _ _ h hok hk => by
      obtain ⟨e, rfl, hreg, hno⟩ := hok
      refine isSafe_step h hreg hk fun c τ' hc hcall => ⟨quiet_of_calls h hk ?_ hc hcall, ?_⟩
      · rintro ⟨e', he, hw⟩
        obtain rfl := PowerEvent.event.inj he
        exact hno hw
      · rintro rfl
        obtain ⟨mem, hmem⟩ := power_of_safeCalls hc
        cases hmem
  obtain ⟨τ5, hquiet', hsafe5⟩ :
      ∃ τ5, Trace (SafeStore.Quiet 0 f.name) ⟨τ3.store, τ3.store.files⟩
        (log (powerStep buffer) safeCalls k4 evs3) τ5 ∧ IsSafe buffer own k5 τ5 :=
    hr3.simulates (isSafe_exit hsafe3 hreg hexit) fun _ _ _ _ h hok hk =>
      isSafe_step h hok.1 hk fun c τ' hc hcall => quiet_of_calls h hk hok.2 hc hcall
  obtain ⟨g, b', σ6, hb5, hname, hoff5, hread⟩ := hsafe5.store.read ho5 hin hbuf h0 (by omega) hrd
  have hgf : g.pos = f.pos := by exact_mod_cast hoff5.symm.trans (hpos.trans hoff1)
  exact loadBytes_eq_slice (SafeStore.survives hb1 (.call hwrite) hquiet .save hquiet' hb5 hname hgf
    (by rw [length_slice]; exact hread))

/-- In the trial the two bytes are read that were written before the exit. -/
theorem file_survives_trial : ∃ k0 k1 k3 k4 k6 k7, powerOn blankDisk trialBuffer trialMem = .ok k0 ∧
    run step k0 openFirst = .ok k1 ∧ run step k0 beforeExit = .ok k3 ∧ step k3 (.sys .exit) = .ok k4 ∧
    run (powerStep trialBuffer) k4 afterExit = .ok k6 ∧ step k6 (.sys (.read 3 0x200400 2)) = .ok k7 ∧
    eaxOf k6 k7 = 2 ∧
    loadBytes k7.mem (userBuf 0x200400 k6) 2 = slice (bufByte k1 (userBuf 0x200300 k1)) 0 2 := by
  obtain ⟨k0, k1, k2, k3, k4, k5, k6, k7, h⟩ := exists_trial
  have hclose : Reaches step (fun k e => regular k e ∧ ¬writesFile pathA k e) k2 ([] ++ [.sys (.close 3)]) k3 :=
    .snoc .nil ⟨h.regular_close, fun ⟨fd, buf, len, s, he, _⟩ => by cases he⟩ h.closed
  have hquiet : Reaches (powerStep trialBuffer) (fun k ev => steady k ev ∧ ¬writesNamed pathA k ev) k4
      afterExit k6 := by
    have hno : ∀ ev ∈ afterExit, ∀ fd buf len, ev ≠ .event (.sys (.write fd buf len)) := by
      intro ev hev fd buf len
      rintro rfl
      simp [afterExit, openFirst] at hev
    exact (h.after.and hno).mono fun k ev hev =>
      ⟨hev.1, fun ⟨e, he, fd, buf, len, s, hw, _⟩ => hev.2 fd buf len (by rw [he, hw])⟩
  obtain ⟨hopen1, hoff1⟩ := openOn_of_opensA h.opensA
  obtain ⟨hopen6, hoff6⟩ := openOn_of_opensA h.opensA'
  obtain ⟨heax, hbytes⟩ := file_survives blankDisk_saved
    (blankDisk_noApp.appFits (by decide) kernelImage_apart) h.on
    (steady_of_regular h.opened) hopen1 (by decide) (by decide) h.written hclose h.regular_exit h.exited hquiet
    hopen6 (by decide) (by decide) (hoff6.trans hoff1.symm) h.read
  exact ⟨k0, k1, k3, k4, k6, k7, h.on, h.opened.run_eq, h.before.run_eq, h.exited, h.after.run_eq, h.read,
    heax, hbytes⟩

end OsLab
