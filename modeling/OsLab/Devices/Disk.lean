import OsLab.Kernel.Loader
import OsLab.Scheduler.Sound

/-!
# The disk

The two sector loops are computed once and for all: `readBytes` puts whole sectors to whole pieces
of memory (`readSects_eq`), `writeBytes` the other way round (`writeSects_eq`), and the four port
writes name the sector they are meant to name, up to `2 ^ 28` (`lba_eq`).

* **`disk_round_trip`**: what `writeBytes` writes is what `readBytes` reads, and no other sector
  changes.
* `loadFS_writeBack`: so the file system survives `writeBack` and `loadFS`.
* `disk_step`, `disk_exit`: only exits touch the disk.
* **`disk_persists`**: so after any run the disk holds the file system of the last exit, and the
  sectors in front of it are those that the machine was started with.
-/

namespace OsLab

open OsLab.Lib

variable {mem mem' : ℕ → UInt8} {disk : Disk} {e addr cont n a s t i : ℕ} {sect diskoff : ℤ}

/-- The number of sectors that `n` bytes begin. -/
def sectors (n : ℕ) : ℕ := (n + (SECTSIZE - 1)) / SECTSIZE

/-! ### The sector number -/

/-- **The four ports** carry 28 bits. -/
theorem lba_eq (h : s < 2 ^ 28) : lba s = s := by
  have hw : ((s : ℤ) % 2 ^ 32).toNat = s := by omega
  have hor : ∀ x < 16, (x ||| 0xE0) % 16 = x := by decide
  have hhigh : s / 2 ^ 24 % 256 < 16 := by omega
  unfold lba
  dsimp only
  rw [hw, hor _ hhigh]
  omega

/-! ### The loops -/

/-- **The loop of `readBytes`**: all sectors that are begun are read whole. -/
theorem readSects_eq (hn : e ≤ addr + SECTSIZE * n) : readSects disk e n addr sect mem a =
    if addr ≤ a ∧ a < addr + SECTSIZE * sectors (e - addr) then
      disk (lba (sect + ((a - addr) / SECTSIZE : ℕ))) ((a - addr) % SECTSIZE)
    else mem a := by
  have hsize : SECTSIZE = 512 := rfl
  simp only [sectors, hsize] at hn ⊢
  induction n generalizing addr sect mem with
  | zero =>
    rw [readSects, if_neg (by omega)]
  | succ n ih =>
    rw [readSects, hsize]
    by_cases hlt : addr < e
    · rw [if_pos hlt, ih (by omega)]
      by_cases hin : addr + 512 ≤ a ∧ a < addr + 512 + 512 * ((e - (addr + 512) + (512 - 1)) / 512)
      · have hdiv : (a - addr) / 512 = (a - (addr + 512)) / 512 + 1 := by omega
        have hmod : (a - addr) % 512 = (a - (addr + 512)) % 512 := by omega
        rw [if_pos hin, if_pos (by omega), hdiv, hmod]
        congr 2
        omega
      · rw [if_neg hin, readSect, hsize]
        by_cases hfirst : addr ≤ a ∧ a < addr + 512
        · rw [if_pos hfirst, if_pos (by omega), Nat.div_eq_of_lt (by omega), Nat.mod_eq_of_lt (by omega)]
          simp
        · rw [if_neg hfirst, if_neg (by omega)]
    · rw [if_neg hlt, if_neg (by omega)]

/-- **The loop of `writeBytes`** writes these sectors, and no other. -/
theorem writeSects_eq (hn : e ≤ addr + SECTSIZE * n)
    (hlim : ∀ s, t ≤ s → s < t + sectors (e - addr) → s < 2 ^ 28) :
    writeSects mem e n addr t disk s i =
      if t ≤ s ∧ s < t + sectors (e - addr) ∧ i < SECTSIZE then
        mem (addr + SECTSIZE * (s - t) + i)
      else disk s i := by
  have hsize : SECTSIZE = 512 := rfl
  simp only [sectors, hsize] at hn hlim ⊢
  induction n generalizing addr t disk with
  | zero =>
    rw [writeSects, if_neg (by omega)]
  | succ n ih =>
    rw [writeSects, hsize]
    by_cases hlt : addr < e
    · have hcast : (t : ℤ) + 1 = (t + 1 : ℕ) := by push_cast; rfl
      rw [if_pos hlt, hcast, ih (by omega) fun s h1 h2 => hlim s (by omega) (by omega), writeSect,
        lba_eq (hlim t (by omega) (by omega)), hsize]
      by_cases hin : t + 1 ≤ s ∧ s < t + 1 + (e - (addr + 512) + (512 - 1)) / 512 ∧ i < 512
      · rw [if_pos hin, if_pos (by omega)]
        congr 1
        omega
      · rw [if_neg hin]
        by_cases hs : s = t
        · subst hs
          rw [Function.update_self]
          by_cases hi : i < 512
          · rw [if_pos hi, if_pos (by omega)]
            congr 1
            omega
          · rw [if_neg hi, if_neg (by omega)]
        · rw [Function.update_of_ne hs, if_neg (by omega)]
    · rw [if_neg hlt, if_neg (by omega)]

/-! ### `readBytes` and `writeBytes` -/

/-- The disk by bytes. -/
def diskByte (disk : Disk) (q : ℕ) : UInt8 := disk (q / SECTSIZE) (q % SECTSIZE)

/-- The remainder and the quotient of C, for offsets that are not negative. -/
theorem tmod_sectsize (d : ℕ) : (d : ℤ).tmod SECTSIZE = (d % SECTSIZE : ℕ) := by
  rw [Int.tmod_eq_emod_of_nonneg (by omega)]
  rfl

/-- The sector of an address. -/
theorem tdiv_sectsize (d : ℕ) : (d : ℤ).tdiv SECTSIZE = (d / SECTSIZE : ℕ) := by
  rw [Int.tdiv_eq_ediv_of_nonneg (by omega)]
  rfl

/-- **`readBytes`** at a disk offset that is not negative: the sectors that it begins are laid over
the memory so that the byte at the offset comes to the address. -/
theorem readBytes_eq {d : ℕ} (hback : d % SECTSIZE ≤ addr)
    (hlim : ∀ s, d / SECTSIZE ≤ s → s < sectors (d + cont) → s < 2 ^ 28) :
    readBytes disk addr d cont mem a =
      if addr ≤ a + d % SECTSIZE ∧ a + d % SECTSIZE < addr + SECTSIZE * sectors (d % SECTSIZE + cont) then
        diskByte disk (d + a - addr)
      else mem a := by
  have hsize : SECTSIZE = 512 := rfl
  unfold readBytes
  rw [tmod_sectsize, tdiv_sectsize]
  simp only [hsize, sectors] at hback hlim ⊢
  have hstart : (addr : ℤ) - (d % 512 : ℕ) = (addr - d % 512 : ℕ) := by omega
  rw [hstart, if_neg (by omega), Int.toNat_natCast,
    readSects_eq (by rw [hsize]; omega)]
  simp only [hsize, sectors, diskByte]
  have hlen : addr + cont - (addr - d % 512) = d % 512 + cont := by omega
  rw [hlen]
  by_cases hin : addr ≤ a + d % 512 ∧ a + d % 512 < addr + 512 * ((d % 512 + cont + (512 - 1)) / 512)
  · have hsect : (d / 512 : ℕ) + ((a - (addr - d % 512)) / 512 : ℕ) = (d + a - addr) / 512 := by omega
    have hcast : ((d / 512 : ℕ) : ℤ) + ((a - (addr - d % 512)) / 512 : ℕ) =
        ((d + a - addr) / 512 : ℕ) := by
      exact_mod_cast hsect
    have hbyte : (a - (addr - d % 512)) % 512 = (d + a - addr) % 512 := by omega
    rw [if_pos (by omega), if_pos hin, hcast, lba_eq (hlim _ (by omega) (by omega)), hbyte]
  · rw [if_neg (by omega), if_neg hin]

/-- **`writeBytes`** at an aligned disk offset. -/
theorem writeBytes_eq {d : ℕ} (mem : ℕ → UInt8) (addr : ℕ) (disk : Disk) (halign : SECTSIZE ∣ d)
    (hlim : ∀ s, d / SECTSIZE ≤ s → s < sectors (d + cont) → s < 2 ^ 28) :
    ∃ disk', writeBytes mem addr d cont disk = .ok disk' ∧ ∀ s i, disk' s i =
      if d / SECTSIZE ≤ s ∧ s < sectors (d + cont) ∧ i < SECTSIZE then
        mem (addr + SECTSIZE * (s - d / SECTSIZE) + i)
      else disk s i := by
  have hsize : SECTSIZE = 512 := rfl
  have hmod : d % SECTSIZE = 0 := Nat.mod_eq_zero_of_dvd halign
  have hend : d / SECTSIZE + sectors (addr + cont - addr) = sectors (d + cont) := by
    simp only [hsize, sectors] at hmod ⊢
    omega
  refine ⟨writeSects mem (addr + cont) cont addr (d / SECTSIZE : ℕ) disk, ?_, fun s i => ?_⟩
  · rw [writeBytes, tmod_sectsize, hmod, assert, if_pos (by simp), ok_bind, tdiv_sectsize]
  · rw [← hend] at hlim ⊢
    exact writeSects_eq (by rw [hsize]; omega) hlim

/-- **What is written is read**, wherever it is read to, and no other sector changes. -/
theorem disk_round_trip {d : ℕ} (mem : ℕ → UInt8) (addr : ℕ) (disk : Disk) (halign : SECTSIZE ∣ d)
    (hlim : ∀ s, d / SECTSIZE ≤ s → s < sectors (d + cont) → s < 2 ^ 28) :
    ∃ disk', writeBytes mem addr d cont disk = .ok disk' ∧
      (∀ addr' mem', ∀ i < cont, readBytes disk' addr' d cont mem' (addr' + i) = mem (addr + i)) ∧
      ∀ s, s < d / SECTSIZE ∨ sectors (d + cont) ≤ s → disk' s = disk s := by
  obtain ⟨disk', hwrite, hdisk⟩ := writeBytes_eq mem addr disk halign hlim
  have hsize : SECTSIZE = 512 := rfl
  have hmod : d % 512 = 0 := Nat.mod_eq_zero_of_dvd halign
  refine ⟨disk', hwrite, ?_, ?_⟩
  · intro addr' mem' i hi
    rw [readBytes_eq (by omega) hlim, if_pos (by simp only [hsize, sectors]; omega), diskByte, hdisk,
      if_pos (by simp only [hsize, sectors]; omega)]
    congr 1
    simp only [hsize]
    omega
  · intro s hs
    funext i
    rw [hdisk, if_neg (by omega)]

/-! ### The file system on the disk -/

/-- The bytes of the file system. -/
abbrev FS_SIZE : ℕ := FS_SIZE_MB * 1024 * 1024

/-- The first sector of the file system; the boot sector, the kernel and the application are in
front of it. -/
abbrev FS_SECTOR : ℕ := 221

/-- `loadFS` would load this file system, whatever is in memory. -/
def Loads (disk : Disk) (fs : FileSystem) : Prop :=
  ∀ mem, ∀ o < FS_SIZE, loadFS disk mem (FS_OFFSET_IN_MEM + o) = fs.byte o

/-- **`writeBack` and `loadFS`** are inverse, and nothing in front of the file system is written. -/
theorem loadFS_writeBack (fs : FileSystem) (disk : Disk) :
    ∃ disk', writeBack fs disk = .ok disk' ∧ Loads disk' fs ∧ ∀ s < FS_SECTOR, disk' s = disk s := by
  have hoff : FS_OFFSET_IN_DISK = ((SECTSIZE * FS_SECTOR : ℕ) : ℤ) := by decide
  have hfirst : SECTSIZE * FS_SECTOR / SECTSIZE = FS_SECTOR := by decide
  have hlast : sectors (SECTSIZE * FS_SECTOR + FS_SIZE) = 4317 := by decide
  have hlim : ∀ s, SECTSIZE * FS_SECTOR / SECTSIZE ≤ s → s < sectors (SECTSIZE * FS_SECTOR + FS_SIZE) →
      s < 2 ^ 28 := by
    intro s _ hs
    rw [hlast] at hs
    omega
  obtain ⟨disk', hwrite, hread, hother⟩ := disk_round_trip
    (fun a => fs.byte (a - FS_OFFSET_IN_MEM)) FS_OFFSET_IN_MEM disk ⟨FS_SECTOR, rfl⟩ hlim
  rw [← hoff] at hwrite hread
  refine ⟨disk', hwrite, ?_, fun s hs => hother s (.inl (by rwa [hfirst]))⟩
  intro mem o ho
  have h := hread FS_OFFSET_IN_MEM (memSet FS_OFFSET_IN_MEM (FS_OFFSET_IN_MEM + FS_SIZE) 0 mem) o ho
  rw [Nat.add_sub_cancel_left] at h
  exact h

variable {k k' k1 : Kernel} {Q : Queues} {ev : Event} {img : Image} {es es' : List Event}

/-- **No event but an exit** touches the disk. -/
theorem disk_step (h : Sound k Q) (he : ev ≠ .sys .exit) (hk : step k ev = .ok k') :
    k'.disk = k.disk := by
  cases does_of_step h hk with
  | timer hr hres => rw [resume_rest hres, hr.disk]
  | key hkey hres => rw [resume_rest hres, keyboardHandle_rest hkey]
  | exit _ _ => exact absurd rfl he
  | sleep hr => exact hr.disk
  | semWait hr => exact hr.disk
  | semPost hr => exact hr.disk
  | readStdin hp => rw [hp.rest]
  | file _ hf => rw [hf.rest]
  | _ => rfl

/-- **An exit** writes the file system back as it is. -/
theorem disk_exit (h : Sound k Q) (hk : step k (.sys .exit) = .ok k') :
    Loads k'.disk k.fs ∧ ∀ s < FS_SECTOR, k'.disk s = k.disk s := by
  simp only [step] at hk
  split_ifs at hk with hu
  obtain ⟨k2, d, hd, h2, -, -, hr, -⟩ := exitAux_placed h.placed hu.1
  obtain rfl := Except.ok.inj (h2.symm.trans hk)
  obtain ⟨disk', hwrite, hloads, hfront⟩ := loadFS_writeBack k.fs k.disk
  obtain rfl := Except.ok.inj (hd.symm.trans hwrite)
  rw [hr.disk]
  exact ⟨hloads, hfront⟩

/-- **A run without exits** leaves the disk as it is. -/
theorem disk_run (h : Sound k Q) (hr : run step k es = .ok k') (hes : ∀ e ∈ es, e ≠ .sys .exit) :
    k'.disk = k.disk := by
  have hreach : Reaches step (fun _ e => e ≠ .sys .exit) k es k' := .of_run hr hes
  obtain ⟨-, -, hdisk⟩ := hreach.invariant (P := fun _ k1 => ∃ Q, Sound k1 Q ∧ k1.disk = k.disk) ⟨Q, h, rfl⟩
    fun _ k1 k2 e _ ⟨Q, hs, hdisk⟩ he hk => ⟨_, (sound_step hs hk).1, (disk_step hs he hk).trans hdisk⟩
  exact hdisk

/-- **The sectors in front of the file system** are never written. -/
theorem front_run (hk : runFrom img es = .ok k) : ∀ s < FS_SECTOR, k.disk s = img.disk s := by
  have hinv : ∃ Q, Sound k Q ∧ ∀ s < FS_SECTOR, k.disk s = img.disk s := by
    refine runFrom_invariant (P := fun k => ∃ Q, Sound k Q ∧ ∀ s < FS_SECTOR, k.disk s = img.disk s)
      hk ?_ ?_
    · intro k0 hb
      refine ⟨_, sound_boot hb, fun s _ => ?_⟩
      obtain ⟨-, nx, rfl⟩ := placed_boot hb
      rfl
    · rintro k1 k2 e ⟨Q, hs, hfront⟩ h2
      refine ⟨_, (sound_step hs h2).1, fun s hlt => ?_⟩
      by_cases he : e = .sys .exit
      · subst he
        rw [(disk_exit hs h2).2 s hlt, hfront s hlt]
      · rw [disk_step hs he h2, hfront s hlt]
  obtain ⟨-, -, hfront⟩ := hinv
  exact hfront

/-- **Persistence.** A range that `writeBytes` has written is read back by `readBytes`, wherever to,
and no sector outside the range changes; and when the machine is started again after any run, `loadFS`
loads the file system of the last exit, and the boot, kernel and application sectors are the old
ones. -/
theorem disk_persists :
    (∀ (mem : ℕ → UInt8) (disk : Disk) (addr diskoff cont : ℕ), SECTSIZE ∣ diskoff →
      (∀ s, diskoff / SECTSIZE ≤ s → s < sectors (diskoff + cont) → s < 2 ^ 28) →
      ∃ disk', writeBytes mem addr diskoff cont disk = .ok disk' ∧
        (∀ addr' mem', ∀ i < cont, readBytes disk' addr' diskoff cont mem' (addr' + i) = mem (addr + i)) ∧
        ∀ s, s < diskoff / SECTSIZE ∨ sectors (diskoff + cont) ≤ s → disk' s = disk s) ∧
    (∀ (fs : FileSystem) (disk : Disk), ∃ disk', writeBack fs disk = .ok disk' ∧ Loads disk' fs ∧
      ∀ s < FS_SECTOR, disk' s = disk s) ∧
    (∀ (img : Image) (es es' : List Event) (k k1 k' : Kernel), runFrom img es = .ok k →
      step k (.sys .exit) = .ok k1 → run step k1 es' = .ok k' → (∀ e ∈ es', e ≠ .sys .exit) →
      Loads k'.disk k.fs) ∧
    ∀ (img : Image) (es : List Event) (k : Kernel), runFrom img es = .ok k →
      ∀ s < FS_SECTOR, k.disk s = img.disk s := by
  refine ⟨fun mem disk addr diskoff cont halign hlim => disk_round_trip mem addr disk halign hlim, loadFS_writeBack,
    ?_, fun img es k hk => front_run hk⟩
  intro img es es' k k1 k' hk hexit hrun hno
  obtain ⟨Q, hs⟩ := sound_run hk
  rw [disk_run (sound_step hs hexit).1 hrun hno]
  exact (disk_exit hs hexit).1

/-- A range of 700 bytes goes to the third sector and comes back; a process exits. -/
theorem disk_persists_exit :
    (∀ (mem : ℕ → UInt8) (disk : Disk), ∃ disk', writeBytes mem 0x9000 (1024 : ℕ) 700 disk = .ok disk' ∧
      ∀ mem', ∀ i < 700, readBytes disk' 0x8000 (1024 : ℕ) 700 mem' (0x8000 + i) = mem (0x9000 + i)) ∧
    ∃ k k1, runFrom .blank (.replicate 10 .timer) = .ok k ∧ step k (.sys .exit) = .ok k1 ∧
      Loads k1.disk k.fs := by
  obtain ⟨htrip, -, hexit, -⟩ := disk_persists
  refine ⟨fun mem disk => ?_, ?_⟩
  · obtain ⟨disk', hwrite, hread, -⟩ := htrip mem disk 0x9000 1024 700 ⟨2, rfl⟩
      (by intro s _ hs; exact Nat.lt_trans hs (by decide))
    exact ⟨disk', hwrite, fun mem' => hread 0x8000 mem'⟩
  · have hrun : okAnd (runFrom .blank (.replicate 10 .timer)) (fun k =>
        okAnd (step k (.sys .exit)) fun _ => true) = true := by decide +kernel
    obtain ⟨k, hk, hp⟩ := okAnd_eq_true.mp hrun
    obtain ⟨k1, h1, -⟩ := okAnd_eq_true.mp hp
    exact ⟨k, k1, hk, h1, hexit .blank _ [] k k1 k1 hk h1 rfl (by simp)⟩

end OsLab
