import OsLab.Files.Bounds
import OsLab.Files.Fitting
import OsLab.Kernel.Device

/-!
# New files

A file that `open_aux` creates should be empty, and show nothing but what is written to it
(`NewFileClean`): lseek, write and read are the steps of the machine of `Files.Access`. But `makeFL`
without data sets the type and the name of the inode only, and `rmFL` only marks it free: size and
block of the file that had the inode before are still there.

* `newFileClean_iff`: with writes that fit (`WriteFits`) a file is clean iff its size is 0 and its
  block is zero, but for the last byte, which no file is long enough to show.
* `reads_before_start`: a write of nothing at position -1 makes any file 4 GiB long, and a read then
  gets what lies before the block. `readMemory` is the loop of `readF` on the memory around the file;
  inside the block it is that of the model (`readMemory_of_readLoop`).
* `new_file_clean_iff`: so a new file is clean iff the inode that was free is, and none is without the
  restriction on writes.
* `removed_file_shows`: a run that removes a file and finds its size in the next one.
-/

namespace OsLab

open OsLab.Lib

variable {k k' : Kernel} {fs fs' : FileSystem} {d : Inode} {buf : ℕ → UInt8} {i n : ℕ} {o : ℤ}
  {as : List FileAccess} {st st' : FileSystem × ℤ} {es : List Event} {img : Image}

/-! ### The two loops on any positions -/

/-- A write puts bytes of its buffer into the block. -/
theorem writeLoop_mem {j : ℕ} {block block' : ℕ → UInt8} (h : writeLoop buf o n j block = .ok block')
    (a : ℕ) : block' a = block a ∨ ∃ m, j ≤ m ∧ m < j + n ∧ block' a = buf m := by
  induction n generalizing j block with
  | zero =>
    obtain rfl := Except.ok.inj h
    exact .inl rfl
  | succ n ih =>
    rw [writeLoop] at h
    split_ifs at h with hpos
    rcases ih h with heq | ⟨m, h1, h2, heq⟩
    · rw [Function.update_apply] at heq
      split_ifs at heq
      · exact .inr ⟨j, Nat.le_refl j, by omega, heq⟩
      · exact .inl heq
    · exact .inr ⟨m, by omega, by omega, heq⟩

/-- A read returns bytes of the block, and none behind the end of the file. -/
theorem readLoop_mem {j : ℕ} {bytes : List UInt8} (h : readLoop d o n j = .ok bytes) :
    ∀ b ∈ bytes, ∃ a < d.filesz.toNat, b = d.block a := by
  induction n generalizing j bytes with
  | zero =>
    obtain rfl := Except.ok.inj h
    simp
  | succ n ih =>
    rw [readLoop] at h
    split_ifs at h with hlt
    · dsimp only at h
      rw [maxFileSz] at h
      split_ifs at h with hpos
      obtain ⟨rest, hrest, h⟩ := bind_eq_ok.mp h
      obtain rfl := Except.ok.inj h
      intro b hb
      rcases List.mem_cons.mp hb with rfl | hb
      · refine ⟨_, ?_, rfl⟩
        have hlt := UInt32.lt_iff_toNat_lt.mp hlt
        have hword : ((j + o) % 2 ^ 32).toNat < 2 ^ 32 := by omega
        rw [wordOf, UInt32.toNat_ofNat_of_lt' hword] at hlt
        unfold i32 at hpos ⊢
        omega
      · exact ih hrest b hb
    · obtain rfl := Except.ok.inj h
      simp

/-! ### Clean files -/

/-- The bytes that a call writes. -/
def FileAccess.bytes : FileAccess → List UInt8
  | .write buf len => slice buf 0 len.toNat
  | _ => []

/-- A write on the file fits. -/
def fittingAccess (st : FileSystem × ℤ) (a : FileAccess) : Prop := a.fits st.2

/-- The file in inode `i` is empty, and whatever calls are made on it, as long as the writes fit, every
read returns, and every byte read is one that was written, or 0. -/
structure NewFileClean (fs : FileSystem) (i : ℕ) : Prop where
  empty : (fs.inode i).filesz = 0
  clean : ∀ as st, Reaches (accessStep i) fittingAccess (fs, 0) as st → ∀ len, ∃ bytes,
    readF st.1 i len st.2 = .ok bytes ∧ ∀ b ∈ bytes, b = 0 ∨ b ∈ as.flatMap FileAccess.bytes

/-- The size of an inode is zero, and so is its block, but for the last byte. -/
def Inode.Blank (d : Inode) : Prop := d.filesz = 0 ∧ ∀ a, a + 1 < MAX_FILE_SZ_KB * 1024 → d.block a = 0

/-- What is in the block after some calls. -/
theorem block_of_run (h : run (accessStep i) st as = .ok st') (a : ℕ) :
    (st'.1.inode i).block a = (st.1.inode i).block a ∨
      (st'.1.inode i).block a ∈ as.flatMap FileAccess.bytes := by
  induction as using List.reverseRecOn generalizing st' with
  | nil =>
    obtain rfl := Except.ok.inj h
    exact .inl rfl
  | append_singleton as c ih =>
    obtain ⟨st1, h1, hc⟩ := run_snoc_eq_ok.mp h
    rw [List.flatMap_append]
    have hold := ih h1
    rcases accessStep_fs hc with hfs | ⟨buf, len, v, rfl, hw⟩
    · rw [hfs]
      exact hold.imp id fun hm => List.mem_append_left _ hm
    · obtain ⟨x, -, hx, block, hblock, -, -, hfs⟩ := writeF_inv hw
      obtain rfl : i = x := by exact_mod_cast hx
      have hnew : (st'.1.inode i).block = block := by
        rw [hfs, setInode_self]
      rw [hnew]
      rcases writeLoop_mem hblock a with heq | ⟨m, -, hm, heq⟩
      · rw [heq]
        exact hold.imp id fun hm => List.mem_append_left _ hm
      · right
        rw [heq]
        refine List.mem_append_right _ ?_
        have hlt : (m : ℤ) < len := by omega
        simpa [FileAccess.bytes, slice] using ⟨m, hlt, rfl⟩

/-- A write of nothing extends the file up to its position. -/
theorem writeF_nothing (hi : i < NR_INODE) (ho : i32 o < MAX_FILE_SZ_KB * 1024) :
    writeF fs i (fun _ => 0) 0 o =
      .ok (fs.setInode i { fs.inode i with size := sizeAfter (fs.inode i) o 0 }, 0) := by
  have hassert : i32 (0 + o) < MAX_FILE_SZ_KB * 1024 := by rwa [zero_add]
  rw [writeF, assert, if_pos hassert, ok_bind, inodeAt_eq hi, ok_bind]
  rfl

/-- With writes that fit a file ends before the last byte of its block. -/
theorem filesz_of_reaches (hi : i < NR_INODE) (h0 : (fs.inode i).filesz = 0)
    (h : Reaches (accessStep i) fittingAccess (fs, 0) as st) : (st.1.inode i).filesz.toNat < 32768 := by
  refine h.invariant (P := fun _ st => (st.1.inode i).filesz.toNat < 32768) ?_ ?_
  · rw [h0]
    decide
  · intro as st st' a _ hlt hfits hstep
    rcases accessStep_fs hstep with hfs | ⟨buf, len, v, rfl, hw⟩
    · rwa [hfs]
    · rcases writeF_cases st.1 buf len st.2 hi with ⟨-, he⟩ | ⟨hpass, ⟨-, he⟩ | ⟨-, b, he⟩⟩
      · rw [he] at hw
        cases hw
      · rw [he] at hw
        cases hw
      · have hfs : st'.1 = _ := (Prod.mk.inj (Except.ok.inj (he.symm.trans hw))).1.symm
        rw [hfs, setInode_self]
        rw [maxFileSz] at hpass
        have hend : 0 ≤ i32 (len + st.2) := by
          rcases hfits with hstop | ⟨hend, -⟩
          · rw [maxFileSz] at hstop
            omega
          · exact hend
        have hword : (wordOf (st.2 + len)).toNat = (i32 (len + st.2)).toNat := by
          have hlt' : ((st.2 + len) % 2 ^ 32).toNat < 2 ^ 32 := by omega
          rw [wordOf, UInt32.toNat_ofNat_of_lt' hlt', add_comm]
          unfold i32 at hend hpass ⊢
          omega
        change (sizeAfter (st.1.inode i) st.2 len).toNat < 32768
        unfold sizeAfter
        split_ifs
        · exact hlt
        · omega

/-- Calls on an empty file that end at byte `a`, with the file just long enough to show it: nothing is
written behind the byte. -/
theorem reaches_showing (hi : i < NR_INODE) (h0 : (fs.inode i).filesz = 0) {a : ℕ} (ha : a + 1 < 32768) :
    ∃ fs', Reaches (accessStep i) fittingAccess (fs, 0)
        [.seek ((a : ℤ) + 1) 0, .write (fun _ => 0) 0, .seek a 0] (fs', (a : ℤ)) ∧
      (fs'.inode i).block = (fs.inode i).block ∧ (fs'.inode i).filesz.toNat = a + 1 := by
  have hpos : i32 ((a : ℤ) + 1) = a + 1 := i32_eq_self (by omega) (by omega)
  have hend : i32 ((a : ℤ) + 1) < MAX_FILE_SZ_KB * 1024 := by
    rw [hpos, maxFileSz]
    omega
  have hseek : ∀ (st : FileSystem × ℤ) (o : ℤ), accessStep i st (.seek o 0) = .ok (st.1, o) :=
    fun st o => by rw [accessStep, if_pos rfl]
  set fs' := fs.setInode i { fs.inode i with size := sizeAfter (fs.inode i) ((a : ℤ) + 1) 0 }
  refine ⟨fs', ?_, ?_, ?_⟩
  · have h1 : Reaches (accessStep i) fittingAccess (fs, 0) [.seek ((a : ℤ) + 1) 0] (fs, (a : ℤ) + 1) :=
      .snoc .nil trivial (hseek _ _)
    have h2 : Reaches (accessStep i) fittingAccess (fs, 0)
        [.seek ((a : ℤ) + 1) 0, .write (fun _ => 0) 0] (fs', i32 ((a : ℤ) + 1 + 0)) := by
      refine .snoc h1 (.inr ⟨?_, .inl le_rfl⟩) ?_
      · rw [zero_add, hpos]
        omega
      · rw [accessStep, writeF_nothing hi hend, ok_bind]
    exact .snoc h2 trivial (hseek _ _)
  · rw [setInode_self]
  · have hword : (wordOf ((a : ℤ) + 1 + 0)).toNat = a + 1 := by
      have := toNat_wordOf (x := (a : ℤ) + 1 + 0) (by omega) (by omega)
      omega
    rw [setInode_self]
    change (sizeAfter (fs.inode i) ((a : ℤ) + 1) 0).toNat = a + 1
    rw [sizeAfter, h0, if_neg UInt32.not_lt_zero, hword]

/-- **A file is clean** iff there is nothing in its inode. -/
theorem newFileClean_iff (hi : i < NR_INODE) : NewFileClean fs i ↔ (fs.inode i).Blank := by
  constructor
  · intro h
    refine ⟨h.empty, ?_⟩
    intro a ha
    have ha : a + 1 < 32768 := ha
    obtain ⟨fs', hrun, hblock, hsize⟩ := reaches_showing hi h.empty ha
    have hfits : (fs'.files i).size ≤ 32768 := by
      change (fs'.inode i).filesz.toNat ≤ 32768
      omega
    obtain ⟨bytes, hread, hclean⟩ := h.clean _ _ hrun 1
    obtain rfl := Except.ok.inj (hread.symm.trans (readF_eq hi hfits (by omega)))
    have hshown : (fs'.inode i).block a ∈ (fs'.files i).read a 1 := by
      have hlen : 0 < ((fs'.files i).read a 1).length := by
        rw [ArrayFile.length_read]
        change 0 < min 1 ((fs'.inode i).filesz.toNat - a)
        omega
      exact List.mem_of_getElem? (ArrayFile.getElem?_read hlen)
    rcases hclean _ hshown with h0 | hmem
    · rwa [hblock] at h0
    · cases hmem
  · intro h
    refine ⟨h.1, ?_⟩
    intro as st hrun len
    have hsize := filesz_of_reaches hi h.1 hrun
    have hfits : (st.1.inode i).filesz.toNat ≤ 32768 := by omega
    obtain ⟨bytes, hread⟩ : ∃ bytes, readF st.1 i len st.2 = .ok bytes := readF_ok hi hfits
    refine ⟨bytes, hread, ?_⟩
    intro b hb
    rw [readF, inodeAt_eq hi, ok_bind] at hread
    obtain ⟨a, ha, rfl⟩ := readLoop_mem hread b hb
    have ha : a + 1 < MAX_FILE_SZ_KB * 1024 := by
      rw [show MAX_FILE_SZ_KB * 1024 = 32768 from rfl]
      omega
    exact (block_of_run hrun.run_eq a).imp (fun heq => heq.trans (h.2 a ha)) id

/-! ### Positions before the start of a file -/

/-- Position `a` of the file in inode `i`, as a distance from `fs_addr`. -/
def fileAddr (i : ℕ) (a : ℤ) : ℤ := 60 + 32804 * i + 36 + a

/-- The loop of `readF`, over at most `n` further values of its index, on the bytes at `fs_addr`: what
lies at a position is read whether or not it belongs to the block. -/
def readMemory (fs : FileSystem) (i : ℕ) (o : ℤ) : ℕ → ℕ → Option (List UInt8)
  | 0, _ => some []
  | n + 1, j =>
    if wordOf (j + o) < (fs.inode i).filesz then
      let a := fileAddr i (i32 (j + o))
      if 0 ≤ a ∧ a < FS_SIZE_MB * 1024 * 1024 then (readMemory fs i o n (j + 1)).map (fs.byte a.toNat :: ·)
      else none
    else some []

/-- Inside the block that is the loop of the model. -/
theorem readMemory_of_readLoop (hi : i < NR_INODE) {j : ℕ} {bytes : List UInt8}
    (h : readLoop (fs.inode i) o n j = .ok bytes) : readMemory fs i o n j = some bytes := by
  induction n generalizing j bytes with
  | zero =>
    obtain rfl := Except.ok.inj h
    rfl
  | succ n ih =>
    rw [readLoop] at h
    rw [readMemory]
    split_ifs at h with hlt
    · dsimp only at h
      rw [maxFileSz] at h
      split_ifs at h with hpos
      obtain ⟨rest, hrest, h⟩ := bind_eq_ok.mp h
      obtain rfl := Except.ok.inj h
      have hi' : i < 32 := hi
      have haddr : (fileAddr i (i32 (j + o))).toNat = 60 + 32804 * i + (36 + (i32 (j + o)).toNat) := by
        unfold fileAddr
        omega
      have hin : 0 ≤ fileAddr i (i32 (j + o)) ∧ fileAddr i (i32 (j + o)) < FS_SIZE_MB * 1024 * 1024 := by
        simp only [fileAddr, FS_SIZE_MB]
        omega
      have hbyte : fs.byte (fileAddr i (i32 (j + o))).toNat = (fs.inode i).block (i32 (j + o)).toNat := by
        rw [haddr, byte_inode hi (by omega), Inode.byte, if_neg (by omega), if_neg (by omega),
          if_neg (by omega), Nat.add_sub_cancel_left]
      rw [if_pos hlt]
      dsimp only
      rw [if_pos hin, ih hrest, hbyte]
      rfl
    · obtain rfl := Except.ok.inj h
      exact if_neg hlt

/-- **Any file shows what lies before it**: a write of nothing at position -1, and a read at -36, where
the type of the inode is. -/
theorem reads_before_start (hi : i < NR_INODE) (hty : (fs.inode i).type = FL) :
    ∃ as st, run (accessStep i) (fs, 0) as = .ok st ∧ as.flatMap FileAccess.bytes = [] ∧
      readMemory st.1 i st.2 1 0 = some [1] := by
  set fs' := fs.setInode i { fs.inode i with size := sizeAfter (fs.inode i) (-1) 0 }
  refine ⟨[.seek (-1) 0, .write (fun _ => 0) 0, .seek (-36) 0], (fs', -36), ?_, rfl, ?_⟩
  · rw [run_cons, accessStep, if_pos rfl, ok_bind, run_cons, accessStep,
      writeF_nothing hi (show i32 (-1) < _ by decide), ok_bind, ok_bind, run_cons, accessStep, if_pos rfl, ok_bind, run_nil]
  · have hsize : (fs'.inode i).filesz.toNat = 2 ^ 32 - 1 := by
      rw [setInode_self]
      change (sizeAfter (fs.inode i) (-1) 0).toNat = 2 ^ 32 - 1
      have hlast : (wordOf (-1 + 0)).toNat = 2 ^ 32 - 1 := by decide
      have hmax : (fs.inode i).filesz.toNat < 2 ^ 32 := (fs.inode i).filesz.toNat_lt
      unfold sizeAfter
      split_ifs with hgt
      · have := UInt32.lt_iff_toNat_lt.mp hgt
        omega
      · exact hlast
    have hword : (wordOf ((0 : ℕ) + (-36 : ℤ))).toNat = 2 ^ 32 - 36 := by decide
    have hpos : i32 ((0 : ℕ) + (-36 : ℤ)) = -36 := by decide
    have hi' : i < 32 := hi
    have haddr : (fileAddr i (-36)).toNat = 60 + 32804 * i + 0 := by
      unfold fileAddr
      omega
    have hin : 0 ≤ fileAddr i (-36) ∧ fileAddr i (-36) < FS_SIZE_MB * 1024 * 1024 := by
      simp only [fileAddr, FS_SIZE_MB]
      omega
    have htype : (fs'.inode i).type = FL := by
      rw [setInode_self]
      exact hty
    have hbyte : fs'.byte (fileAddr i (-36)).toNat = 1 := by
      rw [haddr, byte_inode hi (by omega), Inode.byte, if_pos (by omega), htype]
      decide
    dsimp only
    rw [readMemory, if_pos (UInt32.lt_iff_toNat_lt.mpr (by rw [hword, hsize]; omega)), hpos]
    dsimp only
    rw [if_pos hin, hbyte, readMemory]
    rfl

/-! ### What `open_aux` creates -/

/-- A path that is no file is created by `open_aux`. -/
theorem makeFL_of_openPath {p : List UInt8} {g g1 : PathBuf} {r : FileSystem × PathBuf}
    (h : openPath fs p g = .ok r) (hno : isFLExist fs p g = .ok (false, g1)) :
    ∃ g2, makeFL fs p none g1 = .ok (r.1, g2) := by
  simp only [openPath, hno, ok_bind, bind_eq_ok] at h
  obtain ⟨q, hq, i, -, h⟩ := h
  obtain rfl := Except.ok.inj h
  exact ⟨q.2, hq⟩

/-- The inode of the new file is the one that was free, with a type and a name. -/
theorem makeFL_new {p : List UInt8} {g g' : PathBuf} (hd : DirsInUse fs)
    (h : makeFL fs p none g = .ok (fs', g')) : ∃ i < NR_INODE, getAvlInode fs = i ∧
      fs'.inode i = newFile (fs.inode i) (getLastLevelName p) := by
  obtain ⟨e, s, i, di, hmade, -, hav, hup, hnew⟩ := made_of_makeFL h
  refine ⟨i, hmade.lt, hav, ?_⟩
  have hparent : IsDir fs e := hd.isDir_of_walked (walked_findUpperDirPos hup) hmade.parent
  have hne : i ≠ e := by
    rintro rfl
    exact hparent.inUse hmade.available
  rw [hmade.inode_new, hnew rfl, linked_inode_of_ne hne]

/-- **A new file is clean**, as long as the writes on it fit, iff the inode was blank that `getAvlInode`
finds. With a write that does not fit none is. -/
theorem new_file_clean_iff {k0 : Kernel} {a : ℕ} {flags : ℤ} {str : List UInt8} {g : PathBuf}
    (hb : boot img = .ok k0) (hd : DirsInUse img.fs) (hr : run step k0 es = .ok k)
    (hstr : cstring k a = .ok str) (hno : isFLExist k.fs str k.path = .ok (false, g))
    (ho : step k (.sys (.openPath a flags)) = .ok k') :
    (NewFileClean k'.fs (getAvlInode k.fs).toNat ↔ (k.fs.inode (getAvlInode k.fs).toNat).Blank) ∧
      ∃ as st, run (accessStep (getAvlInode k.fs).toNat) (k'.fs, 0) as = .ok st ∧
        as.flatMap FileAccess.bytes = [] ∧
        readMemory st.1 (getAvlInode k.fs).toNat st.2 1 0 = some [1] := by
  have hopen : openAux a k = .ok k' := by
    simp only [step] at ho
    split_ifs at ho
    exact ho
  obtain ⟨str', hstr', hopen⟩ := bind_eq_ok.mp hopen
  obtain rfl : str = str' := Except.ok.inj (hstr.symm.trans hstr')
  obtain ⟨r, hlook, hslot⟩ := bind_eq_ok.mp hopen
  obtain ⟨s, fd, hopened⟩ := openSlot_opened hslot
  obtain ⟨g2, hmake⟩ := makeFL_of_openPath (openLookup_eq_ok hlook) hno
  obtain ⟨i, hi, hav, hnew⟩ := makeFL_new (dirsInUse_run hb hd hr) hmake
  rw [hopened.fs, hav, Int.toNat_natCast]
  refine ⟨?_, reads_before_start hi (by rw [hnew]; rfl)⟩
  rw [newFileClean_iff hi, hnew]
  exact Iff.rfl

/-! ### A machine with a directory -/

/-- The empty file system with a directory `/d`. -/
def dirFs : FileSystem :=
  match makeDir Image.blank.fs [slash, 100] ⟨0, fun _ => 0⟩ with
  | .ok r => r.1
  | .error _ => Image.blank.fs

/-- A machine with this file system and the strings `/a` at `0x200300` and `/d/a` at `0x200310`. -/
def Image.withDir : Image :=
  { Image.blank with
    fs := dirFs
    mem := fun a =>
      if a = 0x200300 ∨ a = 0x200310 ∨ a = 0x200312 then slash
      else if a = 0x200301 ∨ a = 0x200313 then 97
      else if a = 0x200311 then 100 else 0 }

/-- The file system with a directory has its directories in use. -/
theorem withDir_dirsInUse : DirsInUse Image.withDir.fs := by
  change DirsInUse dirFs
  unfold dirFs
  split
  · next r hr =>
    have hstep : fileStep (Image.blank.fs, ⟨0, fun _ => 0⟩) (.makeDir ⟨[slash, 100], by decide⟩) = .ok r :=
      hr
    exact dirsInUse_step blank_dirsInUse hstep
  · exact blank_dirsInUse

/-- The first file of this machine. -/
theorem new_file_clean_iff_first :
    ∃ k k', runFrom .withDir (List.replicate 10 .timer) = .ok k ∧
      step k (.sys (.openPath 0x200300 0)) = .ok k' ∧
      (NewFileClean k'.fs (getAvlInode k.fs).toNat ↔ (k.fs.inode (getAvlInode k.fs).toNat).Blank) ∧
      ∃ as st, run (accessStep (getAvlInode k.fs).toNat) (k'.fs, 0) as = .ok st ∧
        as.flatMap FileAccess.bytes = [] ∧
        readMemory st.1 (getAvlInode k.fs).toNat st.2 1 0 = some [1] := by
  have hrun : okAnd (runFrom .withDir (List.replicate 10 .timer)) (fun k =>
      okAnd (cstring k 0x200300) (fun str => okAnd (isFLExist k.fs str k.path) fun e => !e.1) &&
        (step k (.sys (.openPath 0x200300 0))).toBool) = true := by
    decide +kernel
  obtain ⟨k, hk, hp⟩ := okAnd_eq_true.mp hrun
  rw [Bool.and_eq_true] at hp
  obtain ⟨str, hstr, he⟩ := okAnd_eq_true.mp hp.1
  obtain ⟨⟨e, g⟩, he, hno⟩ := okAnd_eq_true.mp he
  obtain rfl : e = false := by simpa using hno
  obtain ⟨k', hk'⟩ := exists_ok hp.2
  obtain ⟨k0, hb, hr⟩ := bind_eq_ok.mp hk
  exact ⟨k, k', hk, hk', new_file_clean_iff hb withDir_dirsInUse hr hstr he hk'⟩

/-- The calls on files, and the timer that lets a process run. -/
def Event.fileCalls : Event → Bool
  | .timer | .sys (.openPath ..) | .sys (.write ..) | .sys (.seek ..) | .sys (.close _)
  | .sys (.remove _) => true
  | _ => false

/-- **A removed file shows in a new one**: it was one byte long, and so is the new file. -/
theorem removed_file_shows :
    ¬∀ (img : Image) (k0 k k' : Kernel) (es : List Event) (a : ℕ) (flags : ℤ) (str : List UInt8)
      (g : PathBuf), boot img = .ok k0 → DirsInUse img.fs → run step k0 es = .ok k →
      (∀ e ∈ es, e.fileCalls) → cstring k a = .ok str → isFLExist k.fs str k.path = .ok (false, g) →
      step k (.sys (.openPath a flags)) = .ok k' → NewFileClean k'.fs (getAvlInode k.fs).toNat := by
  intro hall
  have hrun : okAnd (runFrom .withDir (List.replicate 10 .timer ++ [.sys (.openPath 0x200300 0),
      .sys (.write 3 0x200300 1), .sys (.remove 0x200300)])) (fun k =>
        okAnd (cstring k 0x200310) (fun str => okAnd (isFLExist k.fs str k.path) fun e => !e.1) &&
          okAnd (step k (.sys (.openPath 0x200310 0))) fun k' =>
            decide ((k'.fs.inode (getAvlInode k.fs).toNat).filesz ≠ 0)) = true := by
    decide +kernel
  obtain ⟨k, hk, hp⟩ := okAnd_eq_true.mp hrun
  rw [Bool.and_eq_true] at hp
  obtain ⟨str, hstr, he⟩ := okAnd_eq_true.mp hp.1
  obtain ⟨⟨e, g⟩, he, hno⟩ := okAnd_eq_true.mp he
  obtain rfl : e = false := by simpa using hno
  obtain ⟨k', hk', hsize⟩ := okAnd_eq_true.mp hp.2
  obtain ⟨k0, hb, hr⟩ := bind_eq_ok.mp hk
  have hes : ∀ e ∈ List.replicate 10 Event.timer ++ [.sys (.openPath 0x200300 0),
      .sys (.write 3 0x200300 1), .sys (.remove 0x200300)], e.fileCalls := by decide
  have hclean := hall _ k0 k k' _ _ _ str g hb withDir_dirsInUse hr hes hstr he hk'
  exact of_decide_eq_true hsize hclean.empty

end OsLab
