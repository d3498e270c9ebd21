import OsLab.Files.Operations
import OsLab.Lib.ArrayFile
import OsLab.Lib.MachineInt

/-!
# The contents of files

`Inode.file` is the block and the size of an inode as an array with a length. `writeF` and `readF`
are its write and its read (`writeF_eq`, `readF_eq`), as long as the positions stay below 32768: the
comparisons of signed positions with the unsigned size then mean what they say.

* `contents_refine`: so any history of writes to any files leaves what the writes of the arrays
  leave, a read returns what was written last, and nothing else of the file system changes.
-/

namespace OsLab

open OsLab.Lib

variable {fs fs' : FileSystem} {d : Inode} {buf : ℕ → UInt8} {o n i x y len offset : ℕ}
  {w : Write ℕ UInt8} {ws : List (Write ℕ UInt8)}

/-- The data of an inode. -/
def Inode.file (d : Inode) : ArrayFile UInt8 := ⟨d.block, d.filesz.toNat⟩

/-- All files. -/
def FileSystem.files (fs : FileSystem) (x : ℕ) : ArrayFile UInt8 := (fs.inode x).file

/-- The bytes of a block. -/
theorem maxFileSz : ((MAX_FILE_SZ_KB : ℕ) : ℤ) * 1024 = 32768 := rfl

/-! ### The two loops -/

/-- A write within the block stores all its bytes. -/
theorem writeLoop_eq {block : ℕ → UInt8} (h : o + i + n ≤ 32768) :
    writeLoop buf o n i block =
      .ok fun a => if o + i ≤ a ∧ a < o + i + n then buf (a - o) else block a := by
  induction n generalizing i block with
  | zero =>
    rw [writeLoop]
    congr 1
    funext a
    rw [if_neg (by omega)]
  | succ n ih =>
    have hpos : i32 (i + o) = (i + o : ℕ) := by
      rw [i32_eq_self (by omega) (by omega)]
      omega
    have hin : (0 : ℤ) ≤ (i + o : ℕ) ∧ ((i + o : ℕ) : ℤ) < 32768 := by omega
    rw [writeLoop, hpos, maxFileSz, if_pos hin, Int.toNat_natCast]
    refine (ih (by omega)).trans (congrArg Except.ok (funext fun a => ?_))
    by_cases ha : a = i + o
    · subst ha
      have hold : ¬(o + (i + 1) ≤ i + o ∧ i + o < o + (i + 1) + n) := by omega
      have hnew : o + i ≤ i + o ∧ i + o < o + i + (n + 1) := by omega
      rw [if_neg hold, if_pos hnew, Function.update_self, Nat.add_sub_cancel]
    · rw [Function.update_of_ne ha]
      by_cases hin : o + i ≤ a ∧ a < o + i + (n + 1)
      · rw [if_pos hin, if_pos (by omega)]
      · rw [if_neg hin, if_neg (by omega)]

/-- A read within the block returns the bytes up to the end of the file. -/
theorem readLoop_eq (hsize : d.filesz.toNat ≤ 32768) (h : o + i ≤ 2 ^ 31) :
    readLoop d o n i = .ok (slice d.block (o + i) (min n (d.filesz.toNat - (o + i)))) := by
  induction n generalizing i with
  | zero => rw [readLoop, Nat.zero_min, slice_zero]
  | succ n ih =>
    have hword : (wordOf (i + o)).toNat = i + o := by
      have := toNat_wordOf (x := (i : ℤ) + o) (by omega) (by omega)
      omega
    rw [readLoop]
    by_cases hlt : i + o < d.filesz.toNat
    · have hpos : i32 (i + o) = (i + o : ℕ) := by
        rw [i32_eq_self (by omega) (by omega)]
        omega
      have hmin : min (n + 1) (d.filesz.toNat - (o + i)) =
          min n (d.filesz.toNat - (o + (i + 1))) + 1 := by omega
      rw [if_pos (UInt32.lt_iff_toNat_lt.mpr (by rw [hword]; exact hlt)), hpos, maxFileSz,
        if_pos (by omega), ih (by omega), ok_bind, hmin, slice_cons, Int.toNat_natCast, Nat.add_comm i o]
      rfl
    · have hmin : min (n + 1) (d.filesz.toNat - (o + i)) = 0 := by omega
      rw [if_neg fun hc => hlt (by rw [← hword]; exact UInt32.lt_iff_toNat_lt.mp hc), hmin, slice_zero]

/-! ### `writeF` and `readF` -/

/-- An inode whose data was written. -/
def Inode.written (d : Inode) (f : ArrayFile UInt8) : Inode :=
  { d with block := f.byte, size := UInt32.ofNat f.size }

/-- The inode holds the file that is written. -/
theorem Inode.written_file {f : ArrayFile UInt8} (h : f.size < 2 ^ 32) : (d.written f).file = f := by
  refine ArrayFile.ext (fun _ => rfl) ?_
  change (UInt32.ofNat f.size).toNat = f.size
  rw [UInt32.toNat_ofNat']
  exact Nat.mod_eq_of_lt h

/-- The size of an inode fits when a write ends below 32768. -/
theorem Inode.write_size_lt (h : len + offset < MAX_FILE_SZ_KB * 1024) :
    (d.file.write offset len buf).size < 2 ^ 32 := by
  have h : len + offset < 32768 := h
  have hlt : d.file.size < 2 ^ 32 := d.filesz.toNat_lt
  rw [ArrayFile.write_size]
  omega

/-- **`writeF`** writes the data of one inode. -/
theorem writeF_eq (hx : x < NR_INODE) (hfit : len + offset < MAX_FILE_SZ_KB * 1024) :
    writeF fs x buf len offset =
      .ok (fs.setInode x ((fs.inode x).written ((fs.inode x).file.write offset len buf)), len) := by
  have hfit : len + offset < 32768 := hfit
  have hassert : i32 ((len : ℤ) + offset) < MAX_FILE_SZ_KB * 1024 := by
    rw [i32_eq_self (by omega) (by omega), maxFileSz]
    omega
  have hsize : (if (fs.inode x).filesz > wordOf ((offset : ℤ) + len) then (fs.inode x).filesz
      else wordOf ((offset : ℤ) + len)) = UInt32.ofNat (max (fs.inode x).filesz.toNat (offset + len)) := by
    have hword : (wordOf ((offset : ℤ) + len)).toNat = offset + len := by
      have := toNat_wordOf (x := (offset : ℤ) + len) (by omega) (by omega)
      omega
    have hlt := (fs.inode x).filesz.toNat_lt
    apply UInt32.toNat_inj.mp
    rw [UInt32.toNat_ofNat', Nat.mod_eq_of_lt (by omega)]
    split_ifs with hgt
    · have := UInt32.lt_iff_toNat_lt.mp hgt
      omega
    · have := mt UInt32.lt_iff_toNat_lt.mpr hgt
      omega
  rw [writeF, assert, if_pos hassert, ok_bind, inodeAt_eq hx, ok_bind, Int.toNat_natCast,
    writeLoop_eq (by omega), ok_bind]
  dsimp only
  rw [hsize, Int.toNat_natCast]
  rfl

/-- A write that starts and ends at positions that are not negative stays inside the block, or stops
at the assertion. -/
theorem writeF_not_wild {pos n : ℤ} (hx : x < NR_INODE) (hpos : 0 ≤ pos) (hn : 0 ≤ n)
    (hsum : pos + n < 2 ^ 31) (a : Access) : writeF fs x buf n pos ≠ .error (.wild a) := by
  obtain ⟨offset, rfl⟩ := Int.eq_ofNat_of_zero_le hpos
  obtain ⟨len, rfl⟩ := Int.eq_ofNat_of_zero_le hn
  by_cases hfit : len + offset < MAX_FILE_SZ_KB * 1024
  · rw [writeF_eq hx hfit]
    simp
  · have hstop : ¬i32 ((len : ℤ) + offset) < MAX_FILE_SZ_KB * 1024 := by
      rw [i32_eq_self (by omega) (by omega), maxFileSz]
      have hfit : ¬len + offset < 32768 := hfit
      omega
    rw [writeF, assert, if_neg hstop, error_bind]
    simp

/-- **`readF`** reads the data of one inode. -/
theorem readF_eq (hx : x < NR_INODE) (hsize : (fs.files x).size ≤ 32768) (ho : offset < 2 ^ 31) :
    readF fs x len offset = .ok ((fs.files x).read offset len) := by
  have h := readLoop_eq (i := 0) (n := len) (o := offset) hsize (by omega)
  rw [readF, inodeAt_eq hx, ok_bind, Int.toNat_natCast]
  exact h

/-! ### Histories of writes -/

/-- A call of `writeF`. -/
def writeCall (fs : FileSystem) (w : Write ℕ UInt8) : Except Stop FileSystem := do
  let r ← writeF fs w.file w.buf w.len w.offset
  .ok r.1

/-- The inodes of files, with sizes that fit. -/
def FilesFit (fs : FileSystem) : Prop :=
  ∀ x < NR_INODE, (fs.inode x).type = FL → (fs.inode x).filesz.toNat ≤ 32768

/-- The write goes to a file and passes the assertion of `writeF`. -/
structure Fits (fs : FileSystem) (w : Write ℕ UInt8) : Prop where
  lt : w.file < NR_INODE
  type : (fs.inode w.file).type = FL
  fit : w.len + w.offset < MAX_FILE_SZ_KB * 1024

/-- `fs'` differs from `fs` in the data of inodes only. -/
structure OnlyData (fs fs' : FileSystem) : Prop where
  super : fs'.super = fs.super
  tail : fs'.tail = fs.tail
  type : ∀ y, (fs'.inode y).type = (fs.inode y).type
  filename : ∀ y, (fs'.inode y).filename = (fs.inode y).filename

/-- A write changes the data of its own inode only. -/
theorem onlyData_written {f : ArrayFile UInt8} :
    OnlyData fs (fs.setInode x ((fs.inode x).written f)) := by
  refine ⟨rfl, rfl, fun y => ?_, fun y => ?_⟩
  · by_cases hy : y = x
    · subst hy
      rw [setInode_self]
      rfl
    · rw [setInode_of_ne hy]
  · by_cases hy : y = x
    · subst hy
      rw [setInode_self]
      rfl
    · rw [setInode_of_ne hy]

/-- **One call** is one write of the arrays. -/
theorem writeCall_eq (h : Fits fs w) :
    ∃ fs', writeCall fs w = .ok fs' ∧ fs'.files = applyWrite fs.files w ∧ OnlyData fs fs' ∧
      ∀ y ≠ w.file, fs'.inode y = fs.inode y := by
  refine ⟨fs.setInode w.file ((fs.inode w.file).written ((fs.inode w.file).file.write w.offset w.len w.buf)),
    ?_, ?_, onlyData_written, fun y hy => setInode_of_ne hy⟩
  · rw [writeCall, writeF_eq h.lt h.fit, ok_bind]
  · funext y
    unfold FileSystem.files
    by_cases hy : y = w.file
    · subst hy
      rw [applyWrite, Function.update_self, setInode_self,
        Inode.written_file (Inode.write_size_lt h.fit)]
    · rw [applyWrite, Function.update_of_ne hy, setInode_of_ne hy]

/-- **A history of calls** is the same history of writes of the arrays. -/
theorem run_writeCall (hsize : FilesFit fs) (hws : ∀ w ∈ ws, Fits fs w) :
    ∃ fs', run writeCall fs ws = .ok fs' ∧ fs'.files = writeAll fs.files ws ∧ OnlyData fs fs' ∧
      ∀ y, (∀ w ∈ ws, w.file ≠ y) → fs'.inode y = fs.inode y := by
  induction ws generalizing fs with
  | nil => exact ⟨fs, rfl, rfl, ⟨rfl, rfl, fun _ => rfl, fun _ => rfl⟩, fun _ _ => rfl⟩
  | cons w ws ih =>
    have hw := hws w (by simp)
    obtain ⟨fs1, h1, hfiles, honly, hother⟩ := writeCall_eq hw
    have hsize1 : FilesFit fs1 := by
      intro x hx hty
      rw [honly.type] at hty
      have hold := hsize x hx hty
      have hfit : w.len + w.offset < 32768 := hw.fit
      have heq : (fs1.inode x).filesz.toNat = (applyWrite fs.files w x).size :=
        congrArg (fun f => (f x).size) hfiles
      have hx' : (fs.files x).size = (fs.inode x).filesz.toNat := rfl
      rw [heq, applyWrite_size]
      split_ifs <;> omega
    have hws1 : ∀ w' ∈ ws, Fits fs1 w' := by
      intro w' hw'
      obtain ⟨h1, h2, h3⟩ := hws w' (List.mem_cons_of_mem _ hw')
      exact ⟨h1, by rwa [honly.type], h3⟩
    obtain ⟨fs', h2, hfiles', honly', hother'⟩ := ih hsize1 hws1
    refine ⟨fs', by rw [run_cons, h1, ok_bind, h2], by rw [hfiles', hfiles]; rfl, ?_, ?_⟩
    · exact ⟨honly'.super.trans honly.super, honly'.tail.trans honly.tail,
        fun y => (honly'.type y).trans (honly.type y),
        fun y => (honly'.filename y).trans (honly.filename y)⟩
    · intro y hy
      rw [hother' y fun w' hw' => hy w' (List.mem_cons_of_mem _ hw'), hother y (hy w (by simp)).symm]

/-- **File contents** are arrays of bytes: after any writes to files, a read returns what was
written last, as far as the file goes; a file is as long as it was, or as far as it was written; and
nothing else changes. -/
theorem contents_refine (hsize : FilesFit fs) (hws : ∀ w ∈ ws, Fits fs w) :
    ∃ fs', run writeCall fs ws = .ok fs' ∧
      (∀ x < NR_INODE, (fs.inode x).type = FL →
        (fs'.inode x).filesz.toNat = extent x (fs.inode x).filesz.toNat ws ∧
        ∀ len offset : ℕ, offset < 2 ^ 31 → ∃ bytes, readF fs' x len offset = .ok bytes ∧
          bytes.length = min len ((fs'.inode x).filesz.toNat - offset) ∧
          ∀ k < bytes.length, bytes[k]? =
            some ((lastWritten x (offset + k) ws).getD ((fs.inode x).block (offset + k)))) ∧
      (∀ y, (∀ w ∈ ws, w.file ≠ y) → fs'.inode y = fs.inode y) ∧
      (∀ y, (fs.inode y).type ≠ FL → fs'.inode y = fs.inode y) ∧ OnlyData fs fs' := by
  obtain ⟨fs', hrun, hfiles, honly, hother⟩ := run_writeCall hsize hws
  refine ⟨fs', hrun, ?_, hother, ?_, honly⟩
  · intro x hx hty
    have hext : (fs'.inode x).filesz.toNat = extent x (fs.inode x).filesz.toNat ws := by
      have heq : (fs'.inode x).filesz.toNat = (writeAll fs.files ws x).size :=
        congrArg (fun f => (f x).size) hfiles
      rw [heq, writeAll_size]
      rfl
    have hfit : (fs'.files x).size ≤ 32768 := by
      have hle : extent x (fs.inode x).filesz.toNat ws ≤ 32768 := by
        refine extent_le_iff.mpr ⟨hsize x hx hty, fun w hw _ => ?_⟩
        have hfit : w.len + w.offset < 32768 := (hws w hw).fit
        omega
      rwa [← hext] at hle
    refine ⟨hext, ?_⟩
    intro len offset ho
    refine ⟨_, readF_eq hx hfit ho, ArrayFile.length_read, ?_⟩
    intro k hk
    rw [ArrayFile.getElem?_read hk, hfiles, writeAll_byte]
    rfl
  · intro y hy
    refine hother y fun w hw hwy => hy ?_
    rw [← hwy]
    exact (hws w hw).type

/-- The empty file system with a file that is empty in inode 1. -/
def oneFile : FileSystem := Image.blank.fs.setInode 1 ⟨FL, 0, fun _ => 0, fun _ => 0⟩

/-- Three bytes behind a gap of five, and two more over the first of them. -/
theorem contents_refine_overlap :
    ∃ fs', run writeCall oneFile [⟨1, 5, 3, fun _ => 97⟩, ⟨1, 4, 2, fun _ => 98⟩] = .ok fs' ∧
      (fs'.inode 1).filesz.toNat = 8 ∧ ∃ bytes, readF fs' (1 : ℕ) (10 : ℕ) (4 : ℕ) = .ok bytes ∧
        bytes.length = 4 ∧ bytes[1]? = some 98 ∧ bytes[2]? = some 97 := by
  have hfit : FilesFit oneFile := by
    unfold FilesFit
    decide
  have hws : ∀ w ∈ ([⟨1, 5, 3, fun _ => 97⟩, ⟨1, 4, 2, fun _ => 98⟩] : List (Write ℕ UInt8)),
      Fits oneFile w := by
    intro w hw
    rcases List.mem_pair.mp hw with rfl | rfl
    · exact ⟨by decide, rfl, by decide⟩
    · exact ⟨by decide, rfl, by decide⟩
  obtain ⟨fs', hrun, hfiles, -⟩ := contents_refine hfit hws
  obtain ⟨hsize, hread⟩ := hfiles 1 (by decide) rfl
  obtain ⟨bytes, hbytes, hlen, hval⟩ := hread 10 4 (by decide)
  have h8 : (fs'.inode 1).filesz.toNat = 8 := hsize
  rw [h8] at hlen
  refine ⟨fs', hrun, h8, bytes, hbytes, hlen, ?_, ?_⟩
  · exact hval 1 (by rw [hlen]; decide)
  · exact hval 2 (by rw [hlen]; decide)

end OsLab
