import OsLab.Devices.Disk
import OsLab.Files.NamedFiles
import OsLab.Kernel.PowerOn

/-!
# The file system as bytes

`FileSystem.ofBytes` is what the pointers of `initFS` see in the bytes that `loadFS` has put to
`fs_addr`, and `FileSystem.byte` what the memory holds when they have been written through.

* `byte_ofBytes`: every byte belongs to one field.
* `SameInode`, `SameBytes.inode`: two file systems with the same two megabytes agree in all fields of
  their inodes.
* `SameBytes.sameTree`, `SameBytes.cleanFiles`, `SameBytes.filesOf_eq`: so they have the same tree and
  the same files.
-/

namespace OsLab

open OsLab.Lib

variable {fs fs' : FileSystem} {m : ℕ → UInt8} {w w' : UInt32} {d d' : Inode} {a i o x : ℕ}

/-! ### Words -/

/-- A word in memory is its four bytes. -/
theorem wordByte_wordAt (hi : i < 4) : wordByte (wordAt m a) i = m (a + i) := by
  have h0 := (m a).toNat_lt
  have h1 := (m (a + 1)).toNat_lt
  have h2 := (m (a + 2)).toNat_lt
  have h3 := (m (a + 3)).toNat_lt
  have hword : (wordAt m a).toNat = (m a).toNat + 256 * (m (a + 1)).toNat + 65536 * (m (a + 2)).toNat +
      16777216 * (m (a + 3)).toNat := by
    rw [wordAt, UInt32.toNat_ofNat']
    omega
  apply UInt8.toNat_inj.mp
  rw [wordByte, hword, UInt8.toNat_ofNat']
  interval_cases i
  · change _ = (m a).toNat
    omega
  · omega
  · omega
  · omega

/-- A word is told by its four bytes. -/
theorem wordByte_injective (h : ∀ i < 4, wordByte w i = wordByte w' i) : w = w' := by
  have hbyte : ∀ i < 4, w.toNat / 256 ^ i % 256 = w'.toNat / 256 ^ i % 256 := by
    intro i hi
    have hi := congrArg UInt8.toNat (h i hi)
    rw [wordByte, wordByte, UInt8.toNat_ofNat', UInt8.toNat_ofNat'] at hi
    omega
  have h0 := hbyte 0 (by omega)
  have h1 := hbyte 1 (by omega)
  have h2 := hbyte 2 (by omega)
  have h3 := hbyte 3 (by omega)
  have hw := w.toNat_lt
  have hw' := w'.toNat_lt
  apply UInt32.toNat_inj.mp
  omega

/-! ### Every byte belongs to a field -/

/-- The superblock that was read from memory has the bytes that were there. -/
theorem superblock_byte_ofBytes : (Superblock.ofBytes m).byte o = m o := by
  unfold Superblock.byte Superblock.ofBytes
  dsimp only
  split_ifs
  · rfl
  · rw [wordByte_wordAt (by omega)]
    congr 1
    omega
  · rw [wordByte_wordAt (by omega)]
    congr 1
    omega
  · rw [wordByte_wordAt (by omega)]
    congr 1
    omega
  · rw [wordByte_wordAt (by omega)]
    congr 1
    omega
  · rw [wordByte_wordAt (by omega)]
    congr 1
    omega
  · congr 1
    omega

/-- So has an inode. -/
theorem inode_byte_ofBytes : (Inode.ofBytes m a).byte o = m (a + o) := by
  unfold Inode.byte Inode.ofBytes
  dsimp only
  split_ifs
  · rw [wordByte_wordAt (by omega)]
  · rw [wordByte_wordAt (by omega)]
    congr 1
    omega
  · congr 1
    omega
  · congr 1
    omega

/-- **Every byte** is seen once. -/
theorem byte_ofBytes : (FileSystem.ofBytes m).byte o = m o := by
  unfold FileSystem.byte FileSystem.ofBytes
  dsimp only
  split_ifs
  · exact superblock_byte_ofBytes
  · have ho : 60 + 32804 * ((o - 60) / 32804) + (o - 60) % 32804 = o := by omega
    rw [inode_byte_ofBytes, ho]
  · have ho : 60 + 32804 * NR_INODE + (o - (60 + 32804 * NR_INODE)) = o := by omega
    rw [ho]

/-! ### The same bytes -/

/-- The two megabytes at `fs_addr` are the same. -/
def SameBytes (fs fs' : FileSystem) : Prop := ∀ o < FS_SIZE, fs'.byte o = fs.byte o

/-- The inodes agree in their fields. -/
structure SameInode (d d' : Inode) : Prop where
  type : d'.type = d.type
  size : d'.size = d.size
  filename : ∀ i < MAX_FILENAME_LEN, d'.filename i = d.filename i
  block : ∀ a < MAX_FILE_SZ_KB * 1024, d'.block a = d.block a

/-- The first bytes of the image are the superblock. -/
theorem byte_super (ho : o < 60) : fs.byte o = fs.super.byte o := if_pos ho

/-- The bytes of an inode are its fields. -/
theorem sameInode_of_bytes (h : ∀ o < 32804, d'.byte o = d.byte o) : SameInode d d' where
  type := wordByte_injective fun i hi => by
    have hb := h i (by omega)
    rw [Inode.byte, Inode.byte, if_pos hi, if_pos hi] at hb
    exact hb
  size := wordByte_injective fun i hi => by
    have hb := h (4 + i) (by omega)
    rw [Inode.byte, Inode.byte, if_neg (by omega), if_pos (by omega), if_neg (by omega), if_pos (by omega),
      Nat.add_sub_cancel_left] at hb
    exact hb
  filename i hi := by
    have hi : i < 28 := hi
    have hb := h (8 + i) (by omega)
    rw [Inode.byte, Inode.byte, if_neg (by omega), if_neg (by omega), if_pos (by omega), if_neg (by omega),
      if_neg (by omega), if_pos (by omega), Nat.add_sub_cancel_left] at hb
    exact hb
  block a ha := by
    have ha : a < 32768 := ha
    have hb := h (36 + a) (by omega)
    rw [Inode.byte, Inode.byte, if_neg (by omega), if_neg (by omega), if_neg (by omega), if_neg (by omega),
      if_neg (by omega), if_neg (by omega), Nat.add_sub_cancel_left] at hb
    exact hb

namespace SameBytes

/-- The inodes are the same. -/
theorem inode (h : SameBytes fs fs') (hi : i < NR_INODE) : SameInode (fs.inode i) (fs'.inode i) := by
  have hi' : i < 32 := hi
  refine sameInode_of_bytes fun o ho => ?_
  rw [← byte_inode hi ho, ← byte_inode hi ho]
  exact h _ (by simp only [FS_SIZE, FS_SIZE_MB]; omega)

/-- The map is the same. -/
theorem inodeMap (h : SameBytes fs fs') (hi : i < NR_INODE) :
    fs'.super.inodeMap i = fs.super.inodeMap i := by
  have hi : i < 32 := hi
  have hb := h (28 + i) (by simp only [FS_SIZE, FS_SIZE_MB]; omega)
  rw [byte_super (by omega), byte_super (by omega)] at hb
  unfold Superblock.byte at hb
  rw [if_neg (by omega), if_neg (by omega), if_neg (by omega), if_neg (by omega), if_neg (by omega),
    if_neg (by omega), if_neg (by omega), if_neg (by omega), if_neg (by omega), if_neg (by omega),
    if_neg (by omega), if_neg (by omega), Nat.add_sub_cancel_left] at hb
  exact hb

/-- The same inodes are in use. -/
theorem inUse_iff (h : SameBytes fs fs') (hx : x < NR_INODE) : InUse fs' x ↔ InUse fs x := by
  unfold InUse
  rw [h.inodeMap hx]

/-- **The tree** is the same. -/
theorem sameTree (h : SameBytes fs fs') : SameTree fs fs' where
  map _ hx := h.inodeMap hx
  type _ hy := (h.inode hy).type
  name y hy := by
    unfold Inode.name
    rw [cstr_congr fun a _ ha => (h.inode hy).filename a (by omega)]
  dir _ hd _ := ⟨(h.inode hd).size, (h.inode hd).block⟩

/-- What lies behind the end of a file is the same. -/
theorem zeroTail (h : SameBytes fs fs') {x : ℕ} (hx : x < NR_INODE) (hz : (fs.inode x).ZeroTail) :
    (fs'.inode x).ZeroTail := by
  have hsame := h.inode hx
  obtain ⟨hfits, hzero⟩ := hz
  unfold Inode.filesz at hfits hzero
  rw [← hsame.size] at hfits hzero
  exact ⟨hfits, fun a h1 h2 => (hsame.block a h2).trans (hzero a h1 h2)⟩

/-- Files that are clean stay so. -/
theorem cleanFiles (h : SameBytes fs fs') (hc : CleanFiles fs) : CleanFiles fs' := by
  constructor
  · intro x hx hty
    exact h.zeroTail hx (hc.file x hx ((h.inode hx).type.symm.trans hty))
  · intro x hx hu
    obtain ⟨hsize, htail⟩ := hc.free x hx fun huse => hu ((h.inUse_iff hx).mpr huse)
    exact ⟨(h.inode hx).size.trans hsize, h.zeroTail hx htail⟩

/-- **The files** are the same. -/
theorem filesOf_eq (h : SameBytes fs fs') (hwf : WellFormed fs) (hc : CleanFiles fs) :
    filesOf fs' = filesOf fs := by
  funext p
  unfold filesOf
  rw [h.sameTree.fileAt_eq hwf]
  apply Option.map_congr
  intro x hx
  obtain ⟨hlt, -, hty⟩ := hwf.isFile hx
  have hsame := h.inode hlt
  have hfits := (hc.file x hlt hty).fits
  have hsize : (fs'.inode x).file.size = (fs.inode x).file.size := congrArg UInt32.toNat hsame.size
  rw [ArrayFile.values, ArrayFile.values, hsize]
  refine slice_congr fun a _ ha => hsame.block a ?_
  exact Nat.lt_of_lt_of_le ha (by rw [Nat.zero_add]; exact hfits)

end SameBytes

end OsLab
