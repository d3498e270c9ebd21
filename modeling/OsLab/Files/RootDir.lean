import OsLab.Files.Create
import OsLab.Kernel.Boot

/-!
# The empty file system

What is in the root directory of the machine that has nothing else (`Image.blank`): `.` and `..`,
both naming the root. It is the concrete file system of the examples on paths and directories.
-/

namespace OsLab

open OsLab.Lib

variable {j x : ℕ}

/-- A file system of zeros. -/
def zeroFs : FileSystem where
  super := ⟨fun _ => 0, 0, 0, 0, 0, 0, fun _ => 0⟩
  inode := fun _ => ⟨UNUSED, 0, fun _ => 0, fun _ => 0⟩
  tail := fun _ => 0

/-- The root before its two entries are made. -/
def bareRoot : Inode := { (⟨DIR, 0, fun _ => 0, fun _ => 0⟩ : Inode).setName [slash] with size := 2 }

/-- The root directory of an empty file system has two entries. -/
theorem blank_root : Image.blank.fs.inode 0 = (bareRoot.entry 0 0 [dot]).entry 1 0 [dot, dot] := by
  simp [Image.blank, makeRootDir, FileSystem.setInode, FileSystem.incInuse, FileSystem.setMap, bareRoot]

/-- All other inodes are unused. -/
theorem blank_other (h : x ≠ 0) : Image.blank.fs.inode x = ⟨UNUSED, 0, fun _ => 0, fun _ => 0⟩ := by
  simp [Image.blank, makeRootDir, FileSystem.setInode, FileSystem.incInuse, FileSystem.setMap, h]

/-- Its map marks the root only. -/
theorem blank_map : Image.blank.fs.super.inodeMap x = if x = 0 then inuse else available := by
  simp [Image.blank, makeRootDir, FileSystem.setInode, FileSystem.incInuse, FileSystem.setMap,
    Function.update_apply]

/-- Only the root is in use. -/
theorem blank_inUse : InUse Image.blank.fs x ↔ x = 0 := by
  unfold InUse
  rw [blank_map]
  split_ifs with hx
  · exact iff_of_true (by decide) hx
  · exact iff_of_false (fun h => h rfl) hx

/-- The root is not free. -/
theorem blank_getAvlInode (h : getAvlInode Image.blank.fs = x) : x ≠ 0 := by
  have hne : getAvlInode Image.blank.fs ≠ -1 := by omega
  obtain ⟨i, -, hi, hmap⟩ := getAvlInode_spec hne
  obtain rfl : x = i := by exact_mod_cast h.symm.trans hi
  rintro rfl
  exact blank_inUse.mpr rfl hmap

/-- The strings in the slots of the root. -/
theorem blank_slotName : (Image.blank.fs.inode 0).slotName j =
    if j = 1 then .ok [dot, dot] else if j = 0 then .ok [dot] else .ok [] := by
  rw [blank_root, Inode.slotName_entry (by decide) (by decide), Inode.slotName_entry (by decide) (by decide)]
  split_ifs
  · rfl
  · rfl
  · exact Inode.slotName_eq_ok.mpr (cstr_eq_nil.mpr rfl)

/-- The names in them. -/
theorem blank_nameAt : (Image.blank.fs.inode 0).nameAt j =
    if j = 1 then [dot, dot] else if j = 0 then [dot] else [] := by
  have h := blank_slotName (j := j)
  split_ifs at h ⊢ <;> exact Inode.nameAt_of_slotName h

/-- All of them name inode 0. -/
theorem blank_slotNo : (Image.blank.fs.inode 0).slotNo j = 0 := by
  rw [blank_root, Inode.slotNo_entry (by decide), Inode.slotNo_entry (by decide)]
  split_ifs
  · rfl
  · rfl
  · simp [Inode.slotNo, bareRoot, Inode.setName]

/-- Two slots are in use. -/
theorem blank_used : (Image.blank.fs.inode 0).Used j ↔ j = 1 ∨ j = 0 := by
  rw [blank_root, Inode.used_entry (by decide) (by decide), Inode.used_entry (by decide) (by decide)]
  simp [Inode.Used, bareRoot, Inode.setName]

/-- The names can be read. -/
theorem blank_readable : (Image.blank.fs.inode 0).Readable := by
  intro j _
  rw [blank_slotName, blank_nameAt]
  split_ifs <;> rfl

/-- The count of the root is right. -/
theorem blank_counted : (Image.blank.fs.inode 0).Counted := by
  have hbare : bareRoot.usedBelow NR_DIRDATA = 0 := (countOf_eq_zero _).mpr fun _ _ h => h rfl
  have hfree : ¬(bareRoot.entry 0 0 [dot]).Used 1 := by
    rw [Inode.used_entry (by decide) (by decide)]
    rintro (h | h)
    · cases h
    · exact h rfl
  unfold Inode.Counted
  rw [blank_root, Inode.usedBelow_entry (by decide) (by decide) (by decide) hfree,
    Inode.usedBelow_entry (by decide) (by decide) (by decide) fun h => h rfl, hbare]
  rfl

end OsLab
