import OsLab.Files.Slots

/-!
# What `makeFL` and `makeDir` do

Both take the first free inode `i` and the first free slot `s` of the parent directory `d`, write
the entry (`linked`) and set up the inode (`installed`). `makeFL_inv` and `makeDir_inv` read that
off a call that succeeded, whatever the file system looks like; `makeDir_eq` and `makeFL_ok` are the
other direction.

The rest of the file looks at the entry through the directory's slots.
-/

namespace OsLab

open OsLab.Lib

variable {fs fs' : FileSystem} {path name : List UInt8} {data : Option (List UInt8)} {g g' : PathBuf}
  {d i s x j : ℕ} {di : Inode} {v : ℤ}

/-! ### Inodes in use -/

/-- The inode is not free. -/
def InUse (fs : FileSystem) (x : ℕ) : Prop := fs.super.inodeMap x ≠ available

/-- A directory in use. -/
structure IsDir (fs : FileSystem) (d : ℕ) : Prop where
  lt : d < NR_INODE
  inUse : InUse fs d
  type : (fs.inode d).type = DIR

/-! ### The two halves -/

/-- The parent directory has got the entry. -/
def linked (fs : FileSystem) (d s i : ℕ) (name : List UInt8) : FileSystem :=
  fs.incInuse.setInode d
    { (fs.inode d).entry s (wordOf i) name with size := (fs.inode d).size + 1 }

/-- The inode is in use. -/
def installed (fs : FileSystem) (i : ℕ) (di : Inode) : FileSystem :=
  ((fs.setInode i di).incInuse).setMap i inuse

/-- A new entry changes its directory only. -/
theorem linked_inode : (linked fs d s i name).inode x = if x = d then
    { (fs.inode d).entry s (wordOf i) name with size := (fs.inode d).size + 1 } else fs.inode x := by
  simp [linked, FileSystem.setInode, FileSystem.incInuse, Function.update_apply]

/-- All other inodes stay. -/
theorem linked_inode_of_ne (h : x ≠ d) : (linked fs d s i name).inode x = fs.inode x := by
  rw [linked_inode, if_neg h]

/-- A new entry does not touch the inode map. -/
theorem linked_map : (linked fs d s i name).super.inodeMap = fs.super.inodeMap := rfl

/-- A new inode changes its own place only. -/
theorem installed_inode : (installed fs i di).inode x = if x = i then di else fs.inode x := by
  simp [installed, FileSystem.setInode, FileSystem.incInuse, FileSystem.setMap, Function.update_apply]

/-- And its mark in the map. -/
theorem installed_map :
    (installed fs i di).super.inodeMap x = if x = i then inuse else fs.super.inodeMap x := by
  simp [installed, FileSystem.setInode, FileSystem.incInuse, FileSystem.setMap, Function.update_apply]

/-- A new file, in an inode that was `d`: without data its size and block are the old ones. -/
def newFile (d : Inode) (name : List UInt8) : Inode := ({ d with type := FL } : Inode).setName name

/-- The string that `makeFL` is given is the file's data. -/
def withData (data : Option (List UInt8)) (d : Inode) : Inode :=
  match data with
  | none => d
  | some t => { d with size := wordOf t.length, block := strcpy d.block 0 t }

/-- A new directory, in an inode that was `d`. -/
def newDir (d : Inode) (name : List UInt8) (i p : ℕ) : Inode :=
  { ((({ d with type := DIR } : Inode).setName name).entry 0 (wordOf i) [dot]).entry 1 (wordOf p)
      [dot, dot] with size := 2 }

/-- The name of an inode is read back. -/
theorem name_setName (h0 : 0 ∉ name) (hlen : name.length < MAX_FILENAME_LEN) (d : Inode) :
    (d.setName name).name = .ok name := by
  have hread : cstr (strcpy d.filename 0 name) 0 MAX_FILENAME_LEN = some name := cstr_strcpy h0 hlen
  simp only [Inode.name, Inode.setName, hread]

/-! What is in a new inode. -/

/-- The name of a new file. -/
theorem newFile_name (h0 : 0 ∉ name) (hlen : name.length < MAX_FILENAME_LEN) :
    (newFile di name).name = .ok name := name_setName h0 hlen _

/-- A new file is no directory. -/
theorem newFile_type_ne : (newFile di name).type ≠ DIR := by
  change FL ≠ DIR
  decide

/-- A new directory is no file. -/
theorem newDir_type_ne {q : ℕ} : (newDir di name i q).type ≠ FL := by
  change DIR ≠ FL
  decide

/-- The names in a new directory. -/
theorem slotName_newDir {q : ℕ} : (newDir di name i q).slotName j =
    if j = 1 then .ok [dot, dot] else if j = 0 then .ok [dot] else di.slotName j := by
  refine (Inode.slotName_entry (by decide) (by decide) j).trans ?_
  rw [Inode.slotName_entry (by decide) (by decide)]
  rfl

/-- The inodes that its entries name. -/
theorem slotNo_newDir {q : ℕ} : (newDir di name i q).slotNo j =
    if j = 1 then wordOf q else if j = 0 then wordOf i else di.slotNo j := by
  refine (Inode.slotNo_entry (by decide) j).trans ?_
  rw [Inode.slotNo_entry (by decide)]
  rfl

/-- Its slots in use. -/
theorem used_newDir {q : ℕ} : (newDir di name i q).Used j ↔ j = 1 ∨ j = 0 ∨ di.Used j :=
  (Inode.used_entry (by decide) (by decide) j).trans
    (or_congr Iff.rfl (Inode.used_entry (by decide) (by decide) j))

/-! A new directory takes over what its inode holds behind the first two slots. -/

/-- No slot behind the first two is in use. -/
def Inode.Bare (d : Inode) : Prop := ∀ j < NR_DIRDATA, 2 ≤ j → ¬d.Used j

/-- A new directory uses its first two slots only. -/
theorem Inode.Bare.used_newDir {q : ℕ} (h : di.Bare) (hj : j < NR_DIRDATA)
    (hu : (newDir di name i q).Used j) : j = 0 ∨ j = 1 := by
  rcases OsLab.used_newDir.mp hu with rfl | rfl | hold
  · exact .inr rfl
  · exact .inl rfl
  · by_contra hno
    exact h j hj (by omega) hold

/-- The names in a new directory can be read. -/
theorem Inode.Bare.readable_newDir {q : ℕ} (h : di.Bare) : (newDir di name i q).Readable := by
  intro j hj
  by_cases hu : (newDir di name i q).Used j
  · rcases h.used_newDir hj hu with rfl | rfl
    · have hname : (newDir di name i q).slotName 0 = .ok [dot] := slotName_newDir
      rw [hname, Inode.nameAt_of_slotName hname]
    · have hname : (newDir di name i q).slotName 1 = .ok [dot, dot] := slotName_newDir
      rw [hname, Inode.nameAt_of_slotName hname]
  · have hname := Inode.slotName_of_not_used hu
    rw [hname, Inode.nameAt_of_slotName hname]

/-- A new directory in such an inode. -/
theorem counted_newDir {q : ℕ} (h : di.Bare) : (newDir di name i q).Counted := by
  have hrest : (newDir di name i q).usedBelow NR_DIRDATA = (newDir di name i q).usedBelow 2 := by
    refine Inode.usedBelow_eq (by decide) fun j h2 hj hu => ?_
    rcases h.used_newDir hj hu with rfl | rfl <;> omega
  unfold Inode.Counted
  rw [hrest, Inode.usedBelow_succ, Inode.usedBelow_succ, Inode.usedBelow_zero,
    if_pos (used_newDir.mpr (.inr (.inl rfl))), if_pos (used_newDir.mpr (.inl rfl))]
  rfl

/-! ### Free inodes and free slots -/

/-- `getAvlInode` returns a free inode. -/
theorem getAvlInode_spec (h : getAvlInode fs ≠ -1) :
    ∃ i < NR_INODE, getAvlInode fs = i ∧ fs.super.inodeMap i = available := by
  rcases firstIndex_spec (fun i => fs.super.inodeMap i = available) NR_INODE 0 with
    ⟨j, -, hj, he, hp⟩ | ⟨he, -⟩
  · exact ⟨j, by rwa [Nat.zero_add] at hj, he, hp⟩
  · exact absurd he h

/-- A free inode is found if there is one. -/
theorem getAvlInode_ne (hi : i < NR_INODE) (h : fs.super.inodeMap i = available) :
    getAvlInode fs ≠ -1 := by
  rcases firstIndex_spec (fun i => fs.super.inodeMap i = available) NR_INODE 0 with
    ⟨j, -, -, he, -⟩ | ⟨-, hnone⟩
  · rw [getAvlInode, he]
    omega
  · exact absurd h (hnone i (Nat.zero_le i) (by rwa [Nat.zero_add]))

/-- The slot that is found is the first one with an empty name. -/
theorem getAvlDirdataLoop_inv {dir : Inode} {n : ℕ} (h : getAvlDirdataLoop dir n i = .ok v) (hv : v ≠ -1) :
    ∃ s, i ≤ s ∧ s < i + n ∧ v = s ∧ dir.slotName s = .ok [] ∧
      ∀ l, i ≤ l → l < s → ∃ t ≠ [], dir.slotName l = .ok t := by
  induction n generalizing i with
  | zero => exact absurd (Except.ok.inj h).symm hv
  | succ n ih =>
    obtain ⟨t, ht, h⟩ := bind_eq_ok.mp h
    split_ifs at h with hnil
    · refine ⟨i, Nat.le_refl i, by omega, (Except.ok.inj h).symm, ?_, fun l h1 h2 => by omega⟩
      rw [ht, strcmp_eq_zero.mp hnil]
    · obtain ⟨s, h1, h2, h3, h4, hfirst⟩ := ih h
      refine ⟨s, by omega, by omega, h3, h4, ?_⟩
      intro l hl hls
      rcases Nat.eq_or_lt_of_le hl with rfl | hl
      · exact ⟨t, mt strcmp_eq_zero.mpr hnil, ht⟩
      · exact hfirst l hl hls

/-- `getAvlDirdata` returns a free slot. -/
theorem getAvlDirdata_inv (h : getAvlDirdata fs d = .ok v) (hv : v ≠ -1) :
    d < NR_INODE ∧ ∃ s < NR_DIRDATA, v = s ∧ (fs.inode d).slotName s = .ok [] ∧
      ∀ l < s, ∃ t ≠ [], (fs.inode d).slotName l = .ok t := by
  obtain ⟨dir, hdir, h⟩ := bind_eq_ok.mp h
  obtain ⟨d', hd, he, rfl⟩ := inodeAt_inv hdir
  obtain rfl : d = d' := by exact_mod_cast he
  obtain ⟨s, -, hs, hvs, hname, hfirst⟩ := getAvlDirdataLoop_inv h hv
  exact ⟨hd, s, by rwa [Nat.zero_add] at hs, hvs, hname, fun l hl => hfirst l (Nat.zero_le l) hl⟩

/-- An empty slot is found if there is one. -/
theorem getAvlDirdataLoop_ok {dir : Inode} {n : ℕ} (hread : ∀ j < i + n, dir.slotName j = .ok (dir.nameAt j))
    (hj : i ≤ j) (hn : j < i + n) (hfree : dir.nameAt j = []) :
    ∃ s : ℕ, getAvlDirdataLoop dir n i = .ok (s : ℤ) := by
  induction n generalizing i with
  | zero => omega
  | succ n ih =>
    rw [getAvlDirdataLoop, hread i (by omega), ok_bind]
    split_ifs with hnil
    · exact ⟨i, rfl⟩
    · have hne : j ≠ i := by
        rintro rfl
        exact hnil (strcmp_eq_zero.mpr hfree)
      exact ih (fun m hm => hread m (by omega)) (by omega) (by omega)

/-! ### Inversion -/

/-- The last level of a path is copied if it fits. -/
theorem lastLevelName_inv (h : lastLevelName path = .ok name) :
    name = getLastLevelName path ∧ name.length < MAX_FILENAME_LEN := by
  simp only [lastLevelName] at h
  split_ifs at h with hlen
  obtain rfl := Except.ok.inj h
  exact ⟨rfl, hlen⟩

/-- What `withSlash` returns fits too. -/
theorem withSlash_length {t : List UInt8} (h : withSlash name = .ok t)
    (hlen : name.length < MAX_FILENAME_LEN) : t.length < MAX_FILENAME_LEN := by
  unfold withSlash at h
  split at h
  · cases h
  · split_ifs at h with h1 h2
    · obtain rfl := Except.ok.inj h
      rw [List.length_append]
      exact h2
    · obtain rfl := Except.ok.inj h
      exact hlen

/-- The name of a directory ends in a slash. -/
theorem withSlash_spec {t : List UInt8} (h : withSlash name = .ok t) (h0 : 0 ∉ name) :
    t.getLast? = some slash ∧ 0 ∉ t := by
  unfold withSlash at h
  split at h
  · cases h
  · next c hc =>
    split_ifs at h with h1 h2
    · obtain rfl := Except.ok.inj h
      refine ⟨by simp, ?_⟩
      rw [List.mem_append, not_or]
      exact ⟨h0, by decide⟩
    · obtain rfl := Except.ok.inj h
      exact ⟨by rw [hc, not_not.mp h1], h0⟩

/-- The step that `makeDir` and `makeFL` share. -/
theorem addEntry_inv (h : addEntry fs.incInuse v i name = .ok fs') :
    ∃ d < NR_INODE, v = d ∧ ∃ s < NR_DIRDATA, (fs.inode d).slotName s = .ok [] ∧
      fs' = linked fs d s i name := by
  obtain ⟨sl, hsl, h⟩ := bind_eq_ok.mp h
  obtain ⟨u, hne, h⟩ := bind_eq_ok.mp h
  obtain ⟨dir, hdir, h⟩ := bind_eq_ok.mp h
  obtain rfl := Except.ok.inj h
  obtain ⟨d, -, rfl, rfl⟩ := inodeAt_inv hdir
  obtain ⟨hd, s, hs, rfl, hname, -⟩ := getAvlDirdata_inv hsl (assert_eq_ok.mp hne)
  refine ⟨d, hd, rfl, s, hs, hname, ?_⟩
  simp only [Int.toNat_natCast]
  rfl

/-- **`makeFL`** makes an entry in a free slot of the parent directory and takes a free inode. -/
theorem makeFL_inv (h : makeFL fs path data g = .ok (fs', g')) :
    ∃ i < NR_INODE, getAvlInode fs = i ∧ fs.super.inodeMap i = available ∧
      ∃ d < NR_INODE, findUpperDirPos fs path g = .ok ((d : ℤ), g') ∧
        (getLastLevelName path).length < MAX_FILENAME_LEN ∧
        ∃ s < NR_DIRDATA, (fs.inode d).slotName s = .ok [] ∧
          ∃ di, di.type = FL ∧ fs' = installed (linked fs d s i (getLastLevelName path)) i di ∧
            (data = none →
              di = newFile ((linked fs d s i (getLastLevelName path)).inode i) (getLastLevelName path)) := by
  obtain ⟨u, hne, h⟩ := bind_eq_ok.mp h
  obtain ⟨i, hi, hav, hmap⟩ := getAvlInode_spec (assert_eq_ok.mp hne)
  obtain ⟨r, hr, h⟩ := bind_eq_ok.mp h
  obtain ⟨-, -, h⟩ := bind_eq_ok.mp h
  obtain ⟨name, hname, h⟩ := bind_eq_ok.mp h
  obtain ⟨rfl, hlen⟩ := lastLevelName_inv hname
  obtain ⟨fs1, hadd, h⟩ := bind_eq_ok.mp h
  rw [hav] at hadd h
  obtain ⟨d, hd, hrd, s, hs, hfree, rfl⟩ := addEntry_inv hadd
  obtain ⟨d0, hd0, h⟩ := bind_eq_ok.mp h
  obtain ⟨i', -, hi', rfl⟩ := inodeAt_inv hd0
  obtain rfl : i = i' := by exact_mod_cast hi'
  refine ⟨i, hi, hav, hmap, d, hd, ?_, hlen, s, hs, hfree, ?_⟩
  · have hg : r.2 = g' := by
      cases data with
      | none => exact (Prod.mk.inj (Except.ok.inj h)).2
      | some t =>
        dsimp only at h
        split_ifs at h
        · exact (Prod.mk.inj (Except.ok.inj h)).2
        · cases h
    rw [hr, ← hrd, ← hg]
  · cases data with
    | none =>
      obtain ⟨rfl, -⟩ := Prod.mk.inj (Except.ok.inj h)
      exact ⟨_, rfl, rfl, fun _ => rfl⟩
    | some t =>
      dsimp only at h
      split_ifs at h
      · obtain ⟨rfl, -⟩ := Prod.mk.inj (Except.ok.inj h)
        exact ⟨_, rfl, rfl, nofun⟩
      · cases h

/-- **`makeDir`** does the same with a name that ends in a slash, or nothing at all if there is no
free inode or no parent. -/
theorem makeDir_inv (h : makeDir fs path g = .ok (fs', g')) :
    (fs' = fs ∧ (getAvlInode fs = -1 ∨ findUpperDirPos fs path g = .ok (-1, g'))) ∨
      ∃ i < NR_INODE, getAvlInode fs = i ∧ fs.super.inodeMap i = available ∧
      ∃ d < NR_INODE, findUpperDirPos fs path g = .ok ((d : ℤ), g') ∧
        (getLastLevelName path).length < MAX_FILENAME_LEN ∧
        ∃ name, withSlash (getLastLevelName path) = .ok name ∧
          ∃ s < NR_DIRDATA, (fs.inode d).slotName s = .ok [] ∧
            fs' = installed (linked fs d s i name) i
              (newDir ((linked fs d s i name).inode i) name i d) := by
  unfold makeDir at h
  dsimp only at h
  split_ifs at h with hne
  · exact .inl ⟨(Prod.mk.inj (Except.ok.inj h)).1.symm, .inl hne⟩
  obtain ⟨i, hi, hav, hmap⟩ := getAvlInode_spec hne
  obtain ⟨r, hr, h⟩ := bind_eq_ok.mp h
  split_ifs at h with hr1
  · obtain ⟨rfl, rfl⟩ := Prod.mk.inj (Except.ok.inj h)
    exact .inl ⟨rfl, .inr (by rw [hr, ← hr1])⟩
  right
  obtain ⟨name0, hname, h⟩ := bind_eq_ok.mp h
  obtain ⟨rfl, hlen⟩ := lastLevelName_inv hname
  obtain ⟨name, hslash, h⟩ := bind_eq_ok.mp h
  obtain ⟨fs1, hadd, h⟩ := bind_eq_ok.mp h
  rw [hav] at hadd h
  obtain ⟨d, hd, hrd, s, hs, hfree, rfl⟩ := addEntry_inv hadd
  obtain ⟨d0, hd0, h⟩ := bind_eq_ok.mp h
  obtain ⟨i', -, hi', rfl⟩ := inodeAt_inv hd0
  obtain rfl : i = i' := by exact_mod_cast hi'
  obtain ⟨rfl, rfl⟩ := Prod.mk.inj (Except.ok.inj h)
  refine ⟨i, hi, hav, hmap, d, hd, by rw [hr, ← hrd], hlen, name, hslash, s, hs, hfree, ?_⟩
  rw [hrd, Int.toNat_natCast]
  rfl

/-! ### Success -/

/-- The entry goes to the slot that was found. -/
theorem addEntry_eq (hlt : d < NR_INODE) (hslot : getAvlDirdata fs d = .ok (s : ℤ)) :
    addEntry fs.incInuse d i name = .ok (linked fs d s i name) := by
  have hslot : getAvlDirdata fs.incInuse d = .ok (s : ℤ) := hslot
  rw [addEntry, hslot, ok_bind, assert, if_pos (by omega), ok_bind, inodeAt_eq hlt, ok_bind]
  simp only [Int.toNat_natCast]
  rfl

/-- **`makeDir` succeeds** where there is a free inode, a parent and a free slot. -/
theorem makeDir_eq (hi : getAvlInode fs = i) (hd : findUpperDirPos fs path g = .ok ((d : ℤ), g'))
    (hlt : d < NR_INODE) (hilt : i < NR_INODE) (hslot : getAvlDirdata fs d = .ok (s : ℤ))
    (hlen : (getLastLevelName path).length < MAX_FILENAME_LEN)
    (hname : withSlash (getLastLevelName path) = .ok name) :
    makeDir fs path g = .ok (installed (linked fs d s i name) i
      (newDir ((linked fs d s i name).inode i) name i d), g') := by
  have hlast : lastLevelName path = .ok (getLastLevelName path) := if_pos hlen
  unfold makeDir
  dsimp only
  rw [hi, if_neg (by omega), hd, ok_bind]
  dsimp only
  rw [if_neg (by omega), hlast, ok_bind, hname, ok_bind, addEntry_eq hlt hslot, ok_bind,
    inodeAt_eq hilt, ok_bind]
  simp only [Int.toNat_natCast]
  rfl

/-- **`makeFL` succeeds** there if the data fits. -/
theorem makeFL_ok (hi : getAvlInode fs = i) (hd : findUpperDirPos fs path g = .ok ((d : ℤ), g'))
    (hlt : d < NR_INODE) (hilt : i < NR_INODE) (hslot : getAvlDirdata fs d = .ok (s : ℤ))
    (hlen : (getLastLevelName path).length < MAX_FILENAME_LEN)
    (hdata : ∀ t, data = some t → t.length < MAX_FILE_SZ_KB * 1024) :
    makeFL fs path data g = .ok (installed (linked fs d s i (getLastLevelName path)) i
      (withData data (newFile ((linked fs d s i (getLastLevelName path)).inode i)
        (getLastLevelName path))), g') := by
  have hname : lastLevelName path = .ok (getLastLevelName path) := if_pos hlen
  rw [makeFL, hi, assert, if_pos (by omega), ok_bind, hd, ok_bind, assert, if_pos (by omega), ok_bind,
    hname, ok_bind, addEntry_eq hlt hslot, ok_bind, inodeAt_eq hilt, ok_bind]
  cases data with
  | none => rfl
  | some t =>
    dsimp only
    rw [if_pos (Nat.succ_le_of_lt (hdata t rfl))]
    rfl

/-- No slot is found in a full directory. -/
theorem getAvlDirdataLoop_full {dir : Inode} {n : ℕ}
    (hread : ∀ j, i ≤ j → j < i + n → ∃ t ≠ [], dir.slotName j = .ok t) :
    getAvlDirdataLoop dir n i = .ok (-1) := by
  induction n generalizing i with
  | zero => rfl
  | succ n ih =>
    obtain ⟨t, hne, ht⟩ := hread i (Nat.le_refl i) (by omega)
    rw [getAvlDirdataLoop, ht, ok_bind, if_neg (mt strcmp_eq_zero.mp hne)]
    exact ih fun j h1 h2 => hread j (by omega) (by omega)

/-- A directory whose slots are all in use has none. -/
theorem getAvlDirdata_full (hlt : d < NR_INODE) (hread : (fs.inode d).Readable)
    (hfull : ∀ j < NR_DIRDATA, (fs.inode d).Used j) : getAvlDirdata fs d = .ok (-1) := by
  rw [getAvlDirdata, inodeAt_eq hlt, ok_bind]
  refine getAvlDirdataLoop_full fun j _ hj => ?_
  rw [Nat.zero_add] at hj
  exact ⟨_, (hread.used_iff hj).mp (hfull j hj), hread j hj⟩

/-- A directory whose slots are not all in use has a first free one. -/
theorem getAvlDirdata_ok (hlt : d < NR_INODE) (hread : (fs.inode d).Readable)
    (hfree : ∃ j < NR_DIRDATA, ¬(fs.inode d).Used j) : ∃ s : ℕ, getAvlDirdata fs d = .ok (s : ℤ) := by
  obtain ⟨j, hj, hfree⟩ := hfree
  have hnil : (fs.inode d).nameAt j = [] := by_contra fun hx => hfree ((hread.used_iff hj).mpr hx)
  have hread' : ∀ j < 0 + NR_DIRDATA, (fs.inode d).slotName j = .ok ((fs.inode d).nameAt j) := by
    intro j hj
    rw [Nat.zero_add] at hj
    exact hread j hj
  obtain ⟨s, hs⟩ := getAvlDirdataLoop_ok hread' (Nat.zero_le j) (by rwa [Nat.zero_add]) hnil
  refine ⟨s, ?_⟩
  rw [getAvlDirdata, inodeAt_eq hlt, ok_bind]
  exact hs

/-- **A creation** succeeds with a free inode, a name that fits and an empty slot. -/
theorem makeFL_eq (hi : getAvlInode fs = i) (hd : findUpperDirPos fs path g = .ok ((d : ℤ), g'))
    (hlt : d < NR_INODE) (hilt : i < NR_INODE) (hread : (fs.inode d).Readable)
    (hlen : (getLastLevelName path).length < MAX_FILENAME_LEN)
    (hfree : ∃ j < NR_DIRDATA, ¬(fs.inode d).Used j) :
    ∃ fs', makeFL fs path none g = .ok (fs', g') := by
  obtain ⟨s, hslot⟩ := getAvlDirdata_ok hlt hread hfree
  exact ⟨_, makeFL_ok hi hd hlt hilt hslot hlen nofun⟩

end OsLab
