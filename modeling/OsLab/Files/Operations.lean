import OsLab.Files.Lookup
import OsLab.Kernel.Files

/-!
# Sequences of file system operations

The functions of `fs.c` that change the file system, as the steps of a system whose state is the
file system and the globals of the path walkers: what `open_aux` does before it takes a slot, and
`makeFL`, `makeDir`, `rmFL` and `writeF`. `openLookup_eq_ok` ties the first one to the system call.

The creating operations all make one entry in a free slot of a directory and take one free inode.
`Made` says so (`made_of_makeFL`, `made_of_makeDir`); `rmFL_inv` and `writeF_inv` say what the other
two have done when they return.
-/

namespace OsLab

open OsLab.Lib

variable {fs fs' : FileSystem} {st st' : FileSystem × PathBuf} {p name : List UInt8}
  {g g' : PathBuf} {d s i j x : ℕ} {di : Inode}

/-- What a `char *` points to. -/
abbrev CString : Type := { s : List UInt8 // 0 ∉ s }

/-- The operations that change the file system. -/
inductive FileOp
  | openPath (path : CString)
  | make (path : CString) (data : Option (List UInt8))
  | makeDir (path : CString)
  | remove (path : CString)
  | write (index : ℤ) (buf : ℕ → UInt8) (len offset : ℤ)

/-- The first half of `open_aux`, as far as the file system goes. -/
def openPath (fs : FileSystem) (path : List UInt8) (g : PathBuf) :
    Except Stop (FileSystem × PathBuf) := do
  let e ← isFLExist fs path g
  let made := if e.1 then .ok (fs, e.2) else makeFL fs path none e.2
  let r ← made
  let i ← findCurrentFLPos r.1 path r.2
  .ok (r.1, i.2)

/-- One operation. -/
def fileStep (st : FileSystem × PathBuf) : FileOp → Except Stop (FileSystem × PathBuf)
  | .openPath path => openPath st.1 path.val st.2
  | .make path data => makeFL st.1 path.val data st.2
  | .makeDir path => makeDir st.1 path.val st.2
  | .remove path => rmFL st.1 path.val st.2
  | .write index buf len offset => do
    let r ← writeF st.1 index buf len offset
    .ok (r.1, st.2)

/-- The system call changes the file system as `openPath` does. -/
theorem openLookup_eq_ok {k : Kernel} {r : ℤ × Kernel} (h : openLookup p k = .ok r) :
    openPath k.fs p k.path = .ok (r.2.fs, r.2.path) := by
  simp only [openLookup, bind_eq_ok] at h
  obtain ⟨e, he, q, hq, i, hi, h⟩ := h
  obtain rfl := Except.ok.inj h
  rw [openPath, he, ok_bind, hq, ok_bind, hi, ok_bind]

/-! ### Directories in use -/

/-- Who is freed is no directory in use any more. -/
theorem isDir_of_freed (h : IsDir (fs.setMap x available) d) : IsDir fs d := by
  refine ⟨h.lt, ?_, h.type⟩
  intro hmap
  refine h.inUse ?_
  unfold FileSystem.setMap
  dsimp only
  rw [Function.update_apply, hmap]
  exact ite_self _

/-- A change of an inode that keeps its type. -/
theorem isDir_setInode (hty : di.type = (fs.inode x).type) :
    IsDir (fs.setInode x di) d ↔ IsDir fs d := by
  have htype : ((fs.setInode x di).inode d).type = (fs.inode d).type := by
    by_cases hd : d = x
    · subst hd
      simp [FileSystem.setInode, hty]
    · simp [FileSystem.setInode, hd]
  constructor
  · rintro ⟨h1, h2, h3⟩
    exact ⟨h1, h2, by rwa [htype] at h3⟩
  · rintro ⟨h1, h2, h3⟩
    exact ⟨h1, h2, by rwa [htype]⟩

/-- The inode is the new one. -/
theorem setInode_self : (fs.setInode x di).inode x = di := Function.update_self ..

/-- All other inodes stay. -/
theorem setInode_of_ne (h : d ≠ x) : (fs.setInode x di).inode d = fs.inode d :=
  Function.update_of_ne h _ _

/-! ### What an operation does -/

/-- `fs'` is `fs` with a new entry in slot `s` of directory `d` that names inode `i`, which was free
and is now `di`. -/
structure Made (fs fs' : FileSystem) (d s i : ℕ) (name : List UInt8) (di : Inode) : Prop where
  lt : i < NR_INODE
  available : fs.super.inodeMap i = OsLab.available
  parent : d < NR_INODE
  slot : s < NR_DIRDATA
  free : (fs.inode d).slotName s = .ok []
  nameLen : name.length < MAX_FILENAME_LEN
  eq : fs' = installed (linked fs d s i name) i di

/-- An operation that opens an existing file changes nothing; otherwise it creates the file. -/
theorem openPath_inv (h : openPath fs p g = .ok st') : st'.1 = fs ∨
    ∃ g1 g2, isFLExist fs p g = .ok (false, g1) ∧ makeFL fs p none g1 = .ok (st'.1, g2) := by
  simp only [openPath, bind_eq_ok] at h
  obtain ⟨⟨b, g1⟩, he, r, hr, i, -, h⟩ := h
  obtain rfl := Except.ok.inj h
  cases b with
  | true =>
    obtain rfl := Except.ok.inj hr
    exact .inl rfl
  | false => exact .inr ⟨g1, r.2, he, hr⟩

/-- **`makeFL`**, when it returns, has made an entry and a file. -/
theorem made_of_makeFL {data : Option (List UInt8)} (h : makeFL fs p data g = .ok (fs', g')) :
    ∃ d s i di, Made fs fs' d s i (getLastLevelName p) di ∧ di.type = FL ∧ getAvlInode fs = i ∧
      findUpperDirPos fs p g = .ok ((d : ℤ), g') ∧
      (data = none → di =
        newFile ((linked fs d s i (getLastLevelName p)).inode i) (getLastLevelName p)) := by
  obtain ⟨i, hi, hav, hmap, d, hd, hup, hlen, s, hs, hfree, di, hty, hfs, hdata⟩ := makeFL_inv h
  exact ⟨d, s, i, di, ⟨hi, hmap, hd, hs, hfree, hlen, hfs⟩, hty, hav, hup, hdata⟩

/-- **`makeDir`**, when it returns, has made an entry and a directory, or nothing. -/
theorem made_of_makeDir (h : makeDir fs p g = .ok (fs', g')) :
    (fs' = fs ∧ (getAvlInode fs = -1 ∨ findUpperDirPos fs p g = .ok (-1, g'))) ∨ ∃ name d s i,
      withSlash (getLastLevelName p) = .ok name ∧
      Made fs fs' d s i name (newDir ((linked fs d s i name).inode i) name i d) ∧
      getAvlInode fs = i ∧ findUpperDirPos fs p g = .ok ((d : ℤ), g') := by
  rcases makeDir_inv h with hno | ⟨i, hi, hav, hmap, d, hd, hup, hlen, name, hname, s, hs, hfree, hfs⟩
  · exact .inl hno
  · exact .inr ⟨name, d, s, i, hname,
      ⟨hi, hmap, hd, hs, hfree, withSlash_length hname hlen, hfs⟩, hav, hup⟩

/-- A slot that `rmFL` finds carries the name that is stored in the inode. -/
theorem findSlot_inv (h : findSlot fs d x = .ok (some j)) :
    j < NR_DIRDATA ∧ ∃ t ≠ [], (fs.inode d).slotName j = .ok t ∧ (fs.inode x).name = .ok t := by
  obtain ⟨dir, hdir, h⟩ := bind_eq_ok.mp h
  obtain ⟨d', -, hd, rfl⟩ := inodeAt_inv hdir
  obtain rfl : d = d' := by exact_mod_cast hd
  refine scanDir_inv (P := fun r : Option ℕ => ∀ j, r = some j → j < NR_DIRDATA ∧ ∃ t ≠ [],
    (fs.inode d).slotName j = .ok t ∧ (fs.inode x).name = .ok t) h (by simp) ?_ j rfl
  intro i t a q _ hi ht hne ha hq
  obtain ⟨di, hdi, hq⟩ := bind_eq_ok.mp hq
  obtain ⟨x', -, hx, rfl⟩ := inodeAt_inv hdi
  obtain rfl : x = x' := by exact_mod_cast hx
  obtain ⟨filename, hname, hq⟩ := bind_eq_ok.mp hq
  obtain rfl := Except.ok.inj hq
  split_ifs with heq
  · rintro j hj
    obtain rfl := Option.some.inj hj
    exact ⟨by rwa [Nat.zero_add] at hi, t, hne, ht, by rw [hname, strcmp_eq_zero.mp heq]⟩
  · exact ha

/-- The first entry of this name. -/
def firstNamed (fs : FileSystem) (d : ℕ) (name : List UInt8) : Option ℕ :=
  (List.range NR_DIRDATA).find? fun j => (fs.inode d).Used j && (fs.inode d).nameAt j = name

/-- **`rmFL` looks for the first entry** of the name that is stored in the inode. -/
theorem findSlot_eq (hd : d < NR_INODE) (hread : (fs.inode d).Readable) (hcount : (fs.inode d).Counted)
    (hx : x < NR_INODE) (hname : (fs.inode x).name = .ok name) :
    findSlot fs d x = .ok (firstNamed fs d name) := by
  rw [findSlot, inodeAt_eq hd, ok_bind]
  rw [scanDir_eq (p := fun j => (fs.inode d).nameAt j = name) (f := some) hread hcount]
  · rw [firstNamed]
    cases (List.range NR_DIRDATA).find? fun j => (fs.inode d).Used j &&
      (fs.inode d).nameAt j = name <;> rfl
  · intro j _ _
    rw [inodeAt_eq hx, ok_bind, hname, ok_bind]
    by_cases heq : (fs.inode d).nameAt j = name
    · rw [if_pos (strcmp_eq_zero.mpr heq.symm)]
      simp [heq]
    · rw [if_neg (mt strcmp_eq_zero.mp (Ne.symm heq))]
      simp [heq]

/-- **`rmFL`** frees the inode of the path, and clears a slot that `findSlot` finds. -/
theorem rmFL_inv (h : rmFL fs p g = .ok (fs', g')) :
    ∃ x < NR_INODE, ∃ g1 v slot, findCurrentFLPos fs p g = .ok ((x : ℤ), g1) ∧
      findUpperDirPos fs p g1 = .ok (v, g') ∧ findSlot fs v x = .ok slot ∧
      ((slot = none ∧ fs' = fs.setMap x available) ∨ ∃ d < NR_INODE, v = d ∧ ∃ j, slot = some j ∧
        fs' = (fs.setInode d ((fs.inode d).entry j 0 [])).setMap x available) := by
  unfold rmFL at h
  obtain ⟨⟨r, g1⟩, hr, h⟩ := bind_eq_ok.mp h
  obtain ⟨⟨v, g2⟩, hp, h⟩ := bind_eq_ok.mp h
  obtain ⟨slot, hslot, h⟩ := bind_eq_ok.mp h
  cases slot with
  | none =>
    simp only [ok_bind] at h
    split_ifs at h with hx
    obtain ⟨rfl, rfl⟩ := Prod.mk.inj (Except.ok.inj h)
    obtain ⟨x, rfl⟩ := Int.eq_ofNat_of_zero_le hx.1
    exact ⟨x, by exact_mod_cast hx.2, g1, v, none, hr, hp, hslot, .inl ⟨rfl, rfl⟩⟩
  | some j =>
    obtain ⟨dir, hdir, h⟩ := bind_eq_ok.mp h
    obtain ⟨d, hd, rfl, rfl⟩ := inodeAt_inv hdir
    simp only [ok_bind] at h
    split_ifs at h with hx
    obtain ⟨rfl, rfl⟩ := Prod.mk.inj (Except.ok.inj h)
    obtain ⟨x, rfl⟩ := Int.eq_ofNat_of_zero_le hx.1
    exact ⟨x, by exact_mod_cast hx.2, g1, d, some j, hr, hp, hslot, .inr ⟨d, hd, rfl, j, rfl, rfl⟩⟩

/-- `rmFL` gets to its end when its searches do. -/
theorem rmFL_ok {g1 : PathBuf} {slot : Option ℕ} (hfl : findCurrentFLPos fs p g = .ok ((x : ℤ), g1))
    (hup : findUpperDirPos fs p g1 = .ok ((d : ℤ), g')) (hslot : findSlot fs d x = .ok slot)
    (hd : d < NR_INODE) (hx : x < NR_INODE) : ∃ fs', rmFL fs p g = .ok (fs', g') := by
  have hin : (0 : ℤ) ≤ (x : ℕ) ∧ ((x : ℕ) : ℤ) < NR_INODE := ⟨by omega, by exact_mod_cast hx⟩
  rw [rmFL, hfl, ok_bind]
  dsimp only
  rw [hup, ok_bind]
  dsimp only
  rw [hslot, ok_bind]
  cases slot with
  | none => exact ⟨_, by rw [ok_bind, if_pos hin]⟩
  | some j =>
    dsimp only
    exact ⟨_, by rw [inodeAt_eq hd, ok_bind, ok_bind, if_pos hin]⟩

/-- `writeF` changes the block and the size of one inode. -/
theorem writeF_inv {index len offset v : ℤ} {buf : ℕ → UInt8}
    (h : writeF fs index buf len offset = .ok (fs', v)) :
    ∃ x < NR_INODE, index = x ∧ ∃ block, writeLoop buf offset len.toNat 0 (fs.inode x).block = .ok block ∧
      i32 (len + offset) < MAX_FILE_SZ_KB * 1024 ∧ v = len.toNat ∧
      fs' = fs.setInode x { fs.inode x with
        block := block
        size := if (fs.inode x).filesz > wordOf (offset + len) then (fs.inode x).filesz
          else wordOf (offset + len) } := by
  obtain ⟨u, hlt, h⟩ := bind_eq_ok.mp h
  obtain ⟨di, hdi, h⟩ := bind_eq_ok.mp h
  obtain ⟨x, hx, rfl, rfl⟩ := inodeAt_inv hdi
  obtain ⟨block, hblock, h⟩ := bind_eq_ok.mp h
  obtain ⟨rfl, rfl⟩ := Prod.mk.inj (Except.ok.inj h)
  exact ⟨x, hx, rfl, block, hblock, assert_eq_ok.mp hlt, rfl, rfl⟩

namespace Made

/-- The directory has the new entry, all other old inodes stay. -/
theorem inode (h : Made fs fs' d s i name di) (hx : x ≠ i) : fs'.inode x = if x = d then
    { (fs.inode d).entry s (wordOf i) name with size := (fs.inode d).size + 1 } else fs.inode x := by
  rw [h.eq, installed_inode, if_neg hx, linked_inode]

/-- The new inode. -/
theorem inode_new (h : Made fs fs' d s i name di) : fs'.inode i = di := by
  rw [h.eq, installed_inode, if_pos rfl]

/-- The map has the new mark. -/
theorem map (h : Made fs fs' d s i name di) :
    fs'.super.inodeMap x = if x = i then inuse else fs.super.inodeMap x := by
  rw [h.eq, installed_map, linked_map]

/-- The types of the old inodes stay. -/
theorem type (h : Made fs fs' d s i name di) (hx : x ≠ i) : (fs'.inode x).type = (fs.inode x).type := by
  rw [h.inode hx]
  split_ifs with hd
  · rw [hd]
    rfl
  · rfl

/-- A directory is an old one, or the new inode. -/
theorem isDir (h : Made fs fs' d s i name di) (hi : x ≠ i) (hx : IsDir fs' x) : IsDir fs x := by
  obtain ⟨h1, h2, h3⟩ := hx
  refine ⟨h1, ?_, by rwa [← h.type hi]⟩
  unfold InUse at h2
  rwa [h.map, if_neg hi] at h2

/-- The inodes in use are the old ones and the new one. -/
theorem inUse_iff (h : Made fs fs' d s i name di) : InUse fs' x ↔ x = i ∨ InUse fs x := by
  unfold InUse
  rw [h.map]
  split_ifs with hx
  · exact iff_of_true (by decide) (.inl hx)
  · exact (or_iff_right hx).symm

/-- The inodes in use stay in use. -/
theorem inUse (h : Made fs fs' d s i name di) (hx : InUse fs x) : InUse fs' x :=
  h.inUse_iff.mpr (.inr hx)

/-- And the new one is in use. -/
theorem inUse_new (h : Made fs fs' d s i name di) : InUse fs' i := h.inUse_iff.mpr (.inl rfl)

/-- An inode in use is not the new one. -/
theorem ne_of_inUse (h : Made fs fs' d s i name di) (hx : InUse fs x) : x ≠ i := by
  rintro rfl
  exact hx h.available

/-- An old directory stays one. -/
theorem isDir_of_isDir (h : Made fs fs' d s i name di) (hx : IsDir fs x) : IsDir fs' x :=
  ⟨hx.lt, h.inUse hx.inUse, by rw [h.type (h.ne_of_inUse hx.inUse)]; exact hx.type⟩

/-! The slots of the old directories. -/

/-- The slots in use are the old ones and the new one. -/
theorem used_iff (h : Made fs fs' d s i name di) (hx : x ≠ i) (hne : name.headD 0 ≠ 0) :
    (fs'.inode x).Used j ↔ x = d ∧ j = s ∨ (fs.inode x).Used j := by
  rw [h.inode hx]
  split_ifs with hd
  · subst hd
    exact (Inode.used_entry h.nameLen hne j).trans (by simp)
  · simp [hd]

/-- No other slot comes into use, whatever the name. -/
theorem used_old (h : Made fs fs' d s i name di) (hx : x ≠ i) (hold : ¬(x = d ∧ j = s))
    (hu : (fs'.inode x).Used j) : (fs.inode x).Used j := by
  rw [h.inode hx] at hu
  split_ifs at hu with hd
  · subst hd
    have hu : ((fs.inode x).entry s (wordOf i) name).Used j := hu
    unfold Inode.Used at hu ⊢
    rwa [Inode.entry_head h.nameLen, if_neg fun hj => hold ⟨rfl, hj⟩] at hu
  · exact hu

/-- The names that are read are the old ones and the new one. -/
theorem slotName_eq (h : Made fs fs' d s i name di) (hx : x ≠ i) (h0 : 0 ∉ name) :
    (fs'.inode x).slotName j = if x = d ∧ j = s then .ok name else (fs.inode x).slotName j := by
  rw [h.inode hx]
  by_cases hd : x = d
  · subst hd
    rw [if_pos rfl]
    exact (Inode.slotName_entry h.nameLen h0 j).trans (by simp)
  · simp [hd]

/-- So are the names in the slots. -/
theorem nameAt_eq (h : Made fs fs' d s i name di) (hx : x ≠ i) (h0 : 0 ∉ name) :
    (fs'.inode x).nameAt j = if x = d ∧ j = s then name else (fs.inode x).nameAt j := by
  have hslot := h.slotName_eq (j := j) hx h0
  split_ifs at hslot ⊢
  · exact Inode.nameAt_of_slotName hslot
  · exact Inode.nameAt_congr hslot

/-- The new slot names the new inode, the others name what they did. -/
theorem target_eq (h : Made fs fs' d s i name di) (hx : x ≠ i) :
    fs'.target x j = if x = d ∧ j = s then i else fs.target x j := by
  unfold FileSystem.target
  rw [h.inode hx]
  by_cases hd : x = d
  · subst hd
    rw [if_pos rfl]
    change (((fs.inode x).entry s (wordOf i) name).slotNo j).toNat = _
    rw [Inode.slotNo_entry h.nameLen]
    have hlt : i < 32 := h.lt
    have hi := toNat_wordOf (x := i) (by omega) (by omega)
    split_ifs with hj hj' hj'
    · exact_mod_cast hi
    · exact absurd ⟨rfl, hj⟩ hj'
    · exact absurd hj'.2 hj
    · rfl
  · rw [if_neg hd, if_neg fun hx => hd hx.1]

/-- The slot was not in use. -/
theorem not_used (h : Made fs fs' d s i name di) : ¬(fs.inode d).Used s := fun hu =>
  (Inode.slotName_used h.free).mp hu rfl

end Made

end OsLab
