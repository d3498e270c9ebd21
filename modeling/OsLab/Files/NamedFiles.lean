import OsLab.Files.NewFile
import OsLab.Files.Walks

/-!
# Files by their paths

`fileAt` is the inode of the file that a path names, by the reference walk. In a well-formed file
system two paths name two files (`fileAt_inj`), so that a file system is a map from paths to contents
(`filesOf`).

* `openLookup_fileAt`: the first half of `open_aux` finds the file, or creates it where there is none.
* `filesOf_created`: then the map has one more file, which is empty.
* `filesOf_written`: a write changes the content of one path.

The last two need that nothing is left of old files: `CleanFiles`.
-/

namespace OsLab

open OsLab.Lib

variable {k : Kernel} {fs fs' : FileSystem} {d i s x n o : ℕ} {p q name : List UInt8}
  {ms : List (List UInt8)} {f : ArrayFile UInt8}

/-- An absolute path that is not the root. -/
structure IsFilePath (p : List UInt8) : Prop where
  absolute : p.head? = some slash
  ne : p ≠ [slash]
  zero : 0 ∉ p

/-- Whether a path is that of a file can be computed. -/
instance (p : List UInt8) : Decidable (IsFilePath p) :=
  decidable_of_iff (p.head? = some slash ∧ p ≠ [slash] ∧ 0 ∉ p)
    ⟨fun h => ⟨h.1, h.2.1, h.2.2⟩, fun h => ⟨h.absolute, h.ne, h.zero⟩⟩

/-- Absolute paths. -/
abbrev FilePath : Type := { p : List UInt8 // IsFilePath p }

/-- The inode of the file with this path. -/
def fileAt (fs : FileSystem) (p : List UInt8) : Option ℕ :=
  (follow fs 0 (mids p)).bind fun d => entryOf fs d (lastPiece p) FL

/-- A path leads to a file if its middle leads to a directory with an entry for it. -/
theorem fileAt_eq_some : fileAt fs p = some x ↔
    ∃ d, follow fs 0 (mids p) = some d ∧ entryOf fs d (lastPiece p) FL = some x :=
  Option.bind_eq_some_iff

/-- A file is an inode in use. -/
theorem WellFormed.isFile (h : WellFormed fs) (hx : fileAt fs p = some x) :
    x < NR_INODE ∧ InUse fs x ∧ (fs.inode x).type = FL := by
  obtain ⟨d, hd, he⟩ := fileAt_eq_some.mp hx
  obtain ⟨j, hj, hu, -, rfl, hty⟩ := entryOf_eq_some he
  obtain ⟨hlt, huse⟩ := h.target d j (h.scannable.follow h.root hd) hj hu
  exact ⟨hlt, huse, hty⟩

/-- The first two entries of a directory are directories. -/
theorem WellFormed.type_of_lt_two {j : ℕ} (h : WellFormed fs) (hd : IsDir fs d) (hj : j < 2) :
    (fs.inode (fs.target d j)).type = DIR := by
  rcases Nat.lt_or_ge j 1 with h0 | h1
  · obtain rfl : j = 0 := by omega
    rw [(h.dot d hd).2]
    exact hd.type
  · obtain rfl : j = 1 := by omega
    by_cases hroot : d = 0
    · subst hroot
      rw [h.rootParent]
      exact h.root.type
    · obtain ⟨e, i, he, ht⟩ := h.reached d hd.lt hd.inUse hroot
      rw [h.parent d e i hd he ht]
      exact he.isDir.type

/-- **Two paths name two files**: the entry of a file is its only one, and its directory is reached by
one sequence of names. -/
theorem fileAt_inj (h : WellFormed fs) (hp : IsFilePath p) (hq : IsFilePath q)
    (h1 : fileAt fs p = some x) (h2 : fileAt fs q = some x) : p = q := by
  have hentry : ∀ {p}, fileAt fs p = some x → ∃ d j, follow fs 0 (mids p) = some d ∧ Entry fs d j ∧
      (fs.inode d).nameAt j = lastPiece p ∧ fs.target d j = x := by
    intro p hx
    obtain ⟨d, hw, he⟩ := fileAt_eq_some.mp hx
    have hd := h.scannable.follow h.root hw
    obtain ⟨j, hj, hu, hname, rfl, hty⟩ := entryOf_eq_some he
    refine ⟨d, j, hw, ⟨hd, ?_, hj, hu⟩, hname, rfl⟩
    by_contra hlt
    rw [h.type_of_lt_two hd (by omega)] at hty
    exact absurd hty (by decide)
  obtain ⟨d, j, hw, he, hname, ht⟩ := hentry h1
  obtain ⟨d', j', hw', he', hname', ht'⟩ := hentry h2
  obtain ⟨rfl, rfl⟩ := h.once d j d' j' he he' (ht.trans ht'.symm)
  apply eq_of_mids hp.absolute hp.ne hq.absolute hq.ne
  · exact h.follow_inj (fun m hm => dirName_of_mem hp.absolute hp.ne hm)
      (fun m hm => dirName_of_mem hq.absolute hq.ne hm) hw hw'
  · exact hname.symm.trans hname'

/-! ### A new file -/

/-- Walks go where they went, or nowhere. -/
theorem Creates.follow_iff (h : Creates fs d s i name) (hx : IsDir fs x) :
    follow (created fs d s i name) x ms = follow fs x ms := by
  induction ms generalizing x with
  | nil => rfl
  | cons m ms ih =>
    rw [follow, follow, h.entryOf_other hx fun hc => absurd hc.2.2 (by decide)]
    cases he : entryOf fs x m DIR with
    | none => rfl
    | some y =>
      obtain ⟨j, hj, hu, -, rfl, hty⟩ := entryOf_eq_some he
      exact ih (h.wf.scannable.closed x j hx hj hu hty)

/-- **The new file** is at its path, and all others are where they were. -/
theorem Creates.fileAt_created (h : Creates fs d s i (lastPiece p)) (hp : IsFilePath p) (hq : IsFilePath q)
    (hw : follow fs 0 (mids p) = some d) (hno : fileAt fs p = none) :
    fileAt (created fs d s i (lastPiece p)) q = if q = p then some i else fileAt fs q := by
  have hnone : entryOf fs d (lastPiece p) FL = none := by
    rwa [fileAt, hw, Option.bind_some] at hno
  unfold fileAt
  rw [h.follow_iff h.wf.root]
  by_cases hqp : q = p
  · subst hqp
    rw [if_pos rfl, hw, Option.bind_some]
    exact h.entryOf_new hnone
  · rw [if_neg hqp]
    cases hd : follow fs 0 (mids q) with
    | none => rw [Option.bind_none, Option.bind_none]
    | some e =>
      rw [Option.bind_some, Option.bind_some]
      refine h.entryOf_other (h.wf.scannable.follow h.wf.root hd) ?_
      rintro ⟨rfl, hl, -⟩
      apply hqp
      refine eq_of_mids hq.absolute hq.ne hp.absolute hp.ne ?_ hl
      exact h.wf.follow_inj (fun m hm => dirName_of_mem hq.absolute hq.ne hm)
        (fun m hm => dirName_of_mem hp.absolute hp.ne hm) hd hw

/-- **`makeFL`**, when it returns, has made a file at the end of the way. -/
theorem creates_of_makeFL {g g' : PathBuf} (h : WellFormed fs) (hp : IsFilePath p)
    (hw : follow fs 0 (mids p) = some d) (hk : makeFL fs p none g = .ok (fs', g')) :
    ∃ s x, Creates fs d s x (lastPiece p) ∧ fs' = created fs d s x (lastPiece p) := by
  obtain ⟨hlast, hnil, hmem⟩ := getLastLevelName_absolute hp.absolute hp.ne
  obtain ⟨x, hx, -, hmap, d', hd', hup, hlen, s, hs, hfree, di, -, hfs, hdi⟩ := makeFL_inv hk
  obtain ⟨g2, hup2⟩ := findUpperDirPos_eq h.scannable h.root hp.absolute hp.ne hp.zero hw g
  obtain rfl : d' = d := by exact_mod_cast (Prod.mk.inj (Except.ok.inj (hup.symm.trans hup2))).1
  rw [hlast] at hlen hfs hdi
  refine ⟨s, x, ?_, ?_⟩
  · exact {
      wf := h
      isDir := h.scannable.follow h.root hw
      slot := hs
      free := fun hu => (Inode.slotName_used hfree).mp hu rfl
      lt := hx
      available := hmap
      name0 := fun hz => hp.zero (by rw [← flatten_pieces p]; exact List.mem_flatten_of_mem hmem hz)
      nameLen := hlen
      nameNe := hnil }
  · rw [hfs, hdi rfl]
    rfl

/-- **The first half of `open_aux`** finds the file, or makes it. -/
theorem openLookup_fileAt {r : ℤ × Kernel} (h : WellFormed k.fs) (hp : IsFilePath p)
    (hr : openLookup p k = .ok r) : ∃ x : ℕ, r.1 = x ∧
      (fileAt k.fs p = some x ∧ r.2.fs = k.fs ∨
        ∃ d s, Creates k.fs d s x (lastPiece p) ∧ follow k.fs 0 (mids p) = some d ∧
          fileAt k.fs p = none ∧ r.2.fs = created k.fs d s x (lastPiece p)) := by
  simp only [openLookup, bind_eq_ok] at hr
  obtain ⟨e, he, q, hq, i, hi, hr⟩ := hr
  obtain rfl := Except.ok.inj hr
  obtain ⟨w, hwalk, he⟩ := bind_eq_ok.mp he
  obtain ⟨d, hw, -⟩ := entryOf_of_findCurrentFLPos hp.absolute hp.ne hp.zero hwalk
  have hd : IsDir k.fs d := h.scannable.follow h.root hw
  have hfile : fileAt k.fs p = entryOf k.fs d (lastPiece p) FL := by
    rw [fileAt, hw, Option.bind_some]
  -- what the two lookups say, before and after
  obtain ⟨g1, hfind⟩ := findCurrentFLPos_eq h.scannable h.root hp.absolute hp.ne hp.zero hw k.path
  obtain rfl : w = (indexOf (entryOf k.fs d (lastPiece p) FL), g1) :=
    Except.ok.inj (hwalk.symm.trans hfind)
  obtain rfl := Except.ok.inj he
  cases hent : entryOf k.fs d (lastPiece p) FL with
  | some x =>
    rw [hent] at hq
    have hx : indexOf (some x) ≠ -1 := by
      simp only [indexOf]
      omega
    rw [if_pos (decide_eq_true hx)] at hq
    obtain rfl := Except.ok.inj hq
    obtain ⟨g2, hagain⟩ := findCurrentFLPos_eq h.scannable h.root hp.absolute hp.ne hp.zero hw g1
    obtain rfl := Except.ok.inj (hi.symm.trans hagain)
    refine ⟨x, ?_, .inl ⟨hfile.trans hent, rfl⟩⟩
    rw [hent]
    rfl
  | none =>
    rw [hent] at hq
    rw [if_neg (by simp [indexOf])] at hq
    obtain ⟨s, x, hcreates, hnew⟩ := creates_of_makeFL h hp hw hq
    have hwf := hcreates.wellFormed
    obtain ⟨g3, hagain⟩ := findCurrentFLPos_eq hwf.scannable hwf.root hp.absolute hp.ne hp.zero
      (hcreates.follow_eq h.root hw) q.2
    rw [hcreates.entryOf_new hent, ← hnew] at hagain
    obtain rfl := Except.ok.inj (hi.symm.trans hagain)
    exact ⟨x, rfl, .inr ⟨d, s, hcreates, hw, hfile.trans hent, hnew⟩⟩

/-! ### The same tree -/

/-- The inodes have the same count and the same slots. -/
structure Inode.SameSlots (d d' : Inode) : Prop where
  size : d'.size = d.size
  block : ∀ a < 32 * NR_DIRDATA, d'.block a = d.block a

namespace Inode.SameSlots

variable {dn dn' : Inode} {j : ℕ}

/-- The strings in the slots are the same. -/
theorem cstr (h : dn.SameSlots dn') (hj : j < NR_DIRDATA) :
    cstr dn'.block (32 * j + 4) MAX_FILENAME_LEN = OsLab.cstr dn.block (32 * j + 4) MAX_FILENAME_LEN :=
  cstr_congr fun a _ ha => h.block a (by simp only [NR_DIRDATA, MAX_FILENAME_LEN] at *; omega)

/-- The names in the slots are the same. -/
theorem slotName (h : dn.SameSlots dn') (hj : j < NR_DIRDATA) : dn'.slotName j = dn.slotName j := by
  rw [Inode.slotName, Inode.slotName, h.cstr hj]

/-- So they are where they can be read. -/
theorem nameAt (h : dn.SameSlots dn') (hj : j < NR_DIRDATA) : dn'.nameAt j = dn.nameAt j := by
  rw [Inode.nameAt, Inode.nameAt, h.cstr hj]

/-- The slots in use are the same. -/
theorem used_iff (h : dn.SameSlots dn') (hj : j < NR_DIRDATA) : dn'.Used j ↔ dn.Used j := by
  unfold Inode.Used
  rw [h.block _ (by omega)]

/-- The numbers in the slots are the same. -/
theorem slotNo (h : dn.SameSlots dn') (hj : j < NR_DIRDATA) : dn'.slotNo j = dn.slotNo j := by
  unfold Inode.slotNo
  rw [h.block _ (by omega), h.block _ (by omega), h.block _ (by omega), h.block _ (by omega)]

/-- The names can be read as before. -/
theorem readable (h : dn.SameSlots dn') (hr : dn.Readable) : dn'.Readable := by
  intro j hj
  rw [h.slotName hj, h.nameAt hj]
  exact hr j hj

/-- As many slots are in use below a place. -/
theorem usedBelow (h : dn.SameSlots dn') (hj : j ≤ NR_DIRDATA) : dn'.usedBelow j = dn.usedBelow j := by
  induction j with
  | zero => rfl
  | succ j ih =>
    rw [Inode.usedBelow_succ, Inode.usedBelow_succ, ih (by omega)]
    simp only [h.used_iff hj]

/-- The count is right as before. -/
theorem counted (h : dn.SameSlots dn') (hc : dn.Counted) : dn'.Counted := by
  unfold Inode.Counted Inode.filenum at hc ⊢
  rw [h.size, h.usedBelow le_rfl]
  exact hc

end Inode.SameSlots

/-- The directories are the same, and so are the types and names of all inodes. -/
structure SameTree (fs fs' : FileSystem) : Prop where
  map : ∀ x < NR_INODE, fs'.super.inodeMap x = fs.super.inodeMap x
  type : ∀ y < NR_INODE, (fs'.inode y).type = (fs.inode y).type
  name : ∀ y < NR_INODE, (fs'.inode y).name = (fs.inode y).name
  dir : ∀ d < NR_INODE, (fs.inode d).type = DIR → (fs.inode d).SameSlots (fs'.inode d)

/-- A write to a file leaves the tree as it is. -/
theorem sameTree_written (hx : (fs.inode x).type = FL) :
    SameTree fs (fs.setInode x ((fs.inode x).written f)) := by
  have honly : OnlyData fs (fs.setInode x ((fs.inode x).written f)) := onlyData_written
  refine ⟨fun _ _ => rfl, fun y _ => honly.type y, fun y _ => ?_, fun d _ hd => ?_⟩
  · unfold Inode.name
    rw [honly.filename]
  · have hdx : d ≠ x := by
      rintro rfl
      rw [hx] at hd
      exact absurd hd (by decide)
    rw [setInode_of_ne hdx]
    exact ⟨rfl, fun _ _ => rfl⟩

namespace SameTree

/-- The inodes in use are the same. -/
theorem inUse_iff (h : SameTree fs fs') (hx : x < NR_INODE) : InUse fs' x ↔ InUse fs x := by
  unfold InUse
  rw [h.map x hx]

/-- The directories are the same. -/
theorem isDir_iff (h : SameTree fs fs') : IsDir fs' d ↔ IsDir fs d :=
  ⟨fun hd => ⟨hd.lt, (h.inUse_iff hd.lt).mp hd.inUse, (h.type d hd.lt).symm.trans hd.type⟩,
    fun hd => ⟨hd.lt, (h.inUse_iff hd.lt).mpr hd.inUse, (h.type d hd.lt).trans hd.type⟩⟩

/-- Their slots are the same. -/
theorem slots (h : SameTree fs fs') (hd : IsDir fs d) : (fs.inode d).SameSlots (fs'.inode d) :=
  h.dir d hd.lt hd.type

/-- The slots of a directory name the same inodes. -/
theorem target {j : ℕ} (h : SameTree fs fs') (hd : IsDir fs d) (hj : j < NR_DIRDATA) :
    fs'.target d j = fs.target d j := by
  unfold FileSystem.target
  rw [(h.slots hd).slotNo hj]

/-- The entries are the same. -/
theorem entry_iff {j : ℕ} (h : SameTree fs fs') : Entry fs' d j ↔ Entry fs d j := by
  constructor
  · rintro ⟨h1, h2, h3, h4⟩
    have hd := h.isDir_iff.mp h1
    exact ⟨hd, h2, h3, ((h.slots hd).used_iff h3).mp h4⟩
  · rintro ⟨h1, h2, h3, h4⟩
    exact ⟨h.isDir_iff.mpr h1, h2, h3, ((h.slots h1).used_iff h3).mpr h4⟩

/-- They name the same inodes. -/
theorem target_entry {j : ℕ} (h : SameTree fs fs') (he : Entry fs d j) : fs'.target d j = fs.target d j :=
  h.target he.isDir he.lt

/-- The other file system is well-formed then. -/
theorem wellFormed (h : SameTree fs fs') (hwf : WellFormed fs) : WellFormed fs' where
  root := h.isDir_iff.mpr hwf.root
  readable d hd := by
    have hd := h.isDir_iff.mp hd
    exact (h.slots hd).readable (hwf.readable d hd)
  named x hx hu := by
    rw [h.name x hx]
    exact hwf.named x hx ((h.inUse_iff hx).mp hu)
  counted d hd := by
    have hd := h.isDir_iff.mp hd
    exact (h.slots hd).counted (hwf.counted d hd)
  dot d hd := by
    have hd := h.isDir_iff.mp hd
    rw [(h.slots hd).nameAt (by decide), h.target hd (by decide)]
    exact hwf.dot d hd
  dotdot d hd := by
    have hd := h.isDir_iff.mp hd
    rw [(h.slots hd).nameAt (by decide)]
    exact hwf.dotdot d hd
  rootParent := by
    rw [h.target hwf.root (by decide)]
    exact hwf.rootParent
  parent d e i hd he ht := by
    have he := h.entry_iff.mp he
    have hd := h.isDir_iff.mp hd
    rw [h.target_entry he] at ht
    rw [h.target hd (by decide)]
    exact hwf.parent d e i hd he ht
  target d i hd hi hu := by
    have hd := h.isDir_iff.mp hd
    obtain ⟨hlt, huse⟩ := hwf.target d i hd hi (((h.slots hd).used_iff hi).mp hu)
    rw [h.target hd hi, h.inUse_iff hlt]
    exact ⟨hlt, huse⟩
  reached x hx hu h0 := by
    obtain ⟨e, i, he, ht⟩ := hwf.reached x hx ((h.inUse_iff hx).mp hu) h0
    exact ⟨e, i, h.entry_iff.mpr he, by rw [h.target_entry he, ht]⟩
  once e i e' i' he he' ht := by
    have he := h.entry_iff.mp he
    have he' := h.entry_iff.mp he'
    rw [h.target_entry he, h.target_entry he'] at ht
    exact hwf.once e i e' i' he he' ht
  noRoot e i he := by
    have he := h.entry_iff.mp he
    rw [h.target_entry he]
    exact hwf.noRoot e i he

/-- A name in a directory stands for the same inode. -/
theorem entryOf {ty : UInt32} (h : SameTree fs fs') (hwf : WellFormed fs) (hd : IsDir fs d) :
    entryOf fs' d name ty = OsLab.entryOf fs d name ty := by
  have hfind : ∀ j ∈ List.range NR_DIRDATA,
      ((fs'.inode d).Used j && ((fs'.inode d).nameAt j = name && (fs'.inode (fs'.target d j)).type = ty)) =
        ((fs.inode d).Used j && ((fs.inode d).nameAt j = name && (fs.inode (fs.target d j)).type = ty)) := by
    intro j hj
    have hj := List.mem_range.mp hj
    rw [(h.slots hd).nameAt hj, h.target hd hj]
    by_cases hu : (fs.inode d).Used j
    · rw [h.type _ (hwf.target d j hd hj hu).1]
      simp only [(h.slots hd).used_iff hj]
    · simp only [(h.slots hd).used_iff hj, hu, decide_false, Bool.false_and]
  unfold OsLab.entryOf
  rw [List.find?_congr hfind]
  apply Option.map_congr
  intro j hj
  exact h.target hd (List.mem_range.mp (List.mem_of_find?_eq_some hj))

/-- A way leads to the same directory. -/
theorem follow (h : SameTree fs fs') (hwf : WellFormed fs) (hx : IsDir fs x) :
    follow fs' x ms = OsLab.follow fs x ms := by
  induction ms generalizing x with
  | nil => rfl
  | cons m ms ih =>
    rw [OsLab.follow, OsLab.follow, h.entryOf hwf hx]
    cases he : OsLab.entryOf fs x m DIR with
    | none => rfl
    | some y =>
      obtain ⟨j, hj, hu, -, rfl, hty⟩ := entryOf_eq_some he
      exact ih (hwf.scannable.closed x j hx hj hu hty)

/-- **Every path** names what it named. -/
theorem fileAt_eq (h : SameTree fs fs') (hwf : WellFormed fs) (p : List UInt8) :
    fileAt fs' p = fileAt fs p := by
  unfold fileAt
  rw [h.follow hwf hwf.root]
  cases hw : OsLab.follow fs 0 (mids p) with
  | none => rw [Option.bind_none, Option.bind_none]
  | some d =>
    rw [Option.bind_some, Option.bind_some]
    exact h.entryOf hwf (hwf.scannable.follow hwf.root hw)

end SameTree

/-! ### Clean files -/

/-- The file fits into its block, and there are zeros behind its end. -/
structure Inode.ZeroTail (d : Inode) : Prop where
  fits : d.filesz.toNat ≤ 32768
  zero : ∀ a, d.filesz.toNat ≤ a → a < 32768 → d.block a = 0

/-- The files are clean, and in the free inodes there is nothing. -/
structure CleanFiles (fs : FileSystem) : Prop where
  file : ∀ x < NR_INODE, (fs.inode x).type = FL → (fs.inode x).ZeroTail
  free : ∀ x < NR_INODE, ¬InUse fs x → (fs.inode x).filesz = 0 ∧ (fs.inode x).ZeroTail

/-- A new file is empty. -/
theorem CleanFiles.created (h : CleanFiles fs) {name : List UInt8} (hc : Creates fs d s i name) :
    CleanFiles (created fs d s i name) ∧ ((OsLab.created fs d s i name).inode i).file.values = [] := by
  have hid : i ≠ d := (hc.ne hc.isDir.inUse).symm
  have hnew : (OsLab.created fs d s i name).inode i = newFile (fs.inode i) name := by
    rw [OsLab.created, installed_inode, if_pos rfl, linked_inode_of_ne hid]
  obtain ⟨hsize, htail⟩ := h.free i hc.lt fun hu => hu hc.available
  have hfile : ((OsLab.created fs d s i name).inode i).file = (fs.inode i).file := by
    rw [hnew]
    rfl
  have hnil : (fs.inode i).file.size = 0 := congrArg UInt32.toNat hsize
  refine ⟨⟨?_, ?_⟩, ?_⟩
  · intro x hx hty
    by_cases hxi : x = i
    · subst hxi
      rw [hnew]
      exact ⟨htail.fits, htail.zero⟩
    · by_cases hxd : x = d
      · subst hxd
        rw [hc.made.type hxi, hc.isDir.type] at hty
        exact absurd hty (by decide)
      · rw [hc.inode_other hxd hxi] at hty ⊢
        exact h.file x hx hty
  · intro x hx hu
    have hxi : x ≠ i := by
      rintro rfl
      exact hu hc.made.inUse_new
    have hold : ¬InUse fs x := fun hold => hu (hc.made.inUse hold)
    have hxd : x ≠ d := by
      rintro rfl
      exact hold hc.isDir.inUse
    rw [hc.inode_other hxd hxi]
    exact h.free x hx hold
  · rw [hfile, ArrayFile.values, hnil]
    rfl

/-- A write that fits leaves zeros behind the end. -/
theorem Inode.ZeroTail.written {dn : Inode} {buf : ℕ → UInt8} (h : dn.ZeroTail) (hfit : n + o < 32768) :
    (dn.written (dn.file.write o n buf)).ZeroTail := by
  have hlt : (dn.file.write o n buf).size < 2 ^ 32 := Inode.write_size_lt hfit
  have hsize : (dn.written (dn.file.write o n buf)).filesz.toNat = max dn.filesz.toNat (o + n) :=
    congrArg ArrayFile.size (Inode.written_file (d := dn) hlt)
  have hfits := h.fits
  refine ⟨by omega, ?_⟩
  intro a ha1 ha2
  rw [hsize] at ha1
  change (dn.file.write o n buf).byte a = 0
  rw [ArrayFile.write_byte_outside (by omega)]
  exact h.zero a (by omega) ha2

/-- A write that fits keeps the files clean. -/
theorem CleanFiles.written {buf : ℕ → UInt8} (h : CleanFiles fs) (hx : x < NR_INODE) (hu : InUse fs x)
    (hty : (fs.inode x).type = FL) (hfit : n + o < 32768) :
    CleanFiles (fs.setInode x ((fs.inode x).written ((fs.inode x).file.write o n buf))) := by
  constructor
  · intro y hy hyty
    by_cases hyx : y = x
    · subst hyx
      rw [setInode_self]
      exact (h.file y hy hty).written hfit
    · rw [setInode_of_ne hyx] at hyty ⊢
      exact h.file y hy hyty
  · intro y hy hyu
    have hyx : y ≠ x := by
      rintro rfl
      exact hyu hu
    rw [setInode_of_ne hyx]
    exact h.free y hy hyu

/-! ### The map from paths to contents -/

/-- The files of a file system, by their paths. -/
def filesOf (fs : FileSystem) (p : FilePath) : Option (List UInt8) :=
  (fileAt fs p.val).map fun x => (fs.inode x).file.values

/-- **One more file**, which is empty. -/
theorem filesOf_created {p : FilePath} (h : Creates fs d s i (lastPiece p.val)) (hclean : CleanFiles fs)
    (hw : follow fs 0 (mids p.val) = some d) (hno : fileAt fs p.val = none) :
    filesOf (created fs d s i (lastPiece p.val)) = Function.update (filesOf fs) p (some []) := by
  funext q
  unfold filesOf
  rw [h.fileAt_created p.property q.property hw hno]
  by_cases hqp : q = p
  · subst hqp
    rw [if_pos rfl, Function.update_self, Option.map_some, (hclean.created h).2]
  · rw [if_neg fun hv => hqp (Subtype.ext hv), Function.update_of_ne hqp]
    cases hx : fileAt fs q.val with
    | none => rfl
    | some x =>
      obtain ⟨-, hu, hty⟩ := h.wf.isFile hx
      have hxd : x ≠ d := by
        rintro rfl
        rw [h.isDir.type] at hty
        exact absurd hty (by decide)
      rw [Option.map_some, Option.map_some, h.inode_other hxd (h.ne hu)]

/-- **A write** changes the content of one path. -/
theorem filesOf_written {p : FilePath} {buf : ℕ → UInt8} (hwf : WellFormed fs)
    (hclean : CleanFiles fs) (hx : fileAt fs p.val = some x) (hfit : n + o < 32768) :
    filesOf (fs.setInode x ((fs.inode x).written ((fs.inode x).file.write o n buf))) =
      Function.update (filesOf fs) p
        (some (ArrayFile.overwrite 0 (fs.inode x).file.values o (slice buf 0 n))) := by
  obtain ⟨hlt, -, hty⟩ := hwf.isFile hx
  have hlt' : ((fs.inode x).file.write o n buf).size < 2 ^ 32 := Inode.write_size_lt hfit
  funext q
  unfold filesOf
  rw [(sameTree_written hty).fileAt_eq hwf]
  by_cases hqp : q = p
  · subst hqp
    rw [hx, Function.update_self, Option.map_some, setInode_self, Inode.written_file hlt',
      ArrayFile.values_write fun a h1 h2 => (hclean.file x hlt hty).zero a h1 (by omega)]
  · rw [Function.update_of_ne hqp]
    cases hy : fileAt fs q.val with
    | none => rfl
    | some y =>
      have hyx : y ≠ x := by
        rintro rfl
        exact hqp (Subtype.ext (fileAt_inj hwf q.property p.property hy hx))
      rw [Option.map_some, Option.map_some, setInode_of_ne hyx]

/-- The path `p` has been looked up: it is a file, and if it was none it is empty. -/
structure LookedUp (fs fs' : FileSystem) (p : FilePath) (x : ℕ) : Prop where
  wf : WellFormed fs'
  clean : CleanFiles fs'
  file : fileAt fs' p.val = some x
  kept : ∀ (q : FilePath) (y : ℕ), fileAt fs q.val = some y → fileAt fs' q.val = some y
  files : filesOf fs' = Function.update (filesOf fs) p (some ((filesOf fs p).getD []))

/-- **The first half of `open_aux`.** -/
theorem lookedUp_openLookup {p : FilePath} {r : ℤ × Kernel} (hwf : WellFormed k.fs)
    (hclean : CleanFiles k.fs) (hr : openLookup p.val k = .ok r) :
    ∃ x : ℕ, r.1 = x ∧ LookedUp k.fs r.2.fs p x := by
  obtain ⟨x, hx, ⟨hfile, hfs⟩ | ⟨d, s, hc, hw, hno, hfs⟩⟩ := openLookup_fileAt hwf p.property hr
  · refine ⟨x, hx, ?_⟩
    rw [hfs]
    refine ⟨hwf, hclean, hfile, fun _ _ hy => hy, ?_⟩
    have hsome : filesOf k.fs p = some (k.fs.inode x).file.values := by
      rw [filesOf, hfile, Option.map_some]
    rw [hsome, Option.getD_some, ← hsome, Function.update_eq_self]
  · refine ⟨x, hx, ?_⟩
    rw [hfs]
    refine ⟨hc.wellFormed, (hclean.created hc).1, ?_, ?_, ?_⟩
    · rw [hc.fileAt_created p.property p.property hw hno, if_pos rfl]
    · intro q y hy
      rw [hc.fileAt_created p.property q.property hw hno, if_neg, hy]
      rintro hqp
      rw [hqp, hno] at hy
      cases hy
    · have hnone : filesOf k.fs p = none := by
        rw [filesOf, hno, Option.map_none]
      rw [filesOf_created hc hclean hw hno, hnone, Option.getD_none]

/-- In the empty file system there is nothing that could be left. -/
theorem blank_cleanFiles : CleanFiles Image.blank.fs := by
  constructor
  · intro x _ hty
    by_cases hx : x = 0
    · subst hx
      rw [blank_wellFormed.root.type] at hty
      exact absurd hty (by decide)
    · rw [blank_other hx] at hty
      exact absurd hty (by decide)
  · intro x _ hu
    rw [blank_other fun hx => hu (blank_inUse.mpr hx)]
    exact ⟨rfl, Nat.zero_le _, fun _ _ _ => rfl⟩

end OsLab
