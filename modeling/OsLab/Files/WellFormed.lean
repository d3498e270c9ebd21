import OsLab.Files.Operations
import Mathlib.Data.List.Find

/-!
# Creating files in a well-formed file system

`WellFormed` says what the directory tree looks like: every directory in use names itself and its
parent in its first two slots and counts its entries, and all other entries form a tree over the
inodes in use.

* `Creates` collects what `makeFL` needs; its lemmas compare the file system before and after
  through the slots of the directories.
* `Creates.wellFormed`: the result is well-formed.
* `WellFormed.follow_inj`: in a tree a directory is reached by one sequence of names only. The
  pieces of a path end in a slash, so that none of them is one of the names `.` and `..`.
* `create_then_lookup`: after `makeFL` the new path finds the new file, and every other path what it
  found before.
-/

namespace OsLab

open OsLab.Lib

variable {fs : FileSystem} {d i s x j : ℕ} {p q name m : List UInt8} {ms ms' : List (List UInt8)}
  {ty : UInt32}

/-! ### The directory tree -/

/-- An entry besides the first two slots. -/
structure Entry (fs : FileSystem) (d i : ℕ) : Prop where
  isDir : IsDir fs d
  ge : 2 ≤ i
  lt : i < NR_DIRDATA
  used : (fs.inode d).Used i

/-- The file system is a tree of directories and files. -/
structure WellFormed (fs : FileSystem) : Prop where
  root : IsDir fs 0
  readable : ∀ d, IsDir fs d → (fs.inode d).Readable
  named : ∀ x < NR_INODE, InUse fs x → ∃ t, (fs.inode x).name = .ok t
  counted : ∀ d, IsDir fs d → (fs.inode d).Counted
  dot : ∀ d, IsDir fs d → (fs.inode d).nameAt 0 = [OsLab.dot] ∧ fs.target d 0 = d
  dotdot : ∀ d, IsDir fs d → (fs.inode d).nameAt 1 = [OsLab.dot, OsLab.dot]
  rootParent : fs.target 0 1 = 0
  parent : ∀ d e i, IsDir fs d → Entry fs e i → fs.target e i = d → fs.target d 1 = e
  target : ∀ d i, IsDir fs d → i < NR_DIRDATA → (fs.inode d).Used i →
    fs.target d i < NR_INODE ∧ InUse fs (fs.target d i)
  /-- Every inode in use but the root has an entry … -/
  reached : ∀ x < NR_INODE, InUse fs x → x ≠ 0 → ∃ e i, Entry fs e i ∧ fs.target e i = x
  /-- … and only one. -/
  once : ∀ e i e' i', Entry fs e i → Entry fs e' i' → fs.target e i = fs.target e' i' →
    e = e' ∧ i = i'
  noRoot : ∀ e i, Entry fs e i → fs.target e i ≠ 0

/-- The directories of a well-formed file system can be scanned. -/
theorem WellFormed.scannable (h : WellFormed fs) : Scannable fs (IsDir fs) where
  lt _ hd := hd.lt
  readable := h.readable
  counted := h.counted
  target d i hd hi hu := (h.target d i hd hi hu).1
  closed d i hd hi hu hty := ⟨(h.target d i hd hi hu).1, (h.target d i hd hi hu).2, hty⟩

/-- The first two slots are in use. -/
theorem WellFormed.used_of_lt_two (h : WellFormed fs) (hd : IsDir fs d) (hi : i < 2) :
    (fs.inode d).Used i := by
  have hread := h.readable d hd
  rcases Nat.lt_or_ge i 1 with h0 | h1
  · obtain rfl : i = 0 := by omega
    rw [hread.used_iff (by decide), (h.dot d hd).1]
    simp
  · obtain rfl : i = 1 := by omega
    rw [hread.used_iff (by decide), h.dotdot d hd]
    simp

/-! ### One path for each directory -/

/-- The names on the way to a directory end in a slash. -/
theorem dirName_of_mem (hp : p.head? = some slash) (hne : p ≠ [slash]) (hm : m ∈ mids p) : DirName m := by
  obtain ⟨r, hr, rfl, hpieces⟩ := absolute_cases hp hne
  rw [mids, hpieces, List.tail_cons] at hm
  exact dirName_of_mem_dropLast hr hm

/-- An entry found under such a name is none of the first two. -/
theorem WellFormed.entry_of_dirName (h : WellFormed fs) (hd : IsDir fs d) (hm : DirName m)
    (he : entryOf fs d m ty = some x) :
    ∃ i, Entry fs d i ∧ (fs.inode d).nameAt i = m ∧ fs.target d i = x := by
  obtain ⟨i, hi, hu, hname, ht, -⟩ := entryOf_eq_some he
  obtain ⟨w, -, rfl⟩ := hm
  refine ⟨i, ⟨hd, ?_, hi, hu⟩, hname, ht⟩
  by_contra hlt
  have hlast : ((fs.inode d).nameAt i).getLast? = some slash := by
    rw [hname]
    simp
  rcases Nat.lt_or_ge i 1 with h0 | h1
  · obtain rfl : i = 0 := by omega
    rw [(h.dot d hd).1] at hlast
    exact absurd hlast (by decide)
  · obtain rfl : i = 1 := by omega
    rw [h.dotdot d hd] at hlast
    exact absurd hlast (by decide)

/-- **A directory is reached by one sequence of names.** The induction takes the last name away: its
entry is the only one of the directory. -/
theorem WellFormed.follow_inj (h : WellFormed fs) (hms : ∀ m ∈ ms, DirName m) (hms' : ∀ m ∈ ms', DirName m)
    (hw : follow fs 0 ms = some d) (hw' : follow fs 0 ms' = some d) : ms = ms' := by
  -- the last step of a walk that is not empty
  have hlast : ∀ {ms m d}, (∀ m' ∈ ms ++ [m], DirName m') → follow fs 0 (ms ++ [m]) = some d →
      ∃ e i, follow fs 0 ms = some e ∧ Entry fs e i ∧ (fs.inode e).nameAt i = m ∧ fs.target e i = d := by
    intro ms m d hcl hw
    rw [follow_append] at hw
    obtain ⟨e, he, hw⟩ := Option.bind_eq_some_iff.mp hw
    obtain ⟨x, hx, hw⟩ := Option.bind_eq_some_iff.mp hw
    obtain rfl := Option.some.inj hw
    obtain ⟨i, hent, hname, ht⟩ :=
      h.entry_of_dirName (h.scannable.follow h.root he) (hcl m (by simp)) hx
    exact ⟨e, i, he, hent, hname, ht⟩
  induction ms using List.reverseRecOn generalizing ms' d with
  | nil =>
    obtain rfl := Option.some.inj hw
    rcases List.eq_nil_or_concat ms' with rfl | ⟨ms', m', rfl⟩
    · rfl
    · rw [List.concat_eq_append] at hms' hw'
      obtain ⟨e, i, -, hent, -, ht⟩ := hlast hms' hw'
      exact absurd ht (h.noRoot e i hent)
  | append_singleton ms m ih =>
    obtain ⟨e, i, he, hent, hname, ht⟩ := hlast hms hw
    rcases List.eq_nil_or_concat ms' with rfl | ⟨ms', m', rfl⟩
    · obtain rfl := Option.some.inj hw'
      exact absurd ht (h.noRoot e i hent)
    · rw [List.concat_eq_append] at hms' hw' ⊢
      obtain ⟨e', i', he', hent', hname', ht'⟩ := hlast hms' hw'
      obtain ⟨rfl, rfl⟩ := h.once e i e' i' hent hent' (ht.trans ht'.symm)
      rw [ih (fun m hm => hms m (by simp [hm])) (fun m hm => hms' m (by simp [hm])) he he',
        ← hname, ← hname']

/-- A path is its leading slash, its directories and its last piece. -/
theorem eq_of_mids (hp : p.head? = some slash) (hpne : p ≠ [slash]) (hq : q.head? = some slash)
    (hqne : q ≠ [slash]) (hm : mids p = mids q) (hl : lastPiece p = lastPiece q) : p = q := by
  obtain ⟨r, rfl, hr⟩ := pieces_absolute hp hpne
  obtain ⟨r', rfl, hr'⟩ := pieces_absolute hq hqne
  rw [← flatten_pieces r, ← flatten_pieces r', hr, hr', hm, hl]

/-! ### The file system after `makeFL` -/

/-- The file system that `makeFL` without data leaves. -/
def created (fs : FileSystem) (d s i : ℕ) (name : List UInt8) : FileSystem :=
  installed (linked fs d s i name) i (newFile ((linked fs d s i name).inode i) name)

/-- What `makeFL` needs: a directory with a free slot, a free inode and a name. -/
structure Creates (fs : FileSystem) (d s i : ℕ) (name : List UInt8) : Prop where
  wf : WellFormed fs
  isDir : IsDir fs d
  slot : s < NR_DIRDATA
  free : ¬(fs.inode d).Used s
  lt : i < NR_INODE
  available : fs.super.inodeMap i = available
  name0 : 0 ∉ name
  nameLen : name.length < MAX_FILENAME_LEN
  nameNe : name ≠ []

namespace Creates

/-- The new name is not empty. -/
theorem head_ne (h : Creates fs d s i name) : name.headD 0 ≠ 0 := headD_ne_zero h.name0 h.nameNe

/-- The creation makes the entry. -/
theorem made (h : Creates fs d s i name) : Made fs (created fs d s i name) d s i name
    (newFile ((linked fs d s i name).inode i) name) where
  lt := h.lt
  available := h.available
  parent := h.isDir.lt
  slot := h.slot
  free := Inode.slotName_of_not_used h.free
  nameLen := h.nameLen
  eq := rfl

/-- The new inode is none of the directories. -/
theorem ne (h : Creates fs d s i name) (hx : InUse fs x) : x ≠ i := h.made.ne_of_inUse hx

/-- The directory has the new entry. -/
theorem inode_self (h : Creates fs d s i name) : (created fs d s i name).inode d =
    { (fs.inode d).entry s (wordOf i) name with size := (fs.inode d).size + 1 } := by
  rw [h.made.inode (h.ne h.isDir.inUse), if_pos rfl]

/-- All other inodes stay. -/
theorem inode_other (h : Creates fs d s i name) (hd : x ≠ d) (hi : x ≠ i) :
    (created fs d s i name).inode x = fs.inode x := by
  rw [h.made.inode hi, if_neg hd]

/-- The new inode is a file. -/
theorem type_new : ((created fs d s i name).inode i).type = FL := by
  rw [created, installed_inode, if_pos rfl]
  rfl

/-- No directory is added. -/
theorem isDir_iff (h : Creates fs d s i name) : IsDir (created fs d s i name) x ↔ IsDir fs x := by
  refine ⟨fun hdir => h.made.isDir ?_ hdir, h.made.isDir_of_isDir⟩
  rintro rfl
  have hty := hdir.type
  rw [type_new] at hty
  exact absurd hty (by decide)

/-! The slots of the directories. -/

/-- The slots in use are the old ones and the new one. -/
theorem used_iff (h : Creates fs d s i name) (hx : IsDir fs x) :
    ((created fs d s i name).inode x).Used j ↔ x = d ∧ j = s ∨ (fs.inode x).Used j :=
  h.made.used_iff (h.ne hx.inUse) h.head_ne

/-- The strings in the slots are the old ones and the new name. -/
theorem slotName_eq (h : Creates fs d s i name) (hx : IsDir fs x) :
    ((created fs d s i name).inode x).slotName j =
      if x = d ∧ j = s then .ok name else (fs.inode x).slotName j :=
  h.made.slotName_eq (h.ne hx.inUse) h.name0

/-- So are the names. -/
theorem nameAt_eq (h : Creates fs d s i name) (hx : IsDir fs x) :
    ((created fs d s i name).inode x).nameAt j =
      if x = d ∧ j = s then name else (fs.inode x).nameAt j :=
  h.made.nameAt_eq (h.ne hx.inUse) h.name0

/-- The new slot names the new inode, the others name what they did. -/
theorem target_eq (h : Creates fs d s i name) (hx : IsDir fs x) :
    (created fs d s i name).target x j = if x = d ∧ j = s then i else fs.target x j :=
  h.made.target_eq (h.ne hx.inUse)

/-- The entries are the old ones and the new one. -/
theorem entry_iff (h : Creates fs d s i name) :
    Entry (created fs d s i name) x j ↔ x = d ∧ j = s ∨ Entry fs x j := by
  have hs2 : 2 ≤ s := by
    by_contra hlt
    exact h.free (h.wf.used_of_lt_two h.isDir (by omega))
  constructor
  · rintro ⟨h1, h2, h3, h4⟩
    have h1 := h.isDir_iff.mp h1
    exact ((h.used_iff h1).mp h4).imp_right fun hu => ⟨h1, h2, h3, hu⟩
  · rintro (⟨rfl, rfl⟩ | ⟨h1, h2, h3, h4⟩)
    · exact ⟨h.isDir_iff.mpr h.isDir, hs2, h.slot, (h.used_iff h.isDir).mpr (.inl ⟨rfl, rfl⟩)⟩
    · exact ⟨h.isDir_iff.mpr h1, h2, h3, (h.used_iff h1).mpr (.inr h4)⟩

/-- An old entry leads where it led. -/
theorem target_of_entry (h : Creates fs d s i name) (he : Entry fs x j) :
    (created fs d s i name).target x j = fs.target x j := by
  rw [h.target_eq he.isDir, if_neg]
  rintro ⟨rfl, rfl⟩
  exact h.free he.used

/-- The new entry leads to the new inode. -/
theorem target_new (h : Creates fs d s i name) : (created fs d s i name).target d s = i := by
  rw [h.target_eq h.isDir, if_pos ⟨rfl, rfl⟩]

/-- No old entry leads to the new inode. -/
theorem target_ne (h : Creates fs d s i name) (he : Entry fs x j) : fs.target x j ≠ i :=
  h.ne (h.wf.target x j he.isDir he.lt he.used).2

/-- The new entry is none of the two every directory starts with. -/
theorem not_new (h : Creates fs d s i name) (hx : IsDir fs x) (hj : j < 2) : ¬(x = d ∧ j = s) := by
  rintro ⟨rfl, rfl⟩
  exact h.free (h.wf.used_of_lt_two hx hj)

/-! ### Looking up -/

/-- Whether slot `j` is what is looked for. -/
theorem match_iff (h : Creates fs d s i name) (hx : IsDir fs x) (hj : j < NR_DIRDATA)
    (hno : ¬(x = d ∧ m = name ∧ ty = FL)) :
    ((created fs d s i name).inode x).Used j ∧ ((created fs d s i name).inode x).nameAt j = m ∧
        ((created fs d s i name).inode ((created fs d s i name).target x j)).type = ty ↔
      (fs.inode x).Used j ∧ (fs.inode x).nameAt j = m ∧ (fs.inode (fs.target x j)).type = ty := by
  rw [h.used_iff hx, h.nameAt_eq hx, h.target_eq hx]
  by_cases hnew : x = d ∧ j = s
  · obtain ⟨rfl, rfl⟩ := hnew
    simp only [and_self, if_true, type_new]
    refine iff_of_false ?_ fun hold => h.free hold.1
    rintro ⟨-, rfl, rfl⟩
    exact hno ⟨rfl, rfl, rfl⟩
  · rw [if_neg hnew, if_neg hnew, or_iff_right hnew]
    refine and_congr_right fun hu => ?_
    rw [h.made.type (h.ne (h.wf.target x j hx hj hu).2)]

/-- **Nothing else changes**: all other names, and the directories, are found where they were. -/
theorem entryOf_other (h : Creates fs d s i name) (hx : IsDir fs x)
    (hno : ¬(x = d ∧ m = name ∧ ty = FL)) :
    entryOf (created fs d s i name) x m ty = entryOf fs x m ty := by
  have hfind : (List.range NR_DIRDATA).find? (fun j => ((created fs d s i name).inode x).Used j &&
      (((created fs d s i name).inode x).nameAt j = m &&
        ((created fs d s i name).inode ((created fs d s i name).target x j)).type = ty)) =
      (List.range NR_DIRDATA).find? (fun j => (fs.inode x).Used j && ((fs.inode x).nameAt j = m &&
        (fs.inode (fs.target x j)).type = ty)) := by
    apply List.find?_congr
    intro j hj
    rw [Bool.eq_iff_iff]
    simp only [Bool.and_eq_true, decide_eq_true_eq]
    exact h.match_iff hx (List.mem_range.mp hj) hno
  rw [entryOf, entryOf, hfind]
  cases hf : (List.range NR_DIRDATA).find? (fun j => (fs.inode x).Used j && ((fs.inode x).nameAt j = m &&
    (fs.inode (fs.target x j)).type = ty)) with
  | none => rfl
  | some j =>
    have hprop := List.find?_some hf
    simp only [Bool.and_eq_true, decide_eq_true_eq] at hprop
    have hold : ¬(x = d ∧ j = s) := by
      rintro ⟨rfl, rfl⟩
      exact h.free hprop.1
    rw [Option.map_some, Option.map_some, h.target_eq hx, if_neg hold]

/-- **The new file** is found under its name. -/
theorem entryOf_new (h : Creates fs d s i name) (hno : entryOf fs d name FL = none) :
    entryOf (created fs d s i name) d name FL = some i := by
  cases hent : entryOf (created fs d s i name) d name FL with
  | none =>
    have hslot := (entryOf_eq_none.mp hent) s h.slot ((h.used_iff h.isDir).mpr (.inl ⟨rfl, rfl⟩))
      (by rw [h.nameAt_eq h.isDir, if_pos ⟨rfl, rfl⟩])
    rw [h.target_new] at hslot
    exact absurd type_new hslot
  | some y =>
    obtain ⟨j, hj, hu, hname, ht, hty⟩ := entryOf_eq_some hent
    by_cases hnew : d = d ∧ j = s
    · rw [h.target_eq h.isDir, if_pos hnew] at ht
      rw [ht]
    · -- an old entry of that name is no file
      have hold := (entryOf_eq_none.mp hno) j hj
        (((h.used_iff h.isDir).mp hu).resolve_left hnew)
        (by rw [h.nameAt_eq h.isDir, if_neg hnew] at hname; exact hname)
      rw [h.target_eq h.isDir, if_neg hnew] at ht
      have hne : y ≠ i := by
        have hin := (h.wf.target d j h.isDir hj (((h.used_iff h.isDir).mp hu).resolve_left hnew)).2
        exact ht ▸ h.ne hin
      rw [h.made.type hne, ← ht] at hty
      exact absurd hty hold

/-- Walks go where they went. -/
theorem follow_eq (h : Creates fs d s i name) (hx : IsDir fs x) {y : ℕ} (hw : follow fs x ms = some y) :
    follow (created fs d s i name) x ms = some y := by
  induction ms generalizing x with
  | nil => exact hw
  | cons m ms ih =>
    obtain ⟨z, hz, hw⟩ := Option.bind_eq_some_iff.mp hw
    have hz' : entryOf (created fs d s i name) x m DIR = some z := by
      rw [h.entryOf_other hx fun hc => absurd hc.2.2 (by decide)]
      exact hz
    obtain ⟨j, hj, hu, -, rfl, hty⟩ := entryOf_eq_some hz
    rw [follow, hz']
    exact ih (h.wf.scannable.closed x j hx hj hu hty) hw

/-! ### The result is well-formed -/

/-- The count goes up with the entry. -/
theorem counted_self (h : Creates fs d s i name) : ((created fs d s i name).inode d).Counted := by
  rw [h.inode_self]
  exact (h.wf.counted d h.isDir).entry h.nameLen h.head_ne h.slot h.free

/-- **A file is created in a tree**: the result is one. -/
theorem wellFormed (h : Creates fs d s i name) : WellFormed (created fs d s i name) where
  root := h.isDir_iff.mpr h.wf.root
  readable x hx j hj := by
    have hx0 := h.isDir_iff.mp hx
    rw [h.slotName_eq hx0, h.nameAt_eq hx0]
    split_ifs
    · rfl
    · exact h.wf.readable x hx0 j hj
  named x hlt hu := by
    by_cases hi : x = i
    · subst hi
      refine ⟨name, ?_⟩
      rw [created, installed_inode, if_pos rfl]
      exact name_setName h.name0 h.nameLen _
    · obtain ⟨t, ht⟩ := h.wf.named x hlt ((h.made.inUse_iff.mp hu).resolve_left hi)
      refine ⟨t, ?_⟩
      by_cases hd : x = d
      · subst hd
        rw [h.inode_self]
        exact ht
      · rw [h.inode_other hd hi]
        exact ht
  counted x hx := by
    have hx0 := h.isDir_iff.mp hx
    by_cases hd : x = d
    · subst hd
      exact h.counted_self
    · rw [h.inode_other hd (h.ne hx0.inUse)]
      exact h.wf.counted x hx0
  dot x hx := by
    have hx0 := h.isDir_iff.mp hx
    have hold := h.not_new hx0 (j := 0) (by decide)
    rw [h.nameAt_eq hx0, if_neg hold, h.target_eq hx0, if_neg hold]
    exact h.wf.dot x hx0
  dotdot x hx := by
    have hx0 := h.isDir_iff.mp hx
    rw [h.nameAt_eq hx0, if_neg (h.not_new hx0 (by decide))]
    exact h.wf.dotdot x hx0
  rootParent := by
    rw [h.target_eq h.wf.root, if_neg (h.not_new h.wf.root (by decide))]
    exact h.wf.rootParent
  parent x e j hx he ht := by
    have hx0 := h.isDir_iff.mp hx
    rw [h.target_eq hx0, if_neg (h.not_new hx0 (by decide))]
    rcases h.entry_iff.mp he with ⟨rfl, rfl⟩ | he0
    · rw [h.target_new] at ht
      exact absurd ht.symm (h.ne hx0.inUse)
    · rw [h.target_of_entry he0] at ht
      exact h.wf.parent x e j hx0 he0 ht
  target x j hx hj hu := by
    have hx0 := h.isDir_iff.mp hx
    rw [h.target_eq hx0, h.made.inUse_iff]
    split_ifs with hnew
    · exact ⟨h.lt, .inl rfl⟩
    · have hold := h.wf.target x j hx0 hj (((h.used_iff hx0).mp hu).resolve_left hnew)
      exact ⟨hold.1, .inr hold.2⟩
  reached x hlt hu h0 := by
    rcases h.made.inUse_iff.mp hu with rfl | hu
    · refine ⟨d, s, h.entry_iff.mpr (.inl ⟨rfl, rfl⟩), ?_⟩
      exact h.target_new
    · obtain ⟨e, j, he, ht⟩ := h.wf.reached x hlt hu h0
      exact ⟨e, j, h.entry_iff.mpr (.inr he), by rw [h.target_of_entry he, ht]⟩
  once e j e' j' he he' ht := by
    -- the new entry names the new inode, the old ones do not
    rcases h.entry_iff.mp he with ⟨rfl, rfl⟩ | he0
    · rcases h.entry_iff.mp he' with ⟨rfl, rfl⟩ | he0'
      · exact ⟨rfl, rfl⟩
      · rw [h.target_new, h.target_of_entry he0'] at ht
        exact absurd ht.symm (h.target_ne he0')
    · rcases h.entry_iff.mp he' with ⟨rfl, rfl⟩ | he0'
      · rw [h.target_new, h.target_of_entry he0] at ht
        exact absurd ht (h.target_ne he0)
      · rw [h.target_of_entry he0, h.target_of_entry he0'] at ht
        exact h.wf.once e j e' j' he0 he0' ht
  noRoot e j he := by
    rcases h.entry_iff.mp he with ⟨rfl, rfl⟩ | he0
    · rw [h.target_new]
      exact (h.ne h.wf.root.inUse).symm
    · rw [h.target_of_entry he0]
      exact h.wf.noRoot e j he0

end Creates

/-! ### Create, then look up -/

/-- A walker returns this, whatever the globals hold. -/
def Finds (walker : PathBuf → Except Stop (ℤ × PathBuf)) (v : ℤ) : Prop :=
  ∀ g, ∃ g', walker g = .ok (v, g')

/-- No file is called `/`. -/
theorem findCurrentFLPos_slash {P : ℕ → Prop} (h : Scannable fs P) (hroot : P 0) :
    Finds (findCurrentFLPos fs [slash]) (-1) := by
  intro g
  obtain ⟨g', hstep⟩ := walkFromRoot_absolute fs true [] g
  have hnone : entryOf fs 0 [] FL = none := by
    rw [entryOf_eq_none]
    intro i hi hu hnil
    exact absurd hnil (((h.readable 0 hroot).used_iff hi).mp hu)
  have hfind : findEntry fs 0 [] FL = .ok (-1) := by
    have hentry : findEntry fs 0 [] FL = _ := findEntry_eq h hroot
    rwa [hnone] at hentry
  refine ⟨g', ?_⟩
  rw [List.append_nil] at hstep
  rw [findCurrentFLPos, hstep]
  change (findEntry fs 0 [] FL >>= fun index => Except.ok (index, g')) = _
  rw [hfind, ok_bind]

/-- The path of the root leads to the root. -/
theorem findCurrentDirPos_slash : Finds (findCurrentDirPos fs [slash]) 0 := by
  intro g
  exact ⟨g, by rw [findCurrentDirPos, if_pos (strcmp_eq_zero.mpr rfl)]⟩

/-! The empty file system. -/

/-- A formatted file system is well formed. -/
theorem blank_wellFormed : WellFormed Image.blank.fs := by
  have hroot : IsDir Image.blank.fs 0 :=
    ⟨by decide, blank_inUse.mpr rfl, by rw [blank_root]; rfl⟩
  have hdir : ∀ d, IsDir Image.blank.fs d → d = 0 := fun d hd => blank_inUse.mp hd.inUse
  have htarget : ∀ j, Image.blank.fs.target 0 j = 0 := by
    intro j
    rw [FileSystem.target, blank_slotNo]
    rfl
  have hentry : ∀ e j, ¬Entry Image.blank.fs e j := by
    rintro e j ⟨he, hge, -, hu⟩
    obtain rfl := hdir e he
    rcases blank_used.mp hu with rfl | rfl
    · omega
    · omega
  refine ⟨hroot, ?_, ?_, ?_, ?_, ?_, htarget 1, ?_, ?_, ?_, ?_, ?_⟩
  · intro d hd
    obtain rfl := hdir d hd
    exact blank_readable
  · intro x _ hx
    obtain rfl := blank_inUse.mp hx
    exact ⟨[slash], by rw [blank_root]; rfl⟩
  · intro d hd
    obtain rfl := hdir d hd
    exact blank_counted
  · intro d hd
    obtain rfl := hdir d hd
    exact ⟨blank_nameAt, htarget 0⟩
  · intro d hd
    obtain rfl := hdir d hd
    exact blank_nameAt
  · intro d e j _ he
    exact absurd he (hentry e j)
  · intro d j hd _ _
    obtain rfl := hdir d hd
    rw [htarget]
    exact ⟨hroot.lt, hroot.inUse⟩
  · intro x _ hx h0
    exact absurd (blank_inUse.mp hx) h0
  · intro e j e' j' he
    exact absurd he (hentry e j)
  · intro e j he
    exact absurd he (hentry e j)

/-- No file is in it. -/
theorem blank_no_file : ∃ g', findCurrentFLPos Image.blank.fs [slash, 97] ⟨0, fun _ => 0⟩ = .ok (-1, g') := by
  have hnone : entryOf Image.blank.fs 0 [97] FL = none := by
    rw [entryOf_eq_none]
    intro j _ _ hname
    rw [blank_nameAt] at hname
    split_ifs at hname <;> cases hname
  have h := findCurrentFLPos_eq blank_wellFormed.scannable blank_wellFormed.root
    (p := [slash, 97]) (by decide) (by decide) (by decide) rfl ⟨0, fun _ => 0⟩
  rw [show lastPiece [slash, 97] = [97] from rfl, hnone] at h
  exact h

/-- **Create, then look up**: after `makeFL` the path finds the inode that was free, every other
path finds what it found before, and the file system is well-formed again. -/
theorem create_then_lookup (h : WellFormed fs) (hp : p.head? = some slash) (hne : p ≠ [slash])
    (h0 : 0 ∉ p) (hlen : ∀ m ∈ pieces p, m.length < MAX_FILENAME_LEN)
    (hw : follow fs 0 (mids p) = some d) {g g' : PathBuf} (hno : findCurrentFLPos fs p g = .ok (-1, g'))
    (hfree : ∃ x < NR_INODE, fs.super.inodeMap x = available)
    (hslot : ∃ j < NR_DIRDATA, ¬(fs.inode d).Used j) (g0 : PathBuf) :
    ∃ fs' g1 i, makeFL fs p none g0 = .ok (fs', g1) ∧ getAvlInode fs = (i : ℕ) ∧
      Finds (findCurrentFLPos fs' p) i ∧ InUse fs' i ∧ (fs'.inode i).type = FL ∧
      (∀ q d', q.head? = some slash → q ≠ p → 0 ∉ q → follow fs 0 (mids q) = some d' →
        (∃ v, Finds (findCurrentFLPos fs q) v ∧ Finds (findCurrentFLPos fs' q) v) ∧
          ∃ v, Finds (findCurrentDirPos fs q) v ∧ Finds (findCurrentDirPos fs' q) v) ∧
      WellFormed fs' := by
  obtain ⟨hlast, hnil, hmem⟩ := getLastLevelName_absolute hp hne
  have hd : IsDir fs d := h.scannable.follow h.root hw
  have hnone : entryOf fs d (lastPiece p) FL = none := by
    obtain ⟨g2, h2⟩ := findCurrentFLPos_eq h.scannable h.root hp hne h0 hw g
    obtain ⟨hv, -⟩ := Prod.mk.inj (Except.ok.inj (hno.symm.trans h2))
    cases he : entryOf fs d (lastPiece p) FL with
    | none => rfl
    | some y =>
      rw [he, indexOf] at hv
      omega
  -- the call succeeds
  obtain ⟨x, hx, hmap⟩ := hfree
  obtain ⟨i, hi, hav, himap⟩ := getAvlInode_spec (getAvlInode_ne hx hmap)
  obtain ⟨g1, hup⟩ := findUpperDirPos_eq h.scannable h.root hp hne h0 hw g0
  obtain ⟨fs', hmake⟩ := makeFL_eq hav hup hd.lt hi (h.readable d hd)
    (by rw [hlast]; exact hlen _ hmem) hslot
  obtain ⟨i', -, hav', -, e, -, hup', -, s, hs, hsfree, di, -, hfs', hdi⟩ := makeFL_inv hmake
  obtain rfl : i = i' := by exact_mod_cast hav.symm.trans hav'
  obtain rfl : d = e := by exact_mod_cast (Prod.mk.inj (Except.ok.inj (hup.symm.trans hup'))).1
  have hcreates : Creates fs d s i (lastPiece p) := {
    wf := h
    isDir := hd
    slot := hs
    free := fun hu => (Inode.slotName_used hsfree).mp hu rfl
    lt := hi
    available := himap
    name0 := fun hz => h0 (by rw [← flatten_pieces p]; exact List.mem_flatten_of_mem hmem hz)
    nameLen := hlen _ hmem
    nameNe := hnil }
  obtain rfl : fs' = created fs d s i (lastPiece p) := by
    rw [hfs', hdi rfl, hlast]
    rfl
  have hwf := hcreates.wellFormed
  have hfl : Finds (findCurrentFLPos (created fs d s i (lastPiece p)) p) i := by
    intro g
    have := findCurrentFLPos_eq hwf.scannable hwf.root hp hne h0 (hcreates.follow_eq h.root hw) g
    rwa [hcreates.entryOf_new hnone] at this
  refine ⟨_, g1, i, hmake, hav, hfl, hcreates.made.inUse_new, Creates.type_new, ?_, hwf⟩
  intro q d' hq hqp hq0 hqw
  by_cases hqs : q = [slash]
  · subst hqs
    exact ⟨⟨-1, findCurrentFLPos_slash h.scannable h.root, findCurrentFLPos_slash hwf.scannable hwf.root⟩,
      ⟨0, findCurrentDirPos_slash, findCurrentDirPos_slash⟩⟩
  · have hd' : IsDir fs d' := h.scannable.follow h.root hqw
    have hqw' := hcreates.follow_eq h.root hqw
    -- the other path ends in another directory or in another name
    have hother : ∀ ty, entryOf (created fs d s i (lastPiece p)) d' (lastPiece q) ty =
        entryOf fs d' (lastPiece q) ty := by
      intro ty
      apply hcreates.entryOf_other hd'
      rintro ⟨rfl, hl, -⟩
      apply hqp
      refine eq_of_mids hq hqs hp hne ?_ hl
      exact h.follow_inj (fun m hm => dirName_of_mem hq hqs hm) (fun m hm => dirName_of_mem hp hne hm) hqw hw
    refine ⟨⟨_, findCurrentFLPos_eq h.scannable h.root hq hqs hq0 hqw, ?_⟩,
      ⟨_, findCurrentDirPos_eq h.scannable h.root hq hqs hq0 hqw, ?_⟩⟩
    · rw [← hother]
      exact findCurrentFLPos_eq hwf.scannable hwf.root hq hqs hq0 hqw'
    · rw [← hother]
      exact findCurrentDirPos_eq hwf.scannable hwf.root hq hqs hq0 hqw'

/-- A file in the root of an empty file system. -/
theorem create_then_lookup_root :
    ∃ fs' g1 i, makeFL Image.blank.fs [slash, 97] none ⟨0, fun _ => 0⟩ = .ok (fs', g1) ∧
      getAvlInode Image.blank.fs = (i : ℕ) ∧ Finds (findCurrentFLPos fs' [slash, 97]) i ∧
      InUse fs' i ∧ (fs'.inode i).type = FL ∧
      (∀ q d', q.head? = some slash → q ≠ [slash, 97] → 0 ∉ q →
        follow Image.blank.fs 0 (mids q) = some d' →
        (∃ v, Finds (findCurrentFLPos Image.blank.fs q) v ∧ Finds (findCurrentFLPos fs' q) v) ∧
          ∃ v, Finds (findCurrentDirPos Image.blank.fs q) v ∧ Finds (findCurrentDirPos fs' q) v) ∧
      WellFormed fs' := by
  obtain ⟨g', hno⟩ := blank_no_file
  refine create_then_lookup blank_wellFormed (p := [slash, 97]) (d := 0) (by decide) (by decide)
    (by decide) (by decide) rfl hno ⟨1, by decide, ?_⟩ ⟨2, by decide, ?_⟩ ⟨0, fun _ => 0⟩
  · rw [blank_map]
    rfl
  · rw [blank_used]
    decide

end OsLab
