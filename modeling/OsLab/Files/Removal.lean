import OsLab.Files.Accounting
import OsLab.Files.Names
import OsLab.Files.Walks

/-!
# What `rmFL` removes

`findCurrentFLPos` finds an inode by the name and the type of an entry. `rmFL` then looks for the
entry again, by the name that is stored in the inode and by nothing else. `open_aux` asks for a file
before it creates one and `makeDir` asks for nothing, so that a directory and a file of one name can
stand in one directory: the path of a file may end in the slash that the names of directories end in.

* `Grown`: what holds of every file system that opens and `makeDir`s have made out of an empty one.
* `findSlot_eq`: in such a file system the second search finds the first entry of the name.
* **`removes_iff`**: a removal removes what it should and nothing else exactly when no entry of that
  name stands before the one of the file.
* `removes_directory`: after `makeDir("/d")` and `open("/d/")` the removal of the file clears the
  entry of the directory.
-/

namespace OsLab

open OsLab.Lib

variable {fs fs' : FileSystem} {st st' : FileSystem × PathBuf} {p name : List UInt8} {op : FileOp}
  {ops : List FileOp} {g g' g1 : PathBuf} {d s i x j : ℕ} {di : Inode}

/-! ### File systems without removals -/

/-- A tree of directories and files whose names are also stored in their inodes, and free inodes of
zeros. -/
structure Grown (fs : FileSystem) : Prop where
  dirs : DirsInUse fs
  readable : ∀ d, IsDir fs d → (fs.inode d).Readable
  counted : AllCounted fs
  target : ∀ d, IsDir fs d → ∀ j < NR_DIRDATA, (fs.inode d).Used j →
    fs.target d j < NR_INODE ∧ InUse fs (fs.target d j)
  labelled : ∀ d, IsDir fs d → ∀ j < NR_DIRDATA, (fs.inode d).Used j →
    (fs.inode (fs.target d j)).type = FL →
      (fs.inode (fs.target d j)).name = .ok ((fs.inode d).nameAt j)
  clean : ∀ x < NR_INODE, ¬InUse fs x → ∀ a, (fs.inode x).block a = 0

/-- The directories of a file system that has grown can be scanned. -/
theorem Grown.scannable (h : Grown fs) : Scannable fs (IsDir fs) where
  lt _ hd := hd.lt
  readable := h.readable
  counted := h.counted
  target d i hd hi hu := (h.target d hd i hi hu).1
  closed d i hd hi hu hty := h.dirs _ (h.target d hd i hi hu).1 (.inr hty)

/-- The root is one of them. -/
theorem Grown.root (h : Grown fs) : IsDir fs 0 := h.dirs 0 (by decide) (.inl rfl)

/-- No slot of an inode of zeros is in use. -/
theorem bare_of_clean (h : ∀ a, di.block a = 0) : di.Bare := fun _ _ _ hu => hu (h _)

/-- The name of an entry is stored in the file that it leads to, the new one or an old one. -/
theorem Made.labelled {y : ℕ} (h : Made fs fs' d s i name di) (hg : Grown fs) (hd : IsDir fs d)
    (h0 : 0 ∉ name) (hdi : di = newFile (fs.inode i) name ∨ di = newDir (fs.inode i) name i d)
    (hy : IsDir fs y) (hyi : y ≠ i) (hj : j < NR_DIRDATA) (hu : (fs'.inode y).Used j)
    (hfl : (fs'.inode (fs'.target y j)).type = FL) :
    (fs'.inode (fs'.target y j)).name = .ok ((fs'.inode y).nameAt j) := by
  rw [h.target_eq hyi] at hfl ⊢
  rw [h.nameAt_eq hyi h0]
  split_ifs at hfl ⊢ with hat
  · rw [h.inode_new] at hfl ⊢
    rcases hdi with rfl | rfl
    · exact newFile_name h0 h.nameLen
    · exact absurd hfl newDir_type_ne
  · have hold := h.used_old hyi hat hu
    obtain ⟨-, huse⟩ := hg.target y hy j hj hold
    have hti := h.ne_of_inUse huse
    rw [h.type hti] at hfl
    have htd : fs.target y j ≠ d := by
      intro htd
      rw [htd, hd.type] at hfl
      exact absurd hfl (by decide)
    rw [h.inode hti, if_neg htd]
    exact hg.labelled y hy j hj hold hfl

/-- **Creating** keeps all this. -/
theorem Made.grown (h : Made fs fs' d s i name di) (hg : Grown fs) (hd : IsDir fs d) (h0 : 0 ∉ name)
    (hne : name ≠ [])
    (hdi : di = newFile (fs.inode i) name ∨ di = newDir (fs.inode i) name i d) : Grown fs' := by
  have hbare := bare_of_clean (hg.clean i h.lt fun hu => hu h.available)
  have hdir' : IsDir fs' d := h.isDir_of_isDir hd
  have hnew : di.type = DIR → di = newDir (fs.inode i) name i d := by
    intro hty
    rcases hdi with rfl | rfl
    · exact absurd hty newFile_type_ne
    · rfl
  constructor
  case dirs => exact h.dirsInUse hg.dirs
  case readable =>
    intro y hy
    rcases h.isDir_cases hnew hy with ⟨hy0, hyi⟩ | ⟨rfl, heq⟩
    · exact h.readable hyi h0 (hg.readable y hy0)
    · rw [heq]
      exact hbare.readable_newDir
  case counted =>
    refine h.allCounted hg.counted (headD_ne_zero h0 hne) fun hty => ?_
    rw [hnew hty]
    exact counted_newDir hbare
  case target =>
    intro y hy j hj hu
    rcases h.isDir_cases hnew hy with ⟨hy0, hyi⟩ | ⟨rfl, heq⟩
    · rw [h.target_eq hyi]
      split_ifs with hat
      · exact ⟨h.lt, h.inUse_new⟩
      · obtain ⟨h1, h2⟩ := hg.target y hy0 j hj (h.used_old hyi hat hu)
        exact ⟨h1, h.inUse h2⟩
    · rcases h.target_of_newDir hbare heq hj hu with ht | ht
      · rw [ht]
        exact ⟨h.lt, h.inUse_new⟩
      · rw [ht]
        exact ⟨h.parent, hdir'.inUse⟩
  case labelled =>
    intro y hy j hj hu hfl
    rcases h.isDir_cases hnew hy with ⟨hy0, hyi⟩ | ⟨rfl, heq⟩
    · exact h.labelled hg hd h0 hdi hy0 hyi hj hu hfl
    · -- the entries of a new directory lead to directories
      exfalso
      rcases h.target_of_newDir hbare heq hj hu with ht | ht
      · rw [ht, hy.type] at hfl
        exact absurd hfl (by decide)
      · rw [ht, hdir'.type] at hfl
        exact absurd hfl (by decide)
  case clean =>
    intro y hy huse a
    rw [h.inUse_iff, not_or] at huse
    have hyd : y ≠ d := fun hyd => huse.2 (hyd ▸ hd.inUse)
    rw [h.inode huse.1, if_neg hyd]
    exact hg.clean y hy huse.2 a

/-- **An open or a `makeDir`** keeps all this. -/
theorem grown_step (hg : Grown st.1) (hop : op.names) (hk : fileStep st op = .ok st') :
    Grown st'.1 := by
  obtain ⟨fs', g'⟩ := st'
  have hdir : ∀ {p d g g'}, findUpperDirPos st.1 p g = .ok ((d : ℕ), g') → d < NR_INODE →
      IsDir st.1 d := fun hup hlt => hg.dirs.isDir_of_walked (walked_findUpperDirPos hup) hlt
  cases op with
  | openPath path =>
    rcases openPath_inv hk with h | ⟨g1, g2, -, hm⟩
    · rwa [h]
    · obtain ⟨d, s, i, di, hmade, -, -, hup, hdata⟩ := made_of_makeFL hm
      have hd := hdir hup hmade.parent
      have hne : path.val ≠ [] := by
        intro h
        have habs : path.val.head? = some slash := hop
        rw [h] at habs
        cases habs
      refine hmade.grown hg hd (zero_not_mem_getLastLevelName path.property)
        (getLastLevelName_ne_nil hne) (.inl ?_)
      rw [hdata rfl, linked_inode_of_ne (hmade.ne_of_inUse hd.inUse).symm]
  | makeDir path =>
    rcases made_of_makeDir hk with ⟨h, -⟩ | ⟨name, d, s, i, hname, hmade, -, hup⟩
    · rwa [h]
    · have hd := hdir hup hmade.parent
      obtain ⟨hlast, h0⟩ := withSlash_spec hname (zero_not_mem_getLastLevelName path.property)
      have hne : name ≠ [] := by
        rintro rfl
        cases hlast
      refine hmade.grown hg hd h0 hne (.inr ?_)
      rw [linked_inode_of_ne (hmade.ne_of_inUse hd.inUse).symm]
  | make path data => exact hop.elim
  | remove path => exact hop.elim
  | write index buf len offset => exact hop.elim

/-- All inodes are free and hold zeros. -/
structure Unused (fs : FileSystem) : Prop where
  map : ∀ x, fs.super.inodeMap x = available
  type : ∀ x, (fs.inode x).type = UNUSED
  block : ∀ x a, (fs.inode x).block a = 0

/-- The root directory is made in inode 0 only. -/
theorem makeRootDir_inode_of_ne (hx : x ≠ 0) : (makeRootDir fs).inode x = fs.inode x := by
  simp [makeRootDir, FileSystem.setInode, FileSystem.incInuse, FileSystem.setMap, hx]

/-- It is the only one in use. -/
theorem makeRootDir_inUse (h : Unused fs) : InUse (makeRootDir fs) x ↔ x = 0 := by
  have hmap : (makeRootDir fs).super.inodeMap x = if x = 0 then inuse else fs.super.inodeMap x := by
    simp [makeRootDir, FileSystem.setInode, FileSystem.incInuse, FileSystem.setMap,
      Function.update_apply]
  unfold InUse
  rw [hmap, h.map]
  split_ifs with hx
  · exact iff_of_true (by decide) hx
  · exact iff_of_false (fun h => h rfl) hx

/-- The root has the slots of the blank one. -/
theorem makeRootDir_block (h : Unused fs) :
    ((makeRootDir fs).inode 0).block = (Image.blank.fs.inode 0).block := by
  have hzero : (fs.inode 0).block = fun _ => 0 := funext (h.block 0)
  rw [blank_root]
  simp [makeRootDir, FileSystem.setInode, FileSystem.incInuse, FileSystem.setMap, bareRoot,
    Inode.entry, Inode.setSlotName, Inode.setSlotNo, Inode.setName, hzero]

/-- **The empty file system** is one of these. -/
theorem grown_makeRootDir (h : Unused fs) : Grown (makeRootDir fs) := by
  have hblock := makeRootDir_block h
  have hroot : ∀ d, IsDir (makeRootDir fs) d → d = 0 := fun d hd => (makeRootDir_inUse h).mp hd.inUse
  have hdir : IsDir (makeRootDir fs) 0 :=
    ⟨by decide, (makeRootDir_inUse h).mpr rfl, by
      simp [makeRootDir, FileSystem.setInode, FileSystem.incInuse, FileSystem.setMap, Inode.setName,
        Inode.setSlotNo, Inode.setSlotName]⟩
  have htarget : ∀ j, (makeRootDir fs).target 0 j = 0 := by
    intro j
    have hno : ((makeRootDir fs).inode 0).slotNo j = (Image.blank.fs.inode 0).slotNo j := by
      unfold Inode.slotNo
      rw [hblock]
    unfold FileSystem.target
    rw [hno, blank_slotNo]
    rfl
  constructor
  · intro x hx hxd
    by_cases hx0 : x = 0
    · subst hx0
      exact hdir
    · rw [makeRootDir_inode_of_ne hx0, h.type] at hxd
      exact absurd (hxd.resolve_left hx0) (by decide)
  · intro d hd j hj
    obtain rfl := hroot d hd
    have hread := blank_readable j hj
    unfold Inode.slotName Inode.nameAt at hread ⊢
    rw [hblock]
    exact hread
  · intro d hd
    obtain rfl := hroot d hd
    have hcount := blank_counted
    unfold Inode.Counted Inode.usedBelow at hcount ⊢
    rw [hblock, ← hcount]
    rfl
  · intro d hd j _ _
    obtain rfl := hroot d hd
    rw [htarget]
    exact ⟨by decide, hdir.inUse⟩
  · intro d hd j _ _ hfl
    obtain rfl := hroot d hd
    rw [htarget, hdir.type] at hfl
    exact absurd hfl (by decide)
  · intro x _ huse a
    have hx0 : x ≠ 0 := fun hx0 => huse ((makeRootDir_inUse h).mpr hx0)
    rw [makeRootDir_inode_of_ne hx0]
    exact h.block x a

/-! ### The second search -/

/-- The first slot with a name. -/
theorem firstNamed_eq_some : firstNamed fs d name = some j ↔ j < NR_DIRDATA ∧
    ((fs.inode d).Used j ∧ (fs.inode d).nameAt j = name) ∧
      ∀ l < j, (fs.inode d).Used l → (fs.inode d).nameAt l ≠ name := by
  rw [firstNamed, List.find?_range_eq_some]
  simp only [Bool.and_eq_true, decide_eq_true_eq, List.mem_range, Bool.not_eq_true',
    Bool.and_eq_false_iff, decide_eq_false_iff_not]
  constructor
  · rintro ⟨h1, h2, h3⟩
    exact ⟨h2, h1, fun l hl hu => (h3 l hl).resolve_left fun hn => hn hu⟩
  · rintro ⟨h1, h2, h3⟩
    exact ⟨h2, h1, fun l hl => or_iff_not_imp_left.mpr fun hu => h3 l hl (not_not.mp hu)⟩

/-! ### What should be removed -/

/-- `fs'` is `fs` without inode `x` and one of its entries in directory `d`. -/
structure RemovesOnly (fs fs' : FileSystem) (d x : ℕ) : Prop where
  slot : ∃ j < NR_DIRDATA, (fs.inode d).Used j ∧ fs.target d j = x ∧ ¬(fs'.inode d).Used j ∧
    ∀ a, a < 32 * j ∨ 32 * j + 32 ≤ a → (fs'.inode d).block a = (fs.inode d).block a
  type : (fs'.inode d).type = (fs.inode d).type
  size : (fs'.inode d).size = (fs.inode d).size
  filename : (fs'.inode d).filename = (fs.inode d).filename
  inode : ∀ y ≠ d, fs'.inode y = fs.inode y
  inUse : InUse fs x
  freed : fs'.super.inodeMap x = available
  map : ∀ y ≠ x, fs'.super.inodeMap y = fs.super.inodeMap y
  super : fs'.super = { fs.super with inodeMap := fs'.super.inodeMap }
  tail : fs'.tail = fs.tail

/-- What `rmFL` leaves when it clears slot `j` of directory `d`. -/
def cleared (fs : FileSystem) (d j x : ℕ) : FileSystem :=
  (fs.setInode d ((fs.inode d).entry j 0 [])).setMap x available

/-- A slot that is cleared. -/
theorem cleared_inode : (cleared fs d j x).inode d = (fs.inode d).entry j 0 [] := setInode_self

/-- Clearing a slot is right exactly when it is a slot of the inode. -/
theorem removesOnly_cleared (hj : j < NR_DIRDATA) (hu : (fs.inode d).Used j) (hx : InUse fs x) :
    RemovesOnly fs (cleared fs d j x) d x ↔ fs.target d j = x := by
  have hclear : ∀ l, ((cleared fs d j x).inode d).Used l ↔ l ≠ j ∧ (fs.inode d).Used l := by
    intro l
    rw [cleared_inode]
    exact Inode.used_clear j l
  constructor
  · intro h
    obtain ⟨l, -, hul, ht, hgone, -⟩ := h.slot
    rw [hclear] at hgone
    have hlj : l = j := by
      by_contra hlj
      exact hgone ⟨hlj, hul⟩
    rwa [hlj] at ht
  · intro ht
    refine ⟨⟨j, hj, hu, ht, fun hu' => ((hclear j).mp hu').1 rfl, ?_⟩, ?_, ?_, ?_, ?_, hx, ?_, ?_, rfl, rfl⟩
    · intro a ha
      rw [cleared_inode]
      exact Inode.entry_block (by decide) ha
    · rw [cleared_inode]
      rfl
    · rw [cleared_inode]
      rfl
    · rw [cleared_inode]
      rfl
    · exact fun y hy => setInode_of_ne hy
    · exact Function.update_self ..
    · exact fun y hy => Function.update_of_ne hy _ _

/-- **One removal** in such a file system. -/
theorem Grown.removal_iff (hg : Grown fs) (h0 : 0 ∉ p) (hfind : findCurrentFLPos fs p g = .ok ((x : ℤ), g1)) :
    ∃ (d : ℕ) (g2 : PathBuf), findUpperDirPos fs p g1 = .ok ((d : ℤ), g2) ∧ IsDir fs d ∧
      ((∃ fs' g', rmFL fs p g = .ok (fs', g') ∧ RemovesOnly fs fs' d x) ↔
        ∃ j < NR_DIRDATA, (fs.inode d).Used j ∧ fs.target d j = x ∧
          ∀ l < j, (fs.inode d).Used l → (fs.inode d).nameAt l ≠ (fs.inode d).nameAt j) := by
  obtain ⟨d, g2, name, hup, hentry⟩ := findUpperDirPos_of_file h0 hfind (by omega)
  obtain ⟨hlt, i, hi, hname, hne, hxlt, hxi, hty⟩ := findEntry_inv hentry (by omega)
  have hd : IsDir fs d := hg.dirs.isDir_of_walked (walked_findUpperDirPos hup) hlt
  obtain rfl : x = fs.target d i := by exact_mod_cast hxi
  have hui : (fs.inode d).Used i := (Inode.slotName_used hname).mpr hne
  have hnamei : (fs.inode d).nameAt i = name := Inode.nameAt_of_slotName hname
  have hstored : (fs.inode (fs.target d i)).name = .ok name := by
    rw [hg.labelled d hd i hi hui hty, hnamei]
  -- the second search finds something, because there is the entry of the first
  obtain ⟨j, hj⟩ : ∃ j, firstNamed fs d name = some j := by
    cases hf : firstNamed fs d name with
    | some j => exact ⟨j, rfl⟩
    | none =>
      rw [firstNamed, List.find?_eq_none] at hf
      exact absurd (hf i (List.mem_range.mpr hi)) (by simp [hui, hnamei])
  obtain ⟨hjlt, ⟨huj, hnamej⟩, hfirst⟩ := firstNamed_eq_some.mp hj
  have hslot : findSlot fs d (fs.target d i) = .ok (some j) := by
    rw [findSlot_eq hd.lt (hg.readable d hd) (hg.counted d hd) hxlt hstored, hj]
  have hrm : rmFL fs p g = .ok (cleared fs d j (fs.target d i), g2) := by
    have hin : (0 : ℤ) ≤ (fs.target d i : ℕ) ∧ ((fs.target d i : ℕ) : ℤ) < NR_INODE :=
      ⟨by omega, by exact_mod_cast hxlt⟩
    rw [rmFL, hfind, ok_bind]
    dsimp only
    rw [hup, ok_bind]
    dsimp only
    rw [hslot, ok_bind]
    dsimp only
    rw [inodeAt_eq hlt, ok_bind, ok_bind, if_pos hin]
    rfl
  refine ⟨d, g2, hup, hd, ?_⟩
  have hremoves := removesOnly_cleared hjlt huj (hg.target d hd i hi hui).2
  constructor
  · rintro ⟨fs', g', hrm', honly⟩
    obtain ⟨rfl, -⟩ := Prod.mk.inj (Except.ok.inj (hrm.symm.trans hrm'))
    exact ⟨j, hjlt, huj, hremoves.mp honly, by rw [hnamej]; exact hfirst⟩
  · rintro ⟨l, hl, hul, htl, hbefore⟩
    have hnamel : (fs.inode d).nameAt l = name := by
      have hlabel := hg.labelled d hd l hl hul (by rw [htl]; exact hty)
      rw [htl, hstored] at hlabel
      exact (Except.ok.inj hlabel).symm
    have hlj : firstNamed fs d name = some l :=
      firstNamed_eq_some.mpr ⟨hl, ⟨hul, hnamel⟩, by rwa [hnamel] at hbefore⟩
    obtain rfl := Option.some.inj (hj.symm.trans hlj)
    exact ⟨_, g2, hrm, hremoves.mpr htl⟩

/-- A file system grows from a formatted one. -/
theorem grown_run (h : Unused fs) (hops : ∀ op ∈ ops, op.names)
    (hr : run fileStep (makeRootDir fs, g) ops = .ok st) : Grown st.1 :=
  (Reaches.of_run (G := FileOp.names) hr hops).invariant (P := fun _ st => Grown st.1)
    (grown_makeRootDir h) fun _ _ _ _ _ hg hop hk => grown_step hg hop hk

/-- **A removal removes the file and nothing else**, in every file system that opens and `makeDir`s
have made out of an empty one, exactly when no entry of that name stands before the one of the
file. -/
theorem removes_iff (h : Unused fs) (hops : ∀ op ∈ ops, op.names)
    (hr : run fileStep (makeRootDir fs, g') ops = .ok st) (path : CString)
    (hfind : findCurrentFLPos st.1 path.val g = .ok ((x : ℤ), g1)) :
    ∃ (d : ℕ) (g2 : PathBuf), findUpperDirPos st.1 path.val g1 = .ok ((d : ℤ), g2) ∧ IsDir st.1 d ∧
      ((∃ fs' g', rmFL st.1 path.val g = .ok (fs', g') ∧ RemovesOnly st.1 fs' d x) ↔
        ∃ j < NR_DIRDATA, (st.1.inode d).Used j ∧ st.1.target d j = x ∧
          ∀ l < j, (st.1.inode d).Used l → (st.1.inode d).nameAt l ≠ (st.1.inode d).nameAt j) :=
  (grown_run h hops hr).removal_iff path.property hfind

/-- The first file system has no inode in use. -/
theorem unused_zeroFs : Unused zeroFs := ⟨fun _ => rfl, fun _ => rfl, fun _ _ => rfl⟩

/-- A file is opened and removed. -/
theorem removes_iff_opened :
    ∃ st g1 fs' g', run fileStep (makeRootDir zeroFs, ⟨0, fun _ => 0⟩)
        [.openPath ⟨[slash, 97], by decide⟩] = .ok st ∧
      findCurrentFLPos st.1 [slash, 97] ⟨0, fun _ => 0⟩ = .ok (1, g1) ∧
      rmFL st.1 [slash, 97] ⟨0, fun _ => 0⟩ = .ok (fs', g') ∧ RemovesOnly st.1 fs' 0 1 := by
  have hrun : okAnd (run fileStep (makeRootDir zeroFs, ⟨0, fun _ => 0⟩)
      [.openPath ⟨[slash, 97], by decide⟩]) (fun st =>
        okAnd (findCurrentFLPos st.1 [slash, 97] ⟨0, fun _ => 0⟩) fun r =>
          decide (r.1 = 1) && okAnd (findUpperDirPos st.1 [slash, 97] r.2) (fun q => q.1 = 0) &&
          decide ((st.1.inode 0).Used 2) && decide (st.1.target 0 2 = 1) &&
          decide ((st.1.inode 0).nameAt 0 ≠ (st.1.inode 0).nameAt 2) &&
          decide ((st.1.inode 0).nameAt 1 ≠ (st.1.inode 0).nameAt 2)) = true := by
    decide +kernel
  obtain ⟨st, hst, hp⟩ := okAnd_eq_true.mp hrun
  obtain ⟨⟨v, g1⟩, hfind, hp⟩ := okAnd_eq_true.mp hp
  simp only [Bool.and_eq_true, decide_eq_true_eq] at hp
  obtain ⟨⟨⟨⟨⟨rfl, hup⟩, hu⟩, ht⟩, hname0⟩, hname1⟩ := hp
  obtain ⟨⟨w, g2⟩, hup, hw⟩ := okAnd_eq_true.mp hup
  obtain rfl : w = 0 := of_decide_eq_true hw
  obtain ⟨d, g3, hup', -, hiff⟩ := removes_iff (x := 1) unused_zeroFs
    (by intro op hop; rw [List.mem_singleton.mp hop]; rfl) hst ⟨[slash, 97], by decide⟩ hfind
  obtain rfl : d = 0 := by
    have h0 := (Prod.mk.inj (Except.ok.inj (hup.symm.trans hup'))).1
    omega
  have hbefore : ∀ l < 2, (st.1.inode 0).Used l →
      (st.1.inode 0).nameAt l ≠ (st.1.inode 0).nameAt 2 := by
    intro l hl _
    rcases Nat.lt_or_ge l 1 with h0 | h1
    · obtain rfl : l = 0 := by omega
      exact hname0
    · obtain rfl : l = 1 := by omega
      exact hname1
  obtain ⟨fs', g', hrm, honly⟩ := hiff.mpr ⟨2, by decide, hu, ht, hbefore⟩
  exact ⟨st, g1, fs', g', hst, hfind, hrm, honly⟩

/-- **The entry of a directory is removed** in place of the one of a file. -/
theorem removes_directory :
    ¬∀ (fs : FileSystem) (g' g g1 : PathBuf) (ops : List FileOp) (st : FileSystem × PathBuf)
      (path : CString) (x : ℕ), Unused fs → (∀ op ∈ ops, op.names) →
      run fileStep (makeRootDir fs, g') ops = .ok st →
      findCurrentFLPos st.1 path.val g = .ok ((x : ℤ), g1) →
      ∃ (d : ℕ) (g2 : PathBuf), findUpperDirPos st.1 path.val g1 = .ok ((d : ℤ), g2) ∧
        ∃ fs' g', rmFL st.1 path.val g = .ok (fs', g') ∧ RemovesOnly st.1 fs' d x := by
  intro hall
  have hrun : okAnd (run fileStep (makeRootDir zeroFs, ⟨0, fun _ => 0⟩)
      [.makeDir ⟨[slash, 100], by decide⟩, .openPath ⟨[slash, 100, slash], by decide⟩]) (fun st =>
        okAnd (findCurrentFLPos st.1 [slash, 100, slash] ⟨0, fun _ => 0⟩) fun r =>
          decide (r.1 = 2) && okAnd (findUpperDirPos st.1 [slash, 100, slash] r.2) (fun q => q.1 = 0) &&
          decide ((st.1.inode 0).Used 2) &&
          decide ((st.1.inode 0).nameAt 2 = (st.1.inode 0).nameAt 3) &&
          decide (∀ j < NR_DIRDATA, (st.1.inode 0).Used j → st.1.target 0 j = 2 → j = 3)) = true := by
    decide +kernel
  obtain ⟨st, hst, hp⟩ := okAnd_eq_true.mp hrun
  obtain ⟨⟨v, g1⟩, hfind, hp⟩ := okAnd_eq_true.mp hp
  simp only [Bool.and_eq_true, decide_eq_true_eq] at hp
  obtain ⟨⟨⟨⟨rfl, hup⟩, hu⟩, hname⟩, hall3⟩ := hp
  obtain ⟨⟨w, g2⟩, hup, hw⟩ := okAnd_eq_true.mp hup
  obtain rfl : w = 0 := of_decide_eq_true hw
  have hops : ∀ op ∈ ([.makeDir ⟨[slash, 100], by decide⟩,
      .openPath ⟨[slash, 100, slash], by decide⟩] : List FileOp), op.names := by
    intro op hop
    rcases List.mem_pair.mp hop with rfl | rfl <;> rfl
  obtain ⟨d, g3, hup', hrm⟩ := hall zeroFs _ _ g1 _ st ⟨[slash, 100, slash], by decide⟩ 2
    unused_zeroFs hops hst hfind
  obtain ⟨e, g4, hup4, -, hiff⟩ := (grown_run unused_zeroFs hops hst).removal_iff (x := 2)
    (p := [slash, 100, slash]) (by decide) hfind
  have hd : d = 0 := by
    have h0 := (Prod.mk.inj (Except.ok.inj (hup.symm.trans hup'))).1
    omega
  have he : e = 0 := by
    have h0 := (Prod.mk.inj (Except.ok.inj (hup.symm.trans hup4))).1
    omega
  subst hd he
  obtain ⟨j, hj, huj, ht, hbefore⟩ := hiff.mp hrm
  obtain rfl := hall3 j hj huj ht
  exact hbefore 2 (by decide) hu hname

end OsLab
