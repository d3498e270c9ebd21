import OsLab.Files.Accounting
import OsLab.Files.Contents
import OsLab.Files.LongNames

/-!
# Operations that fit

No function of `fs.c` looks at the length of a name or at the begin of a write. An operation `fits` if
the names of its path, the data of a new file and the positions of a write stay inside the buffers
and the block, and if a file that it removes is there. On a file system whose directories can be
walked through it then leaves no object.

* `Traversable`: in every directory in use the entries can be read, counted and followed.
* `Traversable.not_wild`: an operation that fits comes to its end there, or to a failed assertion.
* `countsKept`: the operations that fit and keep the number of entries, which keep `Traversable`.
* **`directories_counted`**: the count in all runs of such operations, and what follows for the scans.
* **`remove_uncounted`**: one removal is enough to break it.
-/

namespace OsLab

open OsLab.Lib

variable {fs fs' : FileSystem} {st st' : FileSystem × PathBuf} {p name : List UInt8} {op : FileOp}
  {ops : List FileOp} {m : Maker} {g g' : PathBuf} {d s i x : ℕ} {di : Inode}

/-! ### Directories that can be walked through -/

/-- The root and the directories are in use; the names in them end within their 28 bytes, their
`filenum` is right and their entries name inodes of the table. So do the names in the inodes. -/
structure Traversable (fs : FileSystem) : Prop where
  dirs : DirsInUse fs
  readable : ∀ d, IsDir fs d → (fs.inode d).Readable
  counted : AllCounted fs
  target : ∀ d i, IsDir fs d → i < NR_DIRDATA → (fs.inode d).Used i → fs.target d i < NR_INODE
  named : ∀ x < NR_INODE, ∃ t, (fs.inode x).name = .ok t

/-- The root is a directory. -/
theorem Traversable.root (h : Traversable fs) : IsDir fs 0 := h.dirs 0 (by decide) (.inl rfl)

/-- The walkers can scan every directory and stay in directories. -/
theorem Traversable.scannable (h : Traversable fs) : Scannable fs (IsDir fs) where
  lt _ hd := hd.lt
  readable := h.readable
  counted := h.counted
  target := h.target
  closed d i hd hi hu hty := h.dirs _ (h.target d i hd hi hu) (.inr hty)

/-- The search for a file ends, or fails the assertion where a directory is missing. -/
theorem findCurrentFLPos_cases {P : ℕ → Prop} (h : Scannable fs P) (hroot : P 0)
    (hp : p.head? = some slash) (h0 : 0 ∉ p) (hlen : ∀ q ∈ mids p, q.length < MAX_FILENAME_LEN) (g : PathBuf) :
    findCurrentFLPos fs p g = .error .abort ∨ ∃ v g', findCurrentFLPos fs p g = .ok (v, g') := by
  by_cases hne : p = [slash]
  · subst hne
    obtain ⟨g', hfl⟩ := findCurrentFLPos_slash h hroot g
    exact .inr ⟨-1, g', hfl⟩
  cases hw : follow fs 0 (mids p) with
  | some d =>
    obtain ⟨g', hfl⟩ := findCurrentFLPos_eq h hroot hp hne h0 hw g
    exact .inr ⟨_, g', hfl⟩
  | none =>
    left
    rw [findCurrentFLPos, walkFromRoot_abort h hroot hp hne h0 hlen hw, error_bind]

/-- The removal of a file that is there ends. -/
theorem Traversable.rmFL_ok (h : Traversable fs) (h0 : 0 ∉ p) {v : ℤ}
    (hfl : findCurrentFLPos fs p g = .ok (v, g')) (hv : v ≠ -1) :
    ∃ fs' g2, rmFL fs p g = .ok (fs', g2) := by
  obtain ⟨d, g2, name, hup, hentry⟩ := findUpperDirPos_of_file h0 hfl hv
  obtain ⟨hlt, j, -, -, -, hx, rfl, -⟩ := findEntry_inv hentry hv
  have hd : IsDir fs d := h.dirs.isDir_of_walked (walked_findUpperDirPos hup) hlt
  obtain ⟨t, ht⟩ := h.named _ hx
  obtain ⟨fs', hrm⟩ := OsLab.rmFL_ok hfl hup
    (findSlot_eq hlt (h.readable d hd) (h.counted d hd) hx ht) hlt hx
  exact ⟨fs', g2, hrm⟩

/-! ### What keeps it -/

/-- `fs'` has no other directories in use than `fs`, and the same names in its inodes. -/
structure KeepsDirs (fs fs' : FileSystem) : Prop where
  dir : ∀ x, IsDir fs' x → IsDir fs x ∧ fs'.inode x = fs.inode x
  name : ∀ x, (fs'.inode x).name = (fs.inode x).name

/-- An operation that keeps the directories keeps this. -/
theorem Traversable.mono (h : Traversable fs) (hk : KeepsDirs fs fs') (hu : DirsInUse fs') :
    Traversable fs' where
  dirs := hu
  readable d hd := by
    obtain ⟨hd, heq⟩ := hk.dir d hd
    rw [heq]
    exact h.readable d hd
  counted := h.counted.mono hk.dir
  target d i hd' hi hu := by
    obtain ⟨hd, heq⟩ := hk.dir d hd'
    rw [heq] at hu
    rw [FileSystem.target, heq]
    exact h.target d i hd hi hu
  named x hx := by
    rw [hk.name]
    exact h.named x hx

/-- **A new entry** for a file, or for a directory in an inode with nothing behind its first two
slots. -/
theorem Made.traversable (hm : Made fs fs' d s i name di) (h : Traversable fs) (h0 : 0 ∉ name)
    (hne : name ≠ []) (hlabel : di.name = .ok name)
    (hdi : di.type = DIR → di = newDir (fs.inode i) name i d ∧ (fs.inode i).Bare) : Traversable fs' where
  dirs := hm.dirsInUse h.dirs
  readable y hy := by
    rcases hm.isDir_cases (fun hty => (hdi hty).1) hy with ⟨hy0, hyi⟩ | ⟨rfl, heq⟩
    · exact hm.readable hyi h0 (h.readable y hy0)
    · have hty := hy.type
      rw [hm.inode_new] at hty
      rw [heq]
      exact (hdi hty).2.readable_newDir
  counted := by
    refine hm.allCounted h.counted (headD_ne_zero h0 hne) fun hty => ?_
    obtain ⟨rfl, hbare⟩ := hdi hty
    exact counted_newDir hbare
  target y j hy hj hu := by
    rcases hm.isDir_cases (fun hty => (hdi hty).1) hy with ⟨hy0, hyi⟩ | ⟨rfl, heq⟩
    · rw [hm.target_eq hyi]
      split_ifs with hat
      · exact hm.lt
      · exact h.target y j hy0 hj (hm.used_old hyi hat hu)
    · have hty := hy.type
      rw [hm.inode_new] at hty
      rcases hm.target_of_newDir (hdi hty).2 heq hj hu with ht | ht
      · rw [ht]
        exact hm.lt
      · rw [ht]
        exact hm.parent
  named y hy := by
    by_cases hyi : y = i
    · rw [hyi, hm.inode_new]
      exact ⟨name, hlabel⟩
    · rw [hm.inode hyi]
      split_ifs with hyd
      · rw [← hyd]
        exact h.named y hy
      · exact h.named y hy

/-- **A maker's run** where what it stores fits: a failed assertion, or such a file system. -/
theorem Traversable.run_cases (h : Traversable fs) (hp : p.head? = some slash) (h0 : 0 ∉ p)
    (hfits : m.Fits fs p) (g : PathBuf)
    (hbare : ∀ (i d : ℕ) g', m = .dir → getAvlInode fs = i →
      findUpperDirPos fs p g = .ok ((d : ℤ), g') → (fs.inode i).Bare) :
    m.run fs p g = .error .abort ∨ ∃ fs' g', m.run fs p g = .ok (fs', g') ∧ Traversable fs' := by
  rcases Maker.run_cases h.scannable h.root hp h0 hfits g with habort | ⟨g', hok⟩ | ⟨g', d, s, i, hm⟩
  · exact .inl habort
  · exact .inr ⟨fs, g', hok, h⟩
  · have hname0 := Maker.zero_not_mem (m := m) hp h0
    refine .inr ⟨_, g', hm.run, ?_⟩
    refine hm.made.traversable h hname0 (Maker.entryName_ne_nil hp)
      (Maker.inode_name hname0 hm.nameLen) ?_
    intro hty
    cases m with
    | dir => exact ⟨rfl, hbare i d g' rfl hm.inode hm.upper⟩
    | file data => exact absurd hty Maker.inode_file_type

/-! ### Operations that leave no object -/

/-- What the operation stores and where it looks fits. The paths are absolute. The names of the
directories that `open` looks for have at most 27 characters; what a creation stores fits
(`Maker.Fits`); a file that is removed is there; and a write goes to an inode of the table and neither
begins nor ends at a negative position. -/
def FileOp.fits (st : FileSystem × PathBuf) : FileOp → Prop
  | .openPath path => path.val.head? = some slash ∧
      (∀ q ∈ mids path.val, q.length < MAX_FILENAME_LEN) ∧
      ∀ g, isFLExist st.1 path.val st.2 = .ok (false, g) → (Maker.file none).Fits st.1 path.val
  | .make path data => path.val.head? = some slash ∧ (Maker.file data).Fits st.1 path.val
  | .makeDir path => path.val.head? = some slash ∧ Maker.dir.Fits st.1 path.val
  | .remove path => ∃ v g, findCurrentFLPos st.1 path.val st.2 = .ok (v, g) ∧ v ≠ -1
  | .write index _ len offset =>
      (0 ≤ index ∧ index < NR_INODE) ∧ 0 ≤ len ∧ 0 ≤ offset ∧ offset + len < 2 ^ 31

/-- A file that fits is made, or an assertion fails. -/
theorem Traversable.makeFL_cases (h : Traversable fs) {data : Option (List UInt8)}
    (hp : p.head? = some slash) (h0 : 0 ∉ p) (hfits : (Maker.file data).Fits fs p) (g : PathBuf) :
    makeFL fs p data g = .error .abort ∨ ∃ fs' g', makeFL fs p data g = .ok (fs', g') ∧ Traversable fs' :=
  h.run_cases hp h0 hfits g fun _ _ _ hm => nomatch hm

/-- **An operation that fits** leaves no object. -/
theorem Traversable.not_wild (h : Traversable st.1) (hfits : op.fits st) (a : Access) :
    fileStep st op ≠ .error (.wild a) := by
  intro hwild
  cases op with
  | openPath path =>
    obtain ⟨hp, hlen, hmake⟩ := hfits
    have hlook := findCurrentFLPos_cases h.scannable h.root hp path.property hlen st.2
    simp only [fileStep, openPath, isFLExist, bind_eq_error] at hwild
    rcases hwild with hwild | ⟨⟨b, g1⟩, hfound, hwild⟩
    · -- the first search
      rcases hlook with habort | ⟨v, g1, hfl⟩
      · simp [habort] at hwild
      · simp [hfl] at hwild
    have hnew : (if b then Except.ok (st.1, g1) else makeFL st.1 path.val none g1) = .error .abort ∨
        ∃ fs' g', (if b then Except.ok (st.1, g1) else makeFL st.1 path.val none g1) = .ok (fs', g') ∧
          Traversable fs' := by
      cases b with
      | true => exact .inr ⟨st.1, g1, rfl, h⟩
      | false => exact h.makeFL_cases hp path.property (hmake g1 hfound) g1
    rcases hnew with habort | ⟨fs', g', hok, h'⟩
    · simp [habort] at hwild
    · -- the search for the file that is now there
      rw [hok] at hwild
      rcases findCurrentFLPos_cases h'.scannable h'.root hp path.property hlen g' with habort | ⟨v, g2, hfl⟩
      · simp [habort] at hwild
      · simp [hfl] at hwild
  | make path data =>
    rcases h.makeFL_cases hfits.1 path.property hfits.2 st.2 with habort | ⟨fs', g', hok, -⟩
    · simp [fileStep, habort] at hwild
    · simp [fileStep, hok] at hwild
  | makeDir path =>
    rcases Maker.run_cases h.scannable h.root hfits.1 path.property hfits.2 st.2 with
      habort | ⟨g', hok⟩ | ⟨g', d, s, i, hm⟩
    · simp only [Maker.run] at habort
      simp [fileStep, habort] at hwild
    · simp only [Maker.run] at hok
      simp [fileStep, hok] at hwild
    · have hok := hm.run
      simp only [Maker.run] at hok
      simp [fileStep, hok] at hwild
  | remove path =>
    obtain ⟨v, g, hfl, hv⟩ := hfits
    obtain ⟨fs', g', hok⟩ := h.rmFL_ok path.property hfl hv
    simp [fileStep, hok] at hwild
  | write index buf len offset =>
    obtain ⟨⟨h0, hx⟩, hlen, hoff, hsum⟩ := hfits
    obtain ⟨x, rfl⟩ := Int.eq_ofNat_of_zero_le h0
    rcases bind_eq_error.mp hwild with hwild | ⟨r, -, hwild⟩
    · exact writeF_not_wild (by exact_mod_cast hx) hoff hlen hsum a hwild
    · cases hwild

/-! ### What the operations do to the counts -/

/-- The operation fits and keeps the counts: a new directory gets an inode that is not its parent and
has nothing behind its first two slots, a removal finds no slot with the name that is stored in the
inode, and a write is no write to a directory. -/
def countsKept (st : FileSystem × PathBuf) (op : FileOp) : Prop :=
  op.fits st ∧
    match op with
    | .openPath _ | .make _ _ => True
    | .makeDir path => ∀ (i d : ℕ) g, getAvlInode st.1 = i →
        findUpperDirPos st.1 path.val st.2 = .ok ((d : ℤ), g) → d ≠ i ∧ (st.1.inode i).Bare
    | .remove path => ∀ (x d : ℕ) g1 g2, findCurrentFLPos st.1 path.val st.2 = .ok ((x : ℤ), g1) →
        findUpperDirPos st.1 path.val g1 = .ok ((d : ℤ), g2) → IsDir st.1 d →
        ∀ j < NR_DIRDATA, ∀ t ≠ [], (st.1.inode d).slotName j = .ok t → (st.1.inode x).name ≠ .ok t
    | .write index _ _ _ => ∀ x : ℕ, index = x → ¬IsDir st.1 x

/-- An absolute path has a first character. -/
theorem path_ne_nil (hp : p.head? = some slash) : p ≠ [] := by
  rintro rfl
  cases hp

/-- Such a removal or write changes no directory. -/
theorem keepsDirs_remove {path : CString} (hok : countsKept st (.remove path))
    (hk : fileStep st (.remove path) = .ok st') : KeepsDirs st.1 st'.1 := by
  obtain ⟨fs', g'⟩ := st'
  obtain ⟨x, hx, g1, v, slot, hfl, hup, hslot, hcase⟩ := rmFL_inv hk
  rcases hcase with ⟨-, rfl⟩ | ⟨d, -, rfl, j, rfl, rfl⟩
  · exact ⟨fun y hy => ⟨isDir_of_freed hy, rfl⟩, fun y => rfl⟩
  · refine ⟨fun y hy => ?_, fun y => ?_⟩
    · have hy0 : IsDir st.1 y := (isDir_setInode (by rfl)).mp (isDir_of_freed hy)
      refine ⟨hy0, setInode_of_ne ?_⟩
      rintro rfl
      obtain ⟨hj, t, ht, hslot, hname⟩ := findSlot_inv hslot
      exact hok.2 x y g1 g' hfl hup hy0 j hj t ht hslot hname
    · change ((st.1.setInode d ((st.1.inode d).entry j 0 [])).inode y).name = (st.1.inode y).name
      by_cases hyd : y = d
      · rw [hyd, setInode_self]
        rfl
      · rw [setInode_of_ne hyd]

/-- A write that meets the condition leaves every directory as it is. -/
theorem keepsDirs_write {index len offset : ℤ} {buf : ℕ → UInt8}
    (hok : countsKept st (.write index buf len offset))
    (hk : fileStep st (.write index buf len offset) = .ok st') : KeepsDirs st.1 st'.1 := by
  obtain ⟨⟨fs1, v⟩, hw, hk⟩ := bind_eq_ok.mp hk
  obtain rfl := Except.ok.inj hk
  obtain ⟨x, -, hx, block, -, -, -, rfl⟩ := writeF_inv hw
  refine ⟨fun y hy => ?_, fun y => ?_⟩
  · have hy0 : IsDir st.1 y := (isDir_setInode (by rfl)).mp hy
    refine ⟨hy0, setInode_of_ne ?_⟩
    rintro rfl
    exact hok.2 y hx hy0
  · by_cases hyx : y = x
    · rw [hyx]
      dsimp only
      rw [setInode_self]
      rfl
    · dsimp only
      rw [setInode_of_ne hyx]

/-- **Every such operation** keeps the counts. -/
theorem allCounted_step (hc : AllCounted st.1) (hok : countsKept st op) (hk : fileStep st op = .ok st') :
    AllCounted st'.1 := by
  obtain ⟨fs', g'⟩ := st'
  -- a file with a name
  have hmake : ∀ (path : CString) data g g2, path.val ≠ [] →
      makeFL st.1 path.val data g = .ok (fs', g2) → AllCounted fs' := by
    intro path data g g2 hne hm
    obtain ⟨d, s, i, di, hmade, hty, -⟩ := made_of_makeFL hm
    refine hmade.allCounted hc (headD_ne_zero (zero_not_mem_getLastLevelName path.property)
      (getLastLevelName_ne_nil hne)) ?_
    intro hdir
    rw [hty] at hdir
    exact absurd hdir (by decide)
  cases op with
  | openPath path =>
    rcases openPath_inv hk with h | ⟨g1, g2, -, hm⟩
    · rwa [h]
    · exact hmake path none g1 g2 (path_ne_nil hok.1.1) hm
  | make path data => exact hmake path data st.2 g' (path_ne_nil hok.1.1) hk
  | makeDir path =>
    rcases made_of_makeDir hk with ⟨h, -⟩ | ⟨name, d, s, i, hname, hmade, hav, hup⟩
    · rwa [h]
    · obtain ⟨hlast, h0⟩ := withSlash_spec hname (zero_not_mem_getLastLevelName path.property)
      have hne : name ≠ [] := by
        rintro rfl
        cases hlast
      obtain ⟨hdi, hbare⟩ := hok.2 i d g' hav hup
      refine hmade.allCounted hc (headD_ne_zero h0 hne) fun _ => counted_newDir ?_
      rw [linked_inode_of_ne hdi.symm]
      exact hbare
  | remove path => exact hc.mono (keepsDirs_remove hok hk).dir
  | write index buf len offset => exact hc.mono (keepsDirs_write hok hk).dir

/-- ... and the directories of a file system such that they can be walked through. -/
theorem traversable_step (h : Traversable st.1) (hok : countsKept st op) (hk : fileStep st op = .ok st') :
    Traversable st'.1 := by
  have hdirs : DirsInUse st'.1 := dirsInUse_step h.dirs hk
  obtain ⟨fs', g'⟩ := st'
  have hmake : ∀ (path : CString) data g g2, path.val.head? = some slash →
      (Maker.file data).Fits st.1 path.val → makeFL st.1 path.val data g = .ok (fs', g2) →
      Traversable fs' := by
    intro path data g g2 hp hfits hm
    rcases h.makeFL_cases hp path.property hfits g with habort | ⟨fs1, g1, hok, h1⟩
    · rw [habort] at hm
      cases hm
    · obtain ⟨rfl, -⟩ := Prod.mk.inj (Except.ok.inj (hok.symm.trans hm))
      exact h1
  cases op with
  | openPath path =>
    obtain ⟨hp, -, hfits⟩ := hok.1
    rcases openPath_inv hk with hsame | ⟨g1, g2, he, hm⟩
    · rwa [hsame]
    · exact hmake path none g1 g2 hp (hfits g1 he) hm
  | make path data => exact hmake path data st.2 g' hok.1.1 hok.1.2 hk
  | makeDir path =>
    have hk : Maker.dir.run st.1 path.val st.2 = .ok (fs', g') := hk
    rcases h.run_cases hok.1.1 path.property hok.1.2 st.2 fun i d g2 _ hav hup => (hok.2 i d g2 hav hup).2
      with habort | ⟨fs1, g1, hrun, h1⟩
    · rw [habort] at hk
      cases hk
    · obtain ⟨rfl, -⟩ := Prod.mk.inj (Except.ok.inj (hrun.symm.trans hk))
      exact h1
  | remove path => exact h.mono (keepsDirs_remove hok hk) hdirs
  | write index buf len offset => exact h.mono (keepsDirs_write hok hk) hdirs

/-! ### Runs -/

/-- **Directories are counted** in every run of such operations; so the scans of a directory in use
stay inside it, and where all directories are in use at the start, so do the walkers, `rmFL` and
`ls_aux`. Where the directories can be walked through at the start, none of the operations leaves an
object. -/
theorem directories_counted (hc : AllCounted st.1) (hr : Reaches fileStep countsKept st ops st') :
    AllCounted st'.1 ∧
      (∀ d, IsDir st'.1 d → (∀ name ty, Inside (findEntry st'.1 d name ty)) ∧
        (∀ x, Inside (findSlot st'.1 d x)) ∧
        ∀ sc, Inside (scanDir (st'.1.inode d) (fun _ name s => do
          let s ← printQ [37, 115, 9] (fun _ => ⟨0, name⟩) s
          .ok (false, s)) (NR_DIRDATA - 2) 2 2 sc)) ∧
      (DirsInUse st.1 → ∀ path g, Inside (findUpperDirPos st'.1 path g) ∧
        Inside (findCurrentDirPos st'.1 path g) ∧ Inside (findCurrentFLPos st'.1 path g) ∧
        Inside (rmFL st'.1 path g) ∧ ∀ k : Kernel, k.fs = st'.1 → ∀ a, Inside (lsAux a k)) ∧
      (Traversable st.1 → ∀ op, countsKept st' op → ∀ a, fileStep st' op ≠ .error (.wild a)) := by
  have hcount : AllCounted st'.1 := hr.invariant (P := fun _ st => AllCounted st.1) hc
    fun _ _ _ _ _ hc hok hs => allCounted_step hc hok hs
  refine ⟨hcount, ?_, ?_, ?_⟩
  · intro d hd
    have hdi := hcount d hd
    have hat : ∀ di, st'.1.inodeAt d = .ok di → di.Counted := by
      intro di h
      rw [inodeAt_eq hd.lt] at h
      rwa [← Except.ok.inj h]
    refine ⟨fun name ty => inside_findEntry hat, fun x => inside_findSlot hat, ?_⟩
    intro sc
    refine hdi.scan_two ?_ _
    intro i s a
    exact inside_printQ_name.bind fun _ _ => inside_ok _
  · intro hu path g
    have hdirs : CountedDirs st'.1 := hcount.dirs (hr.invariant (P := fun _ st => DirsInUse st.1) hu
      fun _ _ _ _ _ hu _ hs => dirsInUse_step hu hs)
    refine ⟨inside_findUpperDirPos hdirs, inside_findCurrentDirPos hdirs,
      inside_findCurrentFLPos hdirs, inside_rmFL hdirs, ?_⟩
    rintro k hk a
    exact inside_lsAux (by rwa [hk]) a
  · intro ht op hok
    have ht' : Traversable st'.1 := hr.invariant (P := fun _ st => Traversable st.1) ht
      fun _ _ _ _ _ ht hok hs => traversable_step ht hok hs
    exact ht'.not_wild hok.1

/-- A formatted file system has its directories in use. -/
theorem blank_dirsInUse : DirsInUse Image.blank.fs := by
  rintro x hx (rfl | hty)
  · exact blank_wellFormed.root
  · exact ⟨hx, fun hmap => by
      have hne : x ≠ 0 := by
        rintro rfl
        exact blank_inUse.mpr rfl hmap
      rw [blank_other hne] at hty
      exact absurd hty (by decide), hty⟩

/-- The empty file system can be walked through. -/
theorem blank_traversable : Traversable Image.blank.fs where
  dirs := blank_dirsInUse
  readable := blank_wellFormed.readable
  counted := blank_allCounted
  target d i hd hi hu := (blank_wellFormed.target d i hd hi hu).1
  named x hx := by
    by_cases hx0 : x = 0
    · rw [hx0]
      exact blank_wellFormed.named 0 (by decide) blank_wellFormed.root.inUse
    · rw [blank_other hx0]
      exact ⟨[], rfl⟩

/-- The empty file system gets a directory, with a file in it, and a second file leaves no object. -/
theorem directories_counted_dirFile :
    ∃ st', run fileStep (Image.blank.fs, ⟨0, fun _ => 0⟩) [.makeDir ⟨[slash, 98], by decide⟩,
        .openPath ⟨[slash, 98, slash, 99], by decide⟩] = .ok st' ∧ AllCounted st'.1 ∧
      ∀ a, fileStep st' (.openPath ⟨[slash, 98, slash, 100], by decide⟩) ≠ .error (.wild a) := by
  obtain ⟨st', hst⟩ := exists_ok (x := run fileStep (Image.blank.fs, ⟨0, fun _ => 0⟩)
    [.makeDir ⟨[slash, 98], by decide⟩, .openPath ⟨[slash, 98, slash, 99], by decide⟩])
    (by decide +kernel)
  have hfirst : countsKept (Image.blank.fs, ⟨0, fun _ => 0⟩) (.makeDir ⟨[slash, 98], by decide⟩) := by
    refine ⟨⟨rfl, .inr ⟨⟨by decide, by simp [mids, pieces, follow]⟩, fun d _ => ⟨by decide, .inr trivial⟩⟩⟩, ?_⟩
    intro i d g hi hup
    have hne := blank_getAvlInode hi
    obtain rfl : d = 0 := by
      exact_mod_cast blank_findUpperDirPos (by decide) (by decide) (by decide) rfl hup
    refine ⟨hne.symm, ?_⟩
    intro j _ _ hu
    rw [blank_other hne] at hu
    exact hu rfl
  -- what `open` needs of a path into that directory
  have hopen : ∀ (st : FileSystem × PathBuf) (path : CString), path.val.head? = some slash →
      mids path.val = [[98, slash]] → (lastPiece path.val).length < MAX_FILENAME_LEN →
      countsKept st (.openPath path) := by
    intro st path hp hmids hname
    have hway : WayFits st.1 path.val := by
      rw [WayFits, hmids]
      exact ⟨by decide, by simp [follow]⟩
    exact ⟨⟨hp, hway.1, fun _ _ => .inr ⟨hway, fun _ _ => ⟨hname, .inr trivial⟩⟩⟩, trivial⟩
  have hsteps := hst
  rw [run_cons, bind_eq_ok] at hsteps
  obtain ⟨st1, h1, hsteps⟩ := hsteps
  rw [run_cons, bind_eq_ok] at hsteps
  obtain ⟨st2, h2, h3⟩ := hsteps
  obtain rfl := Except.ok.inj h3
  obtain ⟨hcount, -, -, hnot⟩ := directories_counted blank_allCounted
    ((Reaches.nil.snoc hfirst h1).snoc (hopen st1 ⟨[slash, 98, slash, 99], by decide⟩ rfl rfl (by decide)) h2)
  exact ⟨st2, hst, hcount, hnot blank_traversable _ (hopen st2 _ rfl rfl (by decide))⟩

/-- The creations, removals and writes to files. -/
def FileOp.onFiles (fs : FileSystem) : FileOp → Prop
  | .openPath path | .make path _ | .makeDir path | .remove path => path.val.head? = some slash
  | .write index _ _ _ => ∃ x : ℕ, index = x ∧ (fs.inode x).type = FL

/-- **A removal is not counted**: the root keeps a `filenum` of 3 when its only file is gone. -/
theorem remove_uncounted :
    ¬∀ (st st' : FileSystem × PathBuf) (ops : List FileOp), AllCounted st.1 →
      Reaches fileStep (fun st op => op.onFiles st.1) st ops st' → AllCounted st'.1 := by
  intro hall
  have hrun : okAnd (run fileStep (Image.blank.fs, ⟨0, fun _ => 0⟩)
      [.openPath ⟨[slash, 97], by decide⟩, .remove ⟨[slash, 97], by decide⟩]) (fun st =>
        decide (st.1.super.inodeMap 0 ≠ available) && decide ((st.1.inode 0).type = DIR) &&
          decide ((st.1.inode 0).filenum = 3) &&
          decide (∀ j < NR_DIRDATA, 2 ≤ j → ¬(st.1.inode 0).Used j)) = true := by
    decide +kernel
  obtain ⟨st', hst, hp⟩ := okAnd_eq_true.mp hrun
  simp only [Bool.and_eq_true, decide_eq_true_eq] at hp
  obtain ⟨⟨⟨huse, hty⟩, hnum⟩, hfree⟩ := hp
  have hreach : Reaches fileStep (fun st op => op.onFiles st.1) (Image.blank.fs, ⟨0, fun _ => 0⟩)
      [.openPath ⟨[slash, 97], by decide⟩, .remove ⟨[slash, 97], by decide⟩] st' := by
    refine (Reaches.of_run (G := fun op => ∀ fs, op.onFiles fs) hst ?_).mono fun st op h => h st.1
    intro op hop fs
    rcases List.mem_pair.mp hop with rfl | rfl <;> rfl
  have hcount := hall _ st' _ blank_allCounted hreach 0 ⟨by decide, huse, hty⟩
  unfold Inode.Counted at hcount
  rw [hnum, Inode.usedBelow_eq (n := 2) (by decide) fun j h2 hj => hfree j hj h2] at hcount
  have htwo : (st'.1.inode 0).usedBelow 2 ≤ 2 := (countOf_le _ _ _).trans (by rw [Finset.card_range])
  have hthree : (3 : UInt32).toNat = 3 := rfl
  omega

end OsLab
