import OsLab.Files.Fitting

/-!
# Names in a directory

`UniqueNames` says that no directory in use has two entries of one name. `open_aux` asks for a
*file* before it creates one, and `makeDir` asks for nothing, so that a name can be made twice: by a
`makeDir` of a directory that exists, or by a file whose path ends in the slash that the names of
directories end in. A directory that gets a recycled inode moreover inherits what stands behind its
first two slots.

* `Made.uniqueNames`: an entry with a name that its directory does not have keeps the names unique.
* `names_unique`: so do all runs in which this is so, and recycled inodes are clean (`namesFresh`).
* `makeDir_twice`: the shortest run that makes a name twice.
-/

namespace OsLab

open OsLab.Lib

variable {fs fs' : FileSystem} {st st' : FileSystem × PathBuf} {p name : List UInt8} {op : FileOp}
  {ops : List FileOp} {g : PathBuf} {d s i j : ℕ} {di : Inode} {no : UInt32}

/-! ### One directory -/

/-- No two slots have one name. -/
def Inode.Distinct (d : Inode) : Prop :=
  ∀ j < NR_DIRDATA, ∀ l < NR_DIRDATA, ∀ s ≠ [], d.slotName j = .ok s → d.slotName l = .ok s → l = j

/-- Behind the first two slots no two have one name, and none is called `.` or `..`. -/
def Inode.Clean (d : Inode) : Prop :=
  ∀ j < NR_DIRDATA, 2 ≤ j → ∀ s ≠ [], d.slotName j = .ok s → s ≠ [dot] ∧ s ≠ [dot, dot] ∧
    ∀ l < NR_DIRDATA, 2 ≤ l → d.slotName l = .ok s → l = j

/-- No slot has this name. -/
def Inode.Lacks (d : Inode) (name : List UInt8) : Prop :=
  ∀ j < NR_DIRDATA, d.slotName j ≠ .ok name

/-- An entry with a new name. -/
theorem Inode.Distinct.entry (h : di.Distinct) (hlen : name.length < MAX_FILENAME_LEN) (h0 : 0 ∉ name)
    (hnew : di.Lacks name) : (di.entry s no name).Distinct := by
  intro j hj l hl t ht h1 h2
  rw [Inode.slotName_entry hlen h0] at h1 h2
  split_ifs at h1 h2 with hjs hls hls
  · rw [hjs, hls]
  · rw [← h1] at h2
    exact absurd h2 (hnew l hl)
  · rw [← h2] at h1
    exact absurd h1 (hnew j hj)
  · exact h j hj l hl t ht h1 h2

/-- An entry with a new name keeps a directory clean. -/
theorem Inode.Clean.entry (h : di.Clean) (hlen : name.length < MAX_FILENAME_LEN) (h0 : 0 ∉ name)
    (hdot : name ≠ [dot] ∧ name ≠ [dot, dot]) (hnew : di.Lacks name) : (di.entry s no name).Clean := by
  intro j hj hj2 t ht h1
  rw [Inode.slotName_entry hlen h0] at h1
  split_ifs at h1 with hjs
  · obtain rfl := Except.ok.inj h1
    refine ⟨hdot.1, hdot.2, ?_⟩
    intro l hl _ h2
    rw [Inode.slotName_entry hlen h0] at h2
    split_ifs at h2 with hls
    · rw [hjs, hls]
    · exact absurd h2 (hnew l hl)
  · obtain ⟨hd, hdd, hone⟩ := h j hj hj2 t ht h1
    refine ⟨hd, hdd, ?_⟩
    intro l hl hl2 h2
    rw [Inode.slotName_entry hlen h0] at h2
    split_ifs at h2 with hls
    · rw [← h2] at h1
      exact absurd h1 (hnew j hj)
    · exact hone l hl hl2 h2

/-- A new directory in a clean inode. -/
theorem distinct_newDir {q : ℕ} (h : di.Clean) : (newDir di name i q).Distinct := by
  intro j hj l hl t ht h1 h2
  rw [slotName_newDir] at h1 h2
  have hclean : ∀ {j}, j < NR_DIRDATA → ¬j = 1 → ¬j = 0 → di.slotName j = .ok t →
      t ≠ [dot] ∧ t ≠ [dot, dot] ∧ ∀ l < NR_DIRDATA, 2 ≤ l → di.slotName l = .ok t → l = j :=
    fun hj hj1 hj0 hn => h _ hj (by omega) t ht hn
  split_ifs at h1 h2 with hj1 hl1 hl0 hj0 hl1 hl0 hl1 hl0
  · rw [hj1, hl1]
  · rw [← h1] at h2
    cases h2
  · obtain rfl := Except.ok.inj h1
    exact absurd rfl (hclean hl hl1 hl0 h2).2.1
  · rw [← h1] at h2
    cases h2
  · rw [hj0, hl0]
  · obtain rfl := Except.ok.inj h1
    exact absurd rfl (hclean hl hl1 hl0 h2).1
  · obtain rfl := Except.ok.inj h2
    exact absurd rfl (hclean hj hj1 hj0 h1).2.1
  · obtain rfl := Except.ok.inj h2
    exact absurd rfl (hclean hj hj1 hj0 h1).1
  · exact (hclean hj hj1 hj0 h1).2.2 l hl (by omega) h2

/-! ### All directories -/

/-- No directory in use has two entries of one name. -/
def UniqueNames (fs : FileSystem) : Prop := ∀ d, IsDir fs d → (fs.inode d).Distinct

/-- **A new entry** with a new name. -/
theorem Made.uniqueNames (h : Made fs fs' d s i name di) (hu : UniqueNames fs) (h0 : 0 ∉ name)
    (hnew : (fs.inode d).Lacks name) (hdi : di.type = DIR → di.Distinct) : UniqueNames fs' := by
  intro x hx
  by_cases hxi : x = i
  · subst hxi
    have hty := hx.type
    rw [h.inode_new] at hty ⊢
    exact hdi hty
  · have hold := hu x (h.isDir hxi hx)
    rw [h.inode hxi]
    split_ifs with hxd
    · subst hxd
      exact hold.entry h.nameLen h0 hnew
    · exact hold

/-- The directory that a path leads to does not have this name. -/
def upperLacks (fs : FileSystem) (path name : List UInt8) (g : PathBuf) : Prop :=
  ∀ (d : ℕ) g', findUpperDirPos fs path g = .ok ((d : ℤ), g') → (fs.inode d).Lacks name

/-- Opens and `makeDir`s on absolute paths. -/
def FileOp.names : FileOp → Prop
  | .openPath path | .makeDir path => path.val.head? = some slash
  | _ => False

/-- The operation fits, what it creates has a name that its directory does not have yet, and the inode
of a new directory has nothing behind its first two slots. -/
def namesFresh (st : FileSystem × PathBuf) (op : FileOp) : Prop :=
  op.fits st ∧
    match op with
    | .openPath path => ∀ g, isFLExist st.1 path.val st.2 = .ok (false, g) →
        upperLacks st.1 path.val (getLastLevelName path.val) g
    | .makeDir path => ∀ (i d : ℕ) g, getAvlInode st.1 = i →
        findUpperDirPos st.1 path.val st.2 = .ok ((d : ℤ), g) → (st.1.inode i).Bare ∧
          ∀ name, withSlash (getLastLevelName path.val) = .ok name → (st.1.inode d).Lacks name
    | _ => True

/-- A bare inode is clean, since it has no slot in use behind the first two. -/
theorem Inode.Bare.clean (h : di.Bare) : di.Clean := fun j hj h2 _ hs hname =>
  absurd ((Inode.slotName_used hname).mpr hs) (h j hj h2)

/-- Where the directories can be walked through, such an operation keeps the counts. -/
theorem countsKept_of_namesFresh (h : Traversable st.1) (hop : op.names) (hok : namesFresh st op) :
    countsKept st op := by
  refine ⟨hok.1, ?_⟩
  cases op with
  | openPath path => trivial
  | makeDir path =>
    intro i d g hi hup
    have hne : d ≠ i := by
      rintro rfl
      have hav : getAvlInode st.1 ≠ -1 := by omega
      obtain ⟨y, hy, hyi, hmap⟩ := getAvlInode_spec hav
      obtain rfl : d = y := by exact_mod_cast hi.symm.trans hyi
      exact (h.dirs.isDir_of_walked (walked_findUpperDirPos hup) hy).inUse hmap
    exact ⟨hne, (hok.2 i d g hi hup).1⟩
  | make path data => exact hop.elim
  | remove path => exact hop.elim
  | write index buf len offset => exact hop.elim

/-- **Every creation** with a new name keeps the names unique. -/
theorem uniqueNames_step (hu : UniqueNames st.1) (hop : op.names) (hok : namesFresh st op)
    (hk : fileStep st op = .ok st') : UniqueNames st'.1 := by
  obtain ⟨fs', g'⟩ := st'
  cases op with
  | openPath path =>
    rcases openPath_inv hk with h | ⟨g1, g2, he, hm⟩
    · rwa [h]
    · obtain ⟨d, s, i, di, hmade, hty, -, hup, -⟩ := made_of_makeFL hm
      refine hmade.uniqueNames hu (zero_not_mem_getLastLevelName path.property)
        (hok.2 g1 he d g2 hup) ?_
      intro hdir
      rw [hty] at hdir
      exact absurd hdir (by decide)
  | makeDir path =>
    rcases made_of_makeDir hk with ⟨h, -⟩ | ⟨name, d, s, i, hname, hmade, hav, hup⟩
    · rwa [h]
    · obtain ⟨hlast, h0⟩ := withSlash_spec hname (zero_not_mem_getLastLevelName path.property)
      have hdot : name ≠ [dot] ∧ name ≠ [dot, dot] := by
        constructor
        · rintro rfl
          exact absurd hlast (by decide)
        · rintro rfl
          exact absurd hlast (by decide)
      obtain ⟨hbare, hlacks⟩ := hok.2 i d g' hav hup
      have hclean := hbare.clean
      have hlacks := hlacks name hname
      refine hmade.uniqueNames hu h0 hlacks fun _ => distinct_newDir ?_
      rw [linked_inode]
      split_ifs with hid
      · subst hid
        exact hclean.entry hmade.nameLen h0 hdot hlacks
      · exact hclean
  | make path data => exact hop.elim
  | remove path => exact hop.elim
  | write index buf len offset => exact hop.elim

/-- **Names stay unique** in every run of opens and `makeDir`s that creates no name twice and makes
directories in inodes with nothing behind the first two slots; where the directories can be walked
through at the start, none of the operations leaves an object. -/
theorem names_unique (hu : UniqueNames st.1)
    (hr : Reaches fileStep (fun st op => op.names ∧ namesFresh st op) st ops st') :
    UniqueNames st'.1 ∧ (Traversable st.1 → ∀ op : FileOp, op.names → namesFresh st' op →
      ∀ a, fileStep st' op ≠ .error (.wild a)) := by
  constructor
  · exact hr.invariant (P := fun _ st => UniqueNames st.1) hu
      fun _ _ _ _ _ hu hok hs => uniqueNames_step hu hok.1 hok.2 hs
  · intro ht op _ hok
    have ht' : Traversable st'.1 := hr.invariant (P := fun _ st => Traversable st.1) ht
      fun _ _ _ _ _ ht hok hs => traversable_step ht (countsKept_of_namesFresh ht hok.1 hok.2) hs
    exact ht'.not_wild hok.1

/-- In an empty file system no name occurs twice. -/
theorem blank_uniqueNames : UniqueNames Image.blank.fs := by
  intro d hd j _ l _ t ht h1 h2
  obtain rfl := blank_inUse.mp hd.inUse
  rw [blank_slotName] at h1 h2
  split_ifs at h1 h2 <;> simp_all

/-- The empty file system gets a directory, and a file of another name leaves no object. -/
theorem names_unique_makeDir :
    ∃ st', fileStep (Image.blank.fs, ⟨0, fun _ => 0⟩) (.makeDir ⟨[slash, 98], by decide⟩) = .ok st' ∧
      UniqueNames st'.1 ∧ ∀ a, fileStep st' (.openPath ⟨[slash, 99], by decide⟩) ≠ .error (.wild a) := by
  have hrun : okAnd (fileStep (Image.blank.fs, ⟨0, fun _ => 0⟩) (.makeDir ⟨[slash, 98], by decide⟩))
      (fun st => decide (∀ j < NR_DIRDATA,
        cstr (st.1.inode 0).block (32 * j + 4) MAX_FILENAME_LEN ≠ some [99])) = true := by
    decide +kernel
  obtain ⟨st', hst, hp⟩ := okAnd_eq_true.mp hrun
  have hlacks : (st'.1.inode 0).Lacks [99] := fun j hj hname =>
    of_decide_eq_true hp j hj (Inode.slotName_eq_ok.mp hname)
  have hfits : ∀ (fs : FileSystem) (m : Maker) (p : List UInt8), mids p = [] →
      (m.entryName p).length < MAX_FILENAME_LEN → m.DataFits → m.Fits fs p := by
    intro fs m p hmids hname hdata
    refine .inr ⟨?_, fun _ _ => ⟨hname, .inr hdata⟩⟩
    rw [WayFits, hmids]
    exact ⟨by simp, by simp [follow]⟩
  have hfirst : namesFresh (Image.blank.fs, ⟨0, fun _ => 0⟩) (.makeDir ⟨[slash, 98], by decide⟩) := by
    refine ⟨⟨rfl, hfits _ .dir _ rfl (by decide) trivial⟩, ?_⟩
    intro i d g hi hup
    obtain rfl : d = 0 := by
      exact_mod_cast blank_findUpperDirPos (by decide) (by decide) (by decide) rfl hup
    constructor
    · intro j _ _ hu
      rw [blank_other (blank_getAvlInode hi)] at hu
      exact hu rfl
    · intro name hname j _ hj
      obtain rfl : [98, slash] = name := Except.ok.inj hname
      rw [blank_slotName] at hj
      split_ifs at hj <;> cases hj
  have hname : (FileOp.makeDir ⟨[slash, 98], by decide⟩).names := rfl
  obtain ⟨hunique, hnot⟩ := names_unique blank_uniqueNames (.snoc .nil ⟨hname, hfirst⟩ hst)
  have ht : Traversable st'.1 :=
    traversable_step blank_traversable (countsKept_of_namesFresh blank_traversable hname hfirst) hst
  refine ⟨st', hst, hunique, hnot blank_traversable _ rfl ⟨⟨rfl, by simp [mids, pieces], fun _ _ =>
    hfits _ (.file none) _ rfl (by decide) trivial⟩, ?_⟩⟩
  intro g _ d g' hup
  obtain ⟨g2, hroot⟩ := findUpperDirPos_eq (p := [slash, 99]) ht.scannable ht.root (by decide)
    (by decide) (by decide) rfl g
  obtain rfl : d = 0 := by
    exact_mod_cast (Prod.mk.inj (Except.ok.inj (hup.symm.trans hroot))).1
  exact hlacks

/-- **A name that is made twice**: `makeDir` of one path, two times. -/
theorem makeDir_twice :
    ¬∀ (st st' : FileSystem × PathBuf) (ops : List FileOp), UniqueNames st.1 →
      (∀ op ∈ ops, op.names) → run fileStep st ops = .ok st' → UniqueNames st'.1 := by
  intro hall
  have hrun : okAnd (run fileStep (Image.blank.fs, ⟨0, fun _ => 0⟩)
      [.makeDir ⟨[slash, 98], by decide⟩, .makeDir ⟨[slash, 98], by decide⟩]) (fun st =>
        decide (st.1.super.inodeMap 0 ≠ available) && decide ((st.1.inode 0).type = DIR) &&
          decide (cstr (st.1.inode 0).block (32 * 2 + 4) MAX_FILENAME_LEN = some [98, slash]) &&
          decide (cstr (st.1.inode 0).block (32 * 3 + 4) MAX_FILENAME_LEN = some [98, slash])) = true := by
    decide +kernel
  obtain ⟨st', hst, hp⟩ := okAnd_eq_true.mp hrun
  simp only [Bool.and_eq_true, decide_eq_true_eq] at hp
  obtain ⟨⟨⟨huse, hty⟩, h2⟩, h3⟩ := hp
  have hnames : ∀ op ∈ ([.makeDir ⟨[slash, 98], by decide⟩, .makeDir ⟨[slash, 98], by decide⟩] :
      List FileOp), op.names := by
    intro op hop
    rcases List.mem_pair.mp hop with rfl | rfl <;> rfl
  have h := hall _ st' _ blank_uniqueNames hnames hst 0 ⟨by decide, huse, hty⟩ 2 (by decide) 3 (by decide)
    [98, slash] (by decide) (Inode.slotName_eq_ok.mpr h2) (Inode.slotName_eq_ok.mpr h3)
  omega

end OsLab
