import OsLab.Files.Operations
import OsLab.Devices.Console
import OsLab.User.Rendering

/-!
# The number of entries of a directory

`AllCounted` says that the `filenum` of every directory in use is the number of its slots in use. It
is the only bound of the directory scans: with it they stay inside the 1024 slots (`Inside`),
without it the next search for a name that is not there runs off the array.

* `inside_findEntry`, `inside_walkDirs`: the walkers, `rmFL` and `ls_aux` stay inside the directories
  that they come to, if the count of each of them is right.
* `Made.allCounted`: an entry in a free slot is counted.
* `dirsInUse_step`: every operation leaves the directories in use.
-/

namespace OsLab

open OsLab.Lib

variable {fs fs' : FileSystem} {st st' : FileSystem × PathBuf} {p name : List UInt8} {op : FileOp}
  {ops : List FileOp} {g : PathBuf} {d s i j x n : ℕ} {di : Inode} {v : ℤ} {ty : UInt32}

/-! ### Scans that stay inside -/

/-- The computation does not read behind the last slot of a directory. -/
def Inside {α : Type} (c : Except Stop α) : Prop := c ≠ .error (.wild .dirdata)

/-- A result is inside. -/
theorem inside_ok {α : Type} (a : α) : Inside (.ok a : Except Stop α) := by
  unfold Inside
  simp

/-- A computation of two parts is inside if both are. -/
theorem Inside.bind {α β : Type} {c : Except Stop α} {f : α → Except Stop β} (hc : Inside c)
    (hf : ∀ a, c = .ok a → Inside (f a)) : Inside (c >>= f) := by
  cases c with
  | error e =>
    rw [error_bind]
    intro he
    obtain rfl := Except.error.inj he
    exact hc rfl
  | ok a => exact hf a rfl

/-- An assertion reads no directory. -/
theorem inside_assert {c : Prop} [Decidable c] : Inside (assert c) := by
  unfold assert Inside
  split_ifs <;> simp

/-- Nor does the lookup of an inode. -/
theorem inside_inodeAt : Inside (fs.inodeAt v) := by
  unfold FileSystem.inodeAt Inside
  split_ifs <;> simp

/-- A name that does not end is another error. -/
theorem inside_name : Inside di.name := by
  unfold Inode.name Inside
  split <;> simp

/-- A scan of a directory whose count is right, from its first slot. -/
theorem Inode.Counted.scan (h : di.Counted) {β : Type}
    {body : ℕ → List UInt8 → β → Except Stop (Bool × β)} (hbody : ∀ i s a, Inside (body i s a)) (acc : β) :
    Inside (scanDir di body NR_DIRDATA 0 0 acc) := by
  have hcount : di.filenum.toNat = di.usedBelow NR_DIRDATA := h
  refine scanDir_inside hbody ?_
  rw [Nat.zero_add, Nat.zero_add, Inode.usedBelow_zero, hcount, Nat.add_zero]

/-- The scan of `ls_aux`, which takes the first two slots for granted. -/
theorem Inode.Counted.scan_two (h : di.Counted) {β : Type}
    {body : ℕ → List UInt8 → β → Except Stop (Bool × β)} (hbody : ∀ i s a, Inside (body i s a)) (acc : β) :
    Inside (scanDir di body (NR_DIRDATA - 2) 2 2 acc) := by
  have hcount : di.filenum.toNat = di.usedBelow NR_DIRDATA := h
  have htwo : di.usedBelow 2 ≤ 2 := (countOf_le _ _ _).trans (by rw [Finset.card_range])
  refine scanDir_inside hbody ?_
  rw [hcount, show 2 + (NR_DIRDATA - 2) = NR_DIRDATA from rfl]
  omega

/-- The root and every directory can be scanned. -/
def CountedDirs (fs : FileSystem) : Prop :=
  ∀ x < NR_INODE, x = 0 ∨ (fs.inode x).type = DIR → (fs.inode x).Counted

/-- What a walker can be at: a directory, or nowhere. -/
def Walked (fs : FileSystem) (v : ℤ) : Prop :=
  v = -1 ∨ ∃ x : ℕ, v = x ∧ (x = 0 ∨ (fs.inode x).type = DIR)

/-- Whatever a walker is at can be scanned. -/
theorem Walked.counted (h : CountedDirs fs) (hv : Walked fs v) :
    ∀ di, fs.inodeAt v = .ok di → di.Counted := by
  intro di hdi
  obtain ⟨d, hd, rfl, rfl⟩ := inodeAt_inv hdi
  rcases hv with hv | ⟨x, hx, hdir⟩
  · omega
  · obtain rfl : d = x := by exact_mod_cast hx
    exact h d hd hdir

/-! The two scans of `fs.c`, in a directory whose count is right. -/

/-- The scan for a name stays inside. -/
theorem inside_findEntry (h : ∀ di, fs.inodeAt v = .ok di → di.Counted) :
    Inside (findEntry fs v name ty) := by
  refine inside_inodeAt.bind fun di hdi => (h di hdi).scan ?_ _
  intro i s a
  split_ifs
  · exact inside_inodeAt.bind fun _ _ => inside_ok _
  · exact inside_ok _

/-- So does the scan for an inode. -/
theorem inside_findSlot {w : ℤ} (h : ∀ di, fs.inodeAt v = .ok di → di.Counted) :
    Inside (findSlot fs v w) := by
  refine inside_inodeAt.bind fun di hdi => (h di hdi).scan ?_ _
  intro i s a
  exact inside_inodeAt.bind fun _ _ => inside_name.bind fun _ _ => inside_ok _

/-- A directory that was found is a place for a walker. -/
theorem walked_findEntry {w : ℤ} (h : findEntry fs v name DIR = .ok w) : Walked fs w := by
  by_cases hw : w = -1
  · exact .inl hw
  · obtain ⟨dir, hdir, -⟩ := bind_eq_ok.mp h
    obtain ⟨d, -, rfl, -⟩ := inodeAt_inv hdir
    obtain ⟨-, i, -, -, -, -, ht, hty⟩ := findEntry_inv h hw
    exact .inr ⟨_, ht, .inr hty⟩

/-- Cutting off the first level reads no directory. -/
theorem inside_getTopDir : Inside (getTopDir p g) := by
  have hloop : ∀ i g, Inside (getTopDirLoop i g p) := by
    induction p with
    | nil => exact fun i g => inside_ok g
    | cons c p ih =>
      intro i g
      rw [getTopDirLoop]
      split_ifs
      · exact inside_ok _
      · simp [Inside]
      · exact ih _ _
      · simp [Inside]
  exact hloop 0 g

/-- Nor does naming it. -/
theorem inside_topDirName : Inside (topDirName g) := by
  unfold topDirName Inside
  split <;> simp

/-- Nor does going on behind it. -/
theorem inside_advance : Inside (advance p g) := by
  unfold advance Inside
  split_ifs <;> simp

/-! The walkers go from directory to directory. -/

/-- A walk ends where a walker can be. -/
theorem walked_walkDirs {strict : Bool} {r : ℤ × List UInt8 × PathBuf} (hv : Walked fs v)
    (hr : walkDirs fs strict n p v g = .ok r) : Walked fs r.1 := by
  induction n generalizing p v g with
  | zero =>
    rw [walkDirs] at hr
    split_ifs at hr
    obtain rfl := Except.ok.inj hr
    exact hv
  | succ n ih =>
    rw [walkDirs] at hr
    split_ifs at hr
    · obtain rfl := Except.ok.inj hr
      exact hv
    · simp only [bind_eq_ok] at hr
      obtain ⟨g1, -, name, -, q, -, w, hw, -, -, hr⟩ := hr
      exact ih (walked_findEntry hw) hr

/-- The root is a place for a walker. -/
theorem walked_root : Walked fs 0 := .inr ⟨0, rfl, .inl rfl⟩

/-- So is what a path leads to. -/
theorem walked_walkFromRoot {strict : Bool} {r : ℤ × List UInt8 × PathBuf}
    (hr : walkFromRoot fs strict p g = .ok r) : Walked fs r.1 := by
  simp only [walkFromRoot, bind_eq_ok] at hr
  obtain ⟨g1, -, _, -, q, -, hr⟩ := hr
  exact walked_walkDirs walked_root hr

/-- So is the directory above a path. -/
theorem walked_findUpperDirPos {r : ℤ × PathBuf} (hr : findUpperDirPos fs p g = .ok r) :
    Walked fs r.1 := by
  unfold findUpperDirPos at hr
  split_ifs at hr
  · obtain rfl := Except.ok.inj hr
    exact walked_root
  · obtain ⟨q, hq, hr⟩ := bind_eq_ok.mp hr
    obtain rfl := Except.ok.inj hr
    exact walked_walkFromRoot hq

/-- So is the directory of a path. -/
theorem walked_findCurrentDirPos {r : ℤ × PathBuf} (hr : findCurrentDirPos fs p g = .ok r) :
    Walked fs r.1 := by
  unfold findCurrentDirPos at hr
  split_ifs at hr
  · obtain rfl := Except.ok.inj hr
    exact walked_root
  · obtain ⟨q, -, hr⟩ := bind_eq_ok.mp hr
    obtain ⟨w, hw, hr⟩ := bind_eq_ok.mp hr
    obtain rfl := Except.ok.inj hr
    exact walked_findEntry hw

/-! So they stay inside, if the directories can be scanned. -/

/-- A walk stays inside. -/
theorem inside_walkDirs (h : CountedDirs fs) {strict : Bool} (hv : Walked fs v) :
    Inside (walkDirs fs strict n p v g) := by
  induction n generalizing p v g with
  | zero =>
    rw [walkDirs]
    split_ifs
    · exact inside_ok _
    · simp [Inside]
  | succ n ih =>
    rw [walkDirs]
    split_ifs
    · exact inside_ok _
    · refine inside_getTopDir.bind fun g1 _ => inside_topDirName.bind fun name _ =>
        inside_advance.bind fun q _ => (inside_findEntry (hv.counted h)).bind fun w hw =>
          inside_assert.bind fun _ _ => ?_
      exact ih (walked_findEntry hw)

/-- So it does from the root. -/
theorem inside_walkFromRoot (h : CountedDirs fs) {strict : Bool} :
    Inside (walkFromRoot fs strict p g) :=
  inside_getTopDir.bind fun _ _ => inside_topDirName.bind fun _ _ => inside_advance.bind fun _ _ =>
    inside_walkDirs h walked_root

/-- The lookup of the directory above stays inside. -/
theorem inside_findUpperDirPos (h : CountedDirs fs) : Inside (findUpperDirPos fs p g) := by
  unfold findUpperDirPos
  split_ifs
  · exact inside_ok _
  · exact (inside_walkFromRoot h).bind fun _ _ => inside_ok _

/-- The lookup of a directory stays inside. -/
theorem inside_findCurrentDirPos (h : CountedDirs fs) : Inside (findCurrentDirPos fs p g) := by
  unfold findCurrentDirPos
  split_ifs
  · exact inside_ok _
  · exact (inside_walkFromRoot h).bind fun q hq =>
      (inside_findEntry ((walked_walkFromRoot hq).counted h)).bind fun _ _ => inside_ok _

/-- The lookup of a file stays inside. -/
theorem inside_findCurrentFLPos (h : CountedDirs fs) : Inside (findCurrentFLPos fs p g) :=
  (inside_walkFromRoot h).bind fun _ hq =>
    (inside_findEntry ((walked_walkFromRoot hq).counted h)).bind fun _ _ => inside_ok _

/-- A removal stays inside. -/
theorem inside_rmFL (h : CountedDirs fs) : Inside (rmFL fs p g) := by
  unfold rmFL
  refine (inside_findCurrentFLPos h).bind fun r _ => ?_
  refine (inside_findUpperDirPos h).bind fun q hq => ?_
  refine (inside_findSlot ((walked_findUpperDirPos hq).counted h)).bind fun slot _ => ?_
  cases slot with
  | none =>
    simp only [ok_bind]
    split_ifs <;> simp [Inside]
  | some j =>
    refine inside_inodeAt.bind fun di _ => ?_
    simp only [ok_bind]
    split_ifs <;> simp [Inside]

/-- Printing reads no directory. -/
theorem inside_screenPuts {text : List UInt8} {sc : Screen} : Inside (screenPuts sc text) := by
  induction text generalizing sc with
  | nil => exact inside_ok sc
  | cons c text ih =>
    have hput : Inside (screenPut c sc) := fun hc => by cases screenPut_error hc
    exact hput.bind fun _ _ => ih

/-- `ls_aux` prints a name. -/
theorem inside_printQ_name {name : List UInt8} {sc : Screen} :
    Inside (printQ [37, 115, 9] (fun _ => ⟨0, name⟩) sc) := by
  rw [printQ_name]
  exact inside_screenPuts

/-- `ls_aux` ends with a newline. -/
theorem inside_printQ_newline {sc : Screen} : Inside (printQ [10] (fun _ => ⟨0, []⟩) sc) := by
  rw [printQ_newline]
  exact inside_screenPuts

/-- **`ls_aux`** stays inside. -/
theorem inside_lsAux {k : Kernel} (h : CountedDirs k.fs) (path : ℕ) : Inside (lsAux path k) := by
  have hstr : Inside (cstring k path) := by
    unfold cstring Inside
    split <;> simp
  refine hstr.bind fun str _ => ?_
  refine (inside_findCurrentDirPos h).bind fun r hr => inside_inodeAt.bind fun di hdi => ?_
  refine (((walked_findCurrentDirPos hr).counted h di hdi).scan_two ?_ _).bind fun sc _ =>
    inside_printQ_newline.bind fun _ _ => inside_ok _
  intro i s a
  exact inside_printQ_name.bind fun _ _ => inside_ok _

/-! ### What the operations do to the counts -/

/-- The `filenum` of every directory in use is the number of its slots in use. -/
def AllCounted (fs : FileSystem) : Prop := ∀ d, IsDir fs d → (fs.inode d).Counted

/-- The root and every directory are in use. -/
def DirsInUse (fs : FileSystem) : Prop :=
  ∀ x < NR_INODE, x = 0 ∨ (fs.inode x).type = DIR → IsDir fs x

/-- Directories that stay as they are stay counted. -/
theorem AllCounted.mono (h : AllCounted fs)
    (hold : ∀ x, IsDir fs' x → IsDir fs x ∧ fs'.inode x = fs.inode x) : AllCounted fs' := by
  intro x hx
  obtain ⟨hx0, heq⟩ := hold x hx
  rw [heq]
  exact h x hx0

/-- If the directories in use are counted and all of them are in use, every directory can be
scanned. -/
theorem AllCounted.dirs (h : AllCounted fs) (hu : DirsInUse fs) : CountedDirs fs :=
  fun x hx hd => h x (hu x hx hd)

/-- What a walk gets to is a directory. -/
theorem DirsInUse.isDir_of_walked (h : DirsInUse fs) {x : ℕ} (hw : Walked fs x) (hx : x < NR_INODE) :
    IsDir fs x := by
  rcases hw with hneg | ⟨y, hy, hdir⟩
  · omega
  · obtain rfl : x = y := by exact_mod_cast hy
    exact h x hx hdir

/-- **A new entry** is counted. -/
theorem Made.allCounted (h : Made fs fs' d s i name di) (hc : AllCounted fs) (hne : name.headD 0 ≠ 0)
    (hdi : di.type = DIR → di.Counted) : AllCounted fs' := by
  intro x hx
  by_cases hxi : x = i
  · subst hxi
    have hty := hx.type
    rw [h.inode_new] at hty ⊢
    exact hdi hty
  · have hold := hc x (h.isDir hxi hx)
    rw [h.inode hxi]
    split_ifs with hxd
    · subst hxd
      exact hold.entry h.nameLen hne h.slot h.not_used
    · exact hold

/-- After a creation every directory is in use still. -/
theorem Made.dirsInUse (h : Made fs fs' d s i name di) (hu : DirsInUse fs) : DirsInUse fs' := by
  have h0 : (0 : ℕ) ≠ i := by
    rintro rfl
    exact (hu 0 (by decide) (.inl rfl)).inUse h.available
  intro x hx hdir
  by_cases hxi : x = i
  · refine ⟨hx, ?_, hdir.resolve_left fun h => h0 (h ▸ hxi)⟩
    unfold InUse
    rw [h.map, if_pos hxi]
    decide
  · have hold := hu x hx (by rwa [h.type hxi] at hdir)
    refine ⟨hx, ?_, by rw [h.type hxi]; exact hold.type⟩
    unfold InUse
    rw [h.map, if_neg hxi]
    exact hold.inUse

/-- A directory of the new file system is an old one, or the one that is created. -/
theorem Made.isDir_cases {y : ℕ} (h : Made fs fs' d s i name di)
    (hdi : di.type = DIR → di = newDir (fs.inode i) name i d) (hy : IsDir fs' y) :
    IsDir fs y ∧ y ≠ i ∨ y = i ∧ fs'.inode i = newDir (fs.inode i) name i d := by
  by_cases hyi : y = i
  · subst hyi
    have hty := hy.type
    rw [h.inode_new] at hty ⊢
    exact .inr ⟨rfl, hdi hty⟩
  · exact .inl ⟨h.isDir hyi hy, hyi⟩

/-- The names in an old directory can still be read. -/
theorem Made.readable {y : ℕ} (h : Made fs fs' d s i name di) (hyi : y ≠ i) (h0 : 0 ∉ name)
    (hr : (fs.inode y).Readable) : (fs'.inode y).Readable := by
  rw [h.inode hyi]
  split_ifs with hyd
  · subst hyd
    exact hr.entry h.nameLen h0
  · exact hr

/-- The entries of a new directory are itself and its parent. -/
theorem Made.target_of_newDir (h : Made fs fs' d s i name di) (hbare : (fs.inode i).Bare)
    (heq : fs'.inode i = newDir (fs.inode i) name i d) (hj : j < NR_DIRDATA) (hu : (fs'.inode i).Used j) :
    fs'.target i j = i ∨ fs'.target i j = d := by
  rw [heq] at hu
  have hi : i < 32 := h.lt
  have hdlt : d < 32 := h.parent
  unfold FileSystem.target
  rw [heq, slotNo_newDir]
  rcases hbare.used_newDir hj hu with rfl | rfl
  · left
    have := toNat_wordOf (x := i) (by omega) (by omega)
    exact_mod_cast this
  · right
    have := toNat_wordOf (x := d) (by omega) (by omega)
    exact_mod_cast this

/-- A removal frees the inode of a file, and of the rest only empties a slot. -/
theorem DirsInUse.remove {g' : PathBuf} (hu : DirsInUse fs) (hk : rmFL fs p g = .ok (fs', g')) :
    DirsInUse fs' := by
  obtain ⟨x, hx, g1, v, slot, hfl, -, -, hcase⟩ := rmFL_inv hk
  -- the inode of a file
  have hty : (fs.inode x).type = FL := by
    obtain ⟨d, -, i, -, name, -, -, -, ht, hty⟩ := findCurrentFLPos_inv hfl (by omega)
    obtain rfl : x = fs.target d i := by exact_mod_cast ht
    exact hty
  have hne : ∀ y, IsDir fs y → y ≠ x := by
    rintro y hy rfl
    rw [hy.type] at hty
    exact absurd hty (by decide)
  have hfreed : ∀ {fs1 : FileSystem}, (∀ y, IsDir fs1 y ↔ IsDir fs y) →
      (∀ y, (fs1.inode y).type = (fs.inode y).type) → DirsInUse (fs1.setMap x available) := by
    intro fs1 hdir htype y hy hyd
    have hy0 := hu y hy (by rwa [← htype])
    obtain ⟨h1, h2, h3⟩ := (hdir y).mpr hy0
    refine ⟨h1, ?_, h3⟩
    unfold InUse FileSystem.setMap
    dsimp only
    rw [Function.update_of_ne (hne y hy0)]
    exact h2
  rcases hcase with ⟨-, rfl⟩ | ⟨d, -, -, j, -, rfl⟩
  · exact hfreed (fun _ => Iff.rfl) fun _ => rfl
  · refine hfreed (fun y => isDir_setInode rfl) fun y => ?_
    unfold FileSystem.setInode
    dsimp only
    rw [Function.update_apply]
    split_ifs with hyd
    · rw [hyd]
      rfl
    · rfl

/-- **Every operation** keeps the directories in use: only files are removed. -/
theorem dirsInUse_step (hu : DirsInUse st.1) (hk : fileStep st op = .ok st') : DirsInUse st'.1 := by
  obtain ⟨fs', g'⟩ := st'
  have hmake : ∀ (path : CString) data g g2, makeFL st.1 path.val data g = .ok (fs', g2) →
      DirsInUse fs' := by
    intro path data g g2 hm
    obtain ⟨d, s, i, di, hmade, -⟩ := made_of_makeFL hm
    exact hmade.dirsInUse hu
  cases op with
  | openPath path =>
    rcases openPath_inv hk with h | ⟨g1, g2, -, hm⟩
    · rwa [h]
    · exact hmake path none g1 g2 hm
  | make path data => exact hmake path data st.2 g' hk
  | makeDir path =>
    rcases made_of_makeDir hk with ⟨h, -⟩ | ⟨name, d, s, i, -, hmade, -⟩
    · rwa [h]
    · exact hmade.dirsInUse hu
  | remove path => exact hu.remove hk
  | write index buf len offset =>
    obtain ⟨⟨fs1, v⟩, hw, hk⟩ := bind_eq_ok.mp hk
    obtain ⟨rfl, -⟩ := Prod.mk.inj (Except.ok.inj hk)
    obtain ⟨x, -, hx, block, -, -, -, rfl⟩ := writeF_inv hw
    intro y hy hyd
    refine (isDir_setInode (by rfl)).mpr (hu y hy ?_)
    by_cases hyx : y = x
    · subst hyx
      simpa [FileSystem.setInode] using hyd
    · rwa [setInode_of_ne hyx] at hyd

/-- A formatted file system is counted. -/
theorem blank_allCounted : AllCounted Image.blank.fs := by
  intro d hd
  obtain rfl := blank_inUse.mp hd.inUse
  exact blank_counted

end OsLab
