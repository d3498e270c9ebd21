import OsLab.Files.Operations

/-!
# The number of inodes in use

The superblock has a counter beside the map of inodes. `makeRootDir` counts the root. `makeDir` and
`makeFL` count the new inode twice, once before they know that the parent has a free slot and once
beside the map; `rmFL` clears the map and does not count down. So every operation that takes or frees
an inode moves the counter one further away from the map, always in the same direction.

* `takes`: the operations that take or free an inode, as the state before them shows.
* `counter_step`: such an operation adds one to the distance, and any other leaves it alone.
* **`inodes_counted_iff`**: the counter agrees with the map exactly when the number of such
  operations is a multiple of `2 ^ 32`; a `makeDir` that reports an error changes nothing.
* `first_file_miscounted`: after one `makeFL` the counter says 3.
-/

namespace OsLab

open OsLab.Lib

variable {fs fs' : FileSystem} {st st' : FileSystem × PathBuf} {op : FileOp} {ops : List FileOp}
  {p name : List UInt8} {g g' : PathBuf} {d s i n x : ℕ} {di : Inode}

/-- The number of entries of the map that say `inuse`. -/
def mapCount (fs : FileSystem) : ℕ := countOf (· = inuse) fs.super.inodeMap (Finset.range NR_INODE)

/-- The counter of the superblock is right. -/
def InodesCounted (fs : FileSystem) : Prop := fs.super.inuseInodeNum.toNat = mapCount fs

/-- No more inodes are marked than there are. -/
theorem mapCount_le (fs : FileSystem) : mapCount fs ≤ NR_INODE :=
  (countOf_le _ _ _).trans (by rw [Finset.card_range])

/-- No inode is in use and none is counted. -/
structure Zeroed (fs : FileSystem) : Prop where
  counter : fs.super.inuseInodeNum = 0
  map : ∀ x, fs.super.inodeMap x = available

/-- The operation takes a free inode or frees one that is in use: it creates a file or a directory,
for which there is an inode and a parent, or it removes a file whose inode the map has as `inuse`. -/
def takes (st : FileSystem × PathBuf) : FileOp → Bool
  | .openPath path => okAnd (isFLExist st.1 path.val st.2) fun r => !r.1
  | .make _ _ => true
  | .makeDir path => getAvlInode st.1 ≠ -1 && okAnd (findUpperDirPos st.1 path.val st.2) (·.1 ≠ -1)
  | .remove path => okAnd (findCurrentFLPos st.1 path.val st.2) fun r =>
      st.1.super.inodeMap r.1.toNat = inuse
  | .write .. => false

/-- The counter is `n` ahead of the map. -/
def Ahead (fs : FileSystem) (n : ℕ) : Prop :=
  fs.super.inuseInodeNum = UInt32.ofNat (mapCount fs + n)

/-- The distance is seen modulo the range of the counter. -/
theorem Ahead.inodesCounted_iff (h : Ahead fs n) : InodesCounted fs ↔ 2 ^ 32 ∣ n := by
  have hle := mapCount_le fs
  have h32 : mapCount fs ≤ 32 := hle
  unfold InodesCounted
  rw [h, UInt32.toNat_ofNat']
  omega

/-! ### What an operation does to the distance -/

/-- The root directory is made with counter and map in step. -/
theorem ahead_makeRootDir (h : Zeroed fs) : Ahead (makeRootDir fs) 0 := by
  have hzero : countOf (· = inuse) fs.super.inodeMap (Finset.range NR_INODE) = 0 := by
    refine (countOf_eq_zero _).mpr fun x _ => ?_
    rw [h.map]
    decide
  have hone : mapCount (makeRootDir fs) = 1 := by
    have hadd := countOf_update_add (f := fs.super.inodeMap) (v := inuse) (i := 0) (· = inuse)
      (Finset.mem_range.mpr (by decide : 0 < NR_INODE)) (by rw [h.map]; decide) rfl
    rw [hzero] at hadd
    exact hadd
  unfold Ahead
  rw [hone]
  have hcounter : (makeRootDir fs).super.inuseInodeNum = fs.super.inuseInodeNum + 1 := rfl
  rw [hcounter, h.counter]
  rfl

/-- **Creating** counts twice what the map has once. -/
theorem Made.ahead (h : Made fs fs' d s i name di) (ha : Ahead fs n) : Ahead fs' (n + 1) := by
  have hcount : mapCount fs' = mapCount fs + 1 := by
    have hmap : fs'.super.inodeMap = Function.update fs.super.inodeMap i inuse := by
      funext x
      rw [h.map, Function.update_apply]
    unfold mapCount
    rw [hmap]
    exact countOf_update_add _ (Finset.mem_range.mpr h.lt) (by rw [h.available]; decide) rfl
  have hcounter : fs'.super.inuseInodeNum = fs.super.inuseInodeNum + 1 + 1 := by
    rw [h.eq]
    rfl
  unfold Ahead at ha ⊢
  rw [hcount, hcounter, ha]
  have hsum : mapCount fs + 1 + (n + 1) = mapCount fs + n + 1 + 1 := by omega
  rw [hsum, UInt32.ofNat_add _ 1, UInt32.ofNat_add _ 1]
  rfl

/-- **Removing** takes from the map what the counter keeps. -/
theorem ahead_setMap (hx : x < NR_INODE) (ha : Ahead fs n) :
    Ahead (fs.setMap x available) (n + if fs.super.inodeMap x = inuse then 1 else 0) := by
  have hcount : mapCount (fs.setMap x available) + (if fs.super.inodeMap x = inuse then 1 else 0) =
      mapCount fs := countOf_update (v := available) (· = inuse) (Finset.mem_range.mpr hx)
  have hcounter : (fs.setMap x available).super.inuseInodeNum = fs.super.inuseInodeNum := rfl
  unfold Ahead at ha ⊢
  rw [hcounter, ha]
  congr 1
  omega

/-- The distance after one operation. -/
theorem counter_step (ha : Ahead st.1 n) (hk : fileStep st op = .ok st') :
    Ahead st'.1 (n + if takes st op then 1 else 0) := by
  obtain ⟨fs, g⟩ := st
  obtain ⟨fs', g'⟩ := st'
  cases op with
  | openPath path =>
    simp only [fileStep, openPath, bind_eq_ok] at hk
    obtain ⟨⟨b, g1⟩, he, r, hr, i, -, hk⟩ := hk
    obtain ⟨rfl, -⟩ := Prod.mk.inj (Except.ok.inj hk)
    have htakes : takes (fs, g) (.openPath path) = !b := by
      simp only [takes, he, okAnd]
    rw [htakes]
    cases b with
    | true =>
      obtain rfl := Except.ok.inj hr
      exact ha
    | false =>
      have hr : makeFL fs path.val none g1 = .ok (r.1, r.2) := hr
      obtain ⟨d, s, i, di, hmade, -⟩ := made_of_makeFL hr
      exact hmade.ahead ha
  | make path data =>
    obtain ⟨d, s, i, di, hmade, -⟩ := made_of_makeFL hk
    exact hmade.ahead ha
  | makeDir path =>
    rcases made_of_makeDir hk with ⟨rfl, hno⟩ | ⟨name, d, s, i, -, hmade, hav, hup⟩
    · have htakes : takes (fs', g) (.makeDir path) = false := by
        rcases hno with hno | hno
        · simp [takes, hno]
        · simp [takes, hno, okAnd]
      rw [htakes]
      exact ha
    · have htakes : takes (fs, g) (.makeDir path) = true := by
        have hi : ((i : ℕ) : ℤ) ≠ -1 := by omega
        have hd : ((d : ℕ) : ℤ) ≠ -1 := by omega
        simp [takes, hav, hup, okAnd, hi, hd]
      rw [htakes]
      exact hmade.ahead ha
  | remove path =>
    obtain ⟨x, hx, g1, v, slot, hfind, -, -, hcase⟩ := rmFL_inv hk
    have htakes : takes (fs, g) (.remove path) = decide (fs.super.inodeMap x = inuse) := by
      simp [takes, hfind, okAnd]
    rw [htakes]
    simp only [decide_eq_true_eq]
    rcases hcase with ⟨-, rfl⟩ | ⟨d, hd, -, j, -, rfl⟩
    · exact ahead_setMap hx ha
    · have hother : Ahead (fs.setInode d ((fs.inode d).entry j 0 [])) n := ha
      exact ahead_setMap hx hother
  | write index buf len offset =>
    obtain ⟨r, hr, hk⟩ := bind_eq_ok.mp hk
    obtain ⟨rfl, -⟩ := Prod.mk.inj (Except.ok.inj hk)
    obtain ⟨x, -, -, b, -, -, -, hfs⟩ := writeF_inv hr
    rw [hfs]
    exact ha

/-! ### Runs of operations -/

/-- The operations of a run that take or free an inode. -/
def taken (st : FileSystem × PathBuf) (op : FileOp) (_ : FileSystem × PathBuf) : List FileOp :=
  if takes st op then [op] else []

/-- A run puts the counter ahead by one for every operation that takes or frees an inode. -/
theorem ahead_run (ha : Ahead st.1 n) (hr : run fileStep st ops = .ok st') :
    Ahead st'.1 (n + (log fileStep taken st ops).length) := by
  induction ops generalizing st n with
  | nil =>
    obtain rfl := Except.ok.inj hr
    exact ha
  | cons op ops ih =>
    obtain ⟨st1, h1, hr⟩ := bind_eq_ok.mp hr
    have hrest := ih (counter_step ha h1) hr
    have hlog : (log fileStep taken st (op :: ops)).length =
        (if takes st op then 1 else 0) + (log fileStep taken st1 ops).length := by
      simp only [log, h1, taken, List.length_append]
      split_ifs <;> rfl
    rwa [hlog, ← Nat.add_assoc]

/-- **The counter agrees with the map** after a run that starts with an empty file system exactly
when the number of operations that took or freed an inode is a multiple of `2 ^ 32`; and a `makeDir`
that finds no inode or no parent changes nothing. -/
theorem inodes_counted_iff (h : Zeroed fs) (hr : run fileStep (makeRootDir fs, g) ops = .ok st') :
    (InodesCounted st'.1 ↔ 2 ^ 32 ∣ (log fileStep taken (makeRootDir fs, g) ops).length) ∧
    ∀ (path : CString) (st'' : FileSystem × PathBuf), takes st' (.makeDir path) = false →
      fileStep st' (.makeDir path) = .ok st'' → st''.1 = st'.1 := by
  constructor
  · have ha := ahead_run (n := 0) (ahead_makeRootDir h) hr
    rw [Nat.zero_add] at ha
    exact ha.inodesCounted_iff
  · intro path st'' hno hk
    rcases made_of_makeDir hk with ⟨h, -⟩ | ⟨name, d, s, i, -, -, hav, hup⟩
    · exact h
    · have hi : ((i : ℕ) : ℤ) ≠ -1 := by omega
      have hd : ((d : ℕ) : ℤ) ≠ -1 := by omega
      simp [takes, hav, hup, okAnd, hi, hd] at hno

/-- The first file system is zeroed. -/
theorem zeroed_zeroFs : Zeroed zeroFs := ⟨rfl, fun _ => rfl⟩

/-- A directory is made and another one refused, a file is made and removed. -/
def madeAndRemoved : List FileOp :=
  [.makeDir ⟨[slash, 100], by decide⟩, .makeDir ⟨[slash, 120, slash, 98], by decide⟩,
    .make ⟨[slash, 100, slash, 97], by decide⟩ none, .remove ⟨[slash, 100, slash, 97], by decide⟩]

/-- Then the counter is wrong, and a further `makeDir` that is refused changes nothing. -/
theorem inodes_counted_iff_removed :
    ∃ st' st'', run fileStep (makeRootDir zeroFs, ⟨0, fun _ => 0⟩) madeAndRemoved = .ok st' ∧
      ¬InodesCounted st'.1 ∧ fileStep st' (.makeDir ⟨[slash, 120, slash, 98], by decide⟩) = .ok st'' ∧
      st''.1 = st'.1 := by
  have hrun : okAnd (run fileStep (makeRootDir zeroFs, ⟨0, fun _ => 0⟩) madeAndRemoved) (fun st =>
      decide ((log fileStep taken (makeRootDir zeroFs, ⟨0, fun _ => 0⟩) madeAndRemoved).length = 3) &&
        decide (takes st (.makeDir ⟨[slash, 120, slash, 98], by decide⟩) = false) &&
        okAnd (fileStep st (.makeDir ⟨[slash, 120, slash, 98], by decide⟩)) fun _ => true) = true := by
    decide +kernel
  obtain ⟨st', hst, hp⟩ := okAnd_eq_true.mp hrun
  obtain ⟨hp, hmade⟩ := Bool.and_eq_true_iff.mp hp
  obtain ⟨hlog, hno⟩ := Bool.and_eq_true_iff.mp hp
  obtain ⟨st'', hst'', -⟩ := okAnd_eq_true.mp hmade
  obtain ⟨hcount, hrefused⟩ := inodes_counted_iff zeroed_zeroFs hst
  rw [of_decide_eq_true hlog] at hcount
  exact ⟨st', st'', hst, fun h => absurd (hcount.mp h) (by decide), hst'',
    hrefused _ st'' (of_decide_eq_true hno) hst''⟩

/-- **The first file is counted twice.** -/
theorem first_file_miscounted :
    ¬∀ (fs : FileSystem) (g : PathBuf) (ops : List FileOp) (st' : FileSystem × PathBuf), Zeroed fs →
      run fileStep (makeRootDir fs, g) ops = .ok st' → InodesCounted st'.1 := by
  intro hall
  have hrun : okAnd (run fileStep (makeRootDir zeroFs, ⟨0, fun _ => 0⟩)
      [.make ⟨[slash, 97], by decide⟩ none]) (fun st =>
        decide (st.1.super.inuseInodeNum.toNat ≠ mapCount st.1)) = true := by
    decide +kernel
  obtain ⟨st', hst, hp⟩ := okAnd_eq_true.mp hrun
  exact of_decide_eq_true hp (hall _ _ _ st' zeroed_zeroFs hst)

end OsLab
