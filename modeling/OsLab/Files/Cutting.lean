import OsLab.Files.Lookup

/-!
# Cutting a path from the left, and its last name from the right

`findUpperDirPos` cuts the names of directories off a path until `lastLevel` says that one name is
left; the name of a new file is `getLastLevelName` of the whole path. The two agree.

* `cutPath`: the loop of the walkers without the directories, which returns the names it has cut off
  and what is left. `walkFromRoot_cut`: a walk that ends has cut the path in this way.
* `cutDirs_eq`: the loop goes along the pieces of the path.
* **`cutPath_getLastLevelName`**: it ends, nothing is lost or added, and what is left is what
  `getLastLevelName` returns.
-/

namespace OsLab

open OsLab.Lib

variable {fs : FileSystem} {p q r : List UInt8} {ms : List (List UInt8)} {g g' : PathBuf} {n : ℕ}

/-- `while (!lastLevel(abspath)) { strcpy(dir, getTopDir(abspath)); abspath += path_offset; … }`: the
values of `dir`, and `abspath` at the end. The first argument bounds the number of rounds. -/
def cutDirs : ℕ → List UInt8 → PathBuf → Except Stop (List (List UInt8) × List UInt8 × PathBuf)
  | 0, abspath, g => if lastLevel abspath then .ok ([], abspath, g) else .error .hang
  | n + 1, abspath, g =>
    if lastLevel abspath then .ok ([], abspath, g)
    else do
      let g ← getTopDir abspath g
      let dir ← topDirName g
      let abspath ← advance abspath g
      let r ← cutDirs n abspath g
      .ok (dir :: r.1, r.2)

/-- The first call and the loop. -/
def cutPath (abspath : List UInt8) (g : PathBuf) :
    Except Stop (List (List UInt8) × List UInt8 × PathBuf) := do
  let g ← getTopDir abspath g
  let dir ← topDirName g
  let abspath ← advance abspath g
  let r ← cutDirs abspath.length abspath g
  .ok (dir :: r.1, r.2)

/-! ### The walkers cut in this way -/

/-- A walk cuts the path as `cutDirs` does, whatever the directories hold. -/
theorem walkDirs_cut {strict : Bool} {v d : ℤ} (h : walkDirs fs strict n p v g = .ok (d, r, g')) :
    ∃ ms, cutDirs n p g = .ok (ms, r, g') := by
  induction n generalizing p v g with
  | zero =>
    rw [walkDirs] at h
    split_ifs at h with hlast
    cases h
    exact ⟨[], if_pos hlast⟩
  | succ n ih =>
    rw [walkDirs] at h
    split_ifs at h with hlast
    · cases h
      exact ⟨[], if_pos hlast⟩
    · obtain ⟨g1, htop, h⟩ := bind_eq_ok.mp h
      obtain ⟨dir, hname, h⟩ := bind_eq_ok.mp h
      obtain ⟨p1, hadv, h⟩ := bind_eq_ok.mp h
      obtain ⟨index, -, h⟩ := bind_eq_ok.mp h
      obtain ⟨-, -, h⟩ := bind_eq_ok.mp h
      obtain ⟨ms, hcut⟩ := ih h
      refine ⟨dir :: ms, ?_⟩
      rw [cutDirs, if_neg hlast, htop, ok_bind, hname, ok_bind, hadv, ok_bind, hcut]
      rfl

/-- **A walk that ends** has cut the path. -/
theorem walkFromRoot_cut {strict : Bool} {d : ℤ} (h : walkFromRoot fs strict p g = .ok (d, r, g')) :
    ∃ ms, cutPath p g = .ok (ms, r, g') := by
  obtain ⟨g1, htop, h⟩ := bind_eq_ok.mp h
  obtain ⟨dir, hname, h⟩ := bind_eq_ok.mp h
  obtain ⟨p1, hadv, h⟩ := bind_eq_ok.mp h
  obtain ⟨ms, hcut⟩ := walkDirs_cut h
  refine ⟨dir :: ms, ?_⟩
  rw [cutPath, htop, ok_bind, hname, ok_bind, hadv, ok_bind, hcut]
  rfl

/-! ### The pieces -/

/-- **The loop** cuts off all pieces but the last one. -/
theorem cutDirs_eq (hr : pieces r = ms ++ [q]) (h0 : 0 ∉ r)
    (hlen : ∀ m ∈ ms, m.length < MAX_FILENAME_LEN) (hn : ms.length ≤ n) :
    ∃ g', cutDirs n r g = .ok (ms, q, g') := by
  induction ms generalizing r n g with
  | nil =>
    obtain ⟨rfl, hno⟩ := pieces_eq_singleton hr
    have hlast : lastLevel r = true := lastLevel_iff_not_mem.mpr hno
    exact ⟨g, by cases n <;> exact if_pos hlast⟩
  | cons m ms ih =>
    obtain ⟨n, rfl⟩ := Nat.exists_eq_add_one.mpr (Nat.zero_lt_of_lt hn)
    obtain ⟨r', hm, hr', rfl, hpieces⟩ := pieces_eq_cons hr (by simp)
    rw [List.mem_append, not_or] at h0
    obtain ⟨g1, htop, hname, hadv⟩ := getTopDir_eq (g := g) (r := r') hm h0.1 (hlen m (by simp))
    obtain ⟨g', hcut⟩ := ih (g := g1) hpieces h0.2
      (fun m' hm' => hlen m' (List.mem_cons_of_mem _ hm')) (by simpa using hn)
    refine ⟨g', ?_⟩
    rw [cutDirs, lastLevel_append hm hr', if_neg (by simp), htop, ok_bind, hname, ok_bind, hadv,
      ok_bind, hcut]
    rfl

/-- **Path cutting agrees with `getLastLevelName`.** On every absolute path but `/`, whatever slashes
are in it, if all pieces fit into `top_dir`: the loop ends; what it cuts off are names that end in
their only slash; with what is left they make up the path; and what is left is not empty and is the
last name of the path. -/
theorem cutPath_getLastLevelName (p : List UInt8) (g : PathBuf) (hp : p.head? = some slash)
    (hlen : 2 ≤ p.length) (h0 : 0 ∉ p) (hpieces : ∀ q ∈ (pieces p).dropLast, q.length ≤ 27) :
    ∃ ms r g', cutPath p g = .ok (ms, r, g') ∧ ms.flatten ++ r = p ∧
      (∀ m ∈ ms, m ≠ [] ∧ m.count slash = 1 ∧ m.getLast? = some slash) ∧
      r ≠ [] ∧ getLastLevelName p = r := by
  have hroot : p ≠ [slash] := by
    rintro rfl
    simp at hlen
  have hnil : p ≠ [] := by
    rintro rfl
    simp at hlen
  obtain ⟨r, rfl, hsplit⟩ := pieces_absolute hp hroot
  have hall := pieces_eq hp hroot
  set ms := mids ([slash] ++ r) with hms
  set q := lastPiece ([slash] ++ r) with hq
  have hdrop : (pieces ([slash] ++ r)).dropLast = [slash] :: ms := by
    rw [hall]
    exact List.dropLast_concat
  have hshort : ∀ m ∈ ms, m.length < MAX_FILENAME_LEN := fun m hm =>
    Nat.lt_succ_of_le (hpieces m (by rw [hdrop]; exact List.mem_cons_of_mem _ hm))
  obtain ⟨g1, htop, hname, hadv⟩ := getTopDir_eq (g := g) (r := r)
    (⟨[], by simp, rfl⟩ : DirName [slash]) (by decide) (by decide)
  obtain ⟨g', hcut⟩ := cutDirs_eq (g := g1) hsplit (fun hm => h0 (List.mem_append_right _ hm)) hshort
    (length_lt_of_pieces hsplit).le
  refine ⟨[slash] :: ms, q, g', ?_, ?_, fun m hm => ?_, ?_, ?_⟩
  · rw [cutPath, htop, ok_bind, hname, ok_bind, hadv, ok_bind, hcut]
    rfl
  · have hflat := flatten_pieces ([slash] ++ r)
    rw [hall, List.flatten_append] at hflat
    simpa using hflat
  · obtain ⟨w, hw, rfl⟩ : DirName m := dirName_of_mem_dropLast hnil (by rw [hdrop]; exact hm)
    exact ⟨by simp, by simp [List.count_eq_zero.mpr hw], by simp⟩
  · exact ne_nil_of_mem_pieces (p := [slash] ++ r) (by rw [hall]; simp)
  · exact getLastLevelName_pieces hall

/-- `//a//b/` is cut in front of `b/`. -/
theorem cutPath_slashes : ∃ ms g', cutPath [47, 47, 97, 47, 47, 98, 47] ⟨0, fun _ => 0⟩ =
    .ok (ms, [98, 47], g') ∧ ms.flatten = [47, 47, 97, 47, 47] := by
  obtain ⟨ms, r, g', hcut, hflat, -, -, hname⟩ := cutPath_getLastLevelName [47, 47, 97, 47, 47, 98, 47]
    ⟨0, fun _ => 0⟩ rfl (by decide) (by decide) (by decide)
  have hr : [98, 47] = r := (by decide : [98, 47] = getLastLevelName _).trans hname
  subst hr
  have hsame : ms.flatten ++ [98, 47] = [47, 47, 97, 47, 47] ++ [98, 47] := hflat
  exact ⟨ms, g', hcut, List.append_cancel_right hsame⟩

end OsLab
