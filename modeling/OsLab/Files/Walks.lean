import OsLab.Files.Lookup

/-!
# The two kinds of walk

`findUpperDirPos` goes on from index -1 when a directory is missing, the other two walkers stop at an
assertion. A call that uses two of them, one after the other, works with one path and the globals
that the first has left.

* `findUpperDirPos_of_file`: where `findCurrentFLPos` finds a file, `findUpperDirPos` finds the
  directory that the file was found in, in any file system and for any path.
* `leads_of_walkFromRoot`: a walk that gets to a directory goes where the inner loop leads, and
  `foundAt_of_findCurrentDirPos`, `leads_of_findUpperDirPos` say so of the walkers.
* `follow_of_walkFromRoot`: where the strict walk succeeds, all directories of the path are there.
* `walkFromRoot_abort`: where a directory is missing, the strict walk ends at the assertion.
-/

namespace OsLab

open OsLab.Lib

variable {fs : FileSystem} {P : ℕ → Prop} {d i n : ℕ} {p q r w name : List UInt8} {v u : ℤ}
  {ms : List (List UInt8)} {g g' : PathBuf}

/-! ### The leading piece, once more -/

/-- A path without a slash leaves `path_offset` alone, and cutting it again changes nothing. -/
theorem getTopDirLoop_noSlash (hp : slash ∉ p) (h : getTopDirLoop i g p = .ok g') :
    g'.pathOffset = g.pathOffset ∧ (∀ a < i, g'.topDir a = g.topDir a) ∧
      getTopDirLoop i g' p = .ok g' := by
  induction p generalizing i g with
  | nil =>
    obtain rfl := Except.ok.inj h
    exact ⟨rfl, fun _ _ => rfl, rfl⟩
  | cons c p ih =>
    obtain ⟨hc, hp⟩ : slash ≠ c ∧ slash ∉ p := by simpa using hp
    rw [getTopDirLoop] at h ⊢
    split_ifs at h ⊢ with h1 h2
    · exact absurd h2.symm hc
    · obtain ⟨hoff, hbelow, hagain⟩ := ih hp h
      refine ⟨hoff, ?_, ?_⟩
      · intro a ha
        rw [hbelow a (by omega)]
        exact Function.update_of_ne (by omega) _ _
      · have hat : g'.topDir i = c := by
          rw [hbelow i (by omega)]
          exact Function.update_self ..
        have hsame : ({ g' with topDir := Function.update g'.topDir i c } : PathBuf) = g' := by
          rw [← hat, Function.update_eq_self]
        rw [hsame]
        exact hagain

/-! ### What a walk passes -/

/-- In any file system, what the inner loop finds is the first entry. -/
theorem FoundAt.entryOf {j : ℕ} (h : FoundAt fs d name ty j) :
    entryOf fs d name ty = some (fs.target d j) := by
  have hu : (fs.inode d).Used j := (Inode.slotName_used h.named).mpr h.nameNe
  rw [OsLab.entryOf, Option.map_eq_some_iff]
  refine ⟨j, List.find?_range_eq_some.mpr ⟨?_, List.mem_range.mpr h.lt, ?_⟩, rfl⟩
  · simp only [hu, Inode.nameAt_of_slotName h.named, h.type, decide_true, Bool.and_self]
  · intro l hl
    obtain ⟨t, ht, hpass⟩ := h.before l hl
    simp only [Bool.not_eq_true', Bool.and_eq_false_iff, decide_eq_false_iff_not]
    rw [Inode.nameAt_of_slotName ht]
    by_cases htn : t = name
    · exact .inr (.inr (hpass htn).2)
    · exact .inr (.inl htn)

/-- An entry that was found is there. -/
theorem entryOf_of_findEntry (h : findEntry fs d name ty = .ok v) (hv : v ≠ -1) :
    ∃ d', entryOf fs d name ty = some d' ∧ v = d' := by
  obtain ⟨-, j, hj, rfl⟩ := findEntry_eq_iff.mp ⟨h, hv⟩
  exact ⟨_, hj.entryOf, rfl⟩

/-- From index -1 no walk gets to a directory. -/
theorem walkDirs_missing {strict : Bool} {t : ℤ × List UInt8 × PathBuf}
    (h : walkDirs fs strict n r (-1) g = .ok t) : t.1 = -1 := by
  have hno : ∀ name, findEntry fs (-1) name DIR = .error (.wild .inode) := fun name => rfl
  cases n with
  | zero =>
    rw [walkDirs] at h
    split_ifs at h
    obtain rfl := Except.ok.inj h
    rfl
  | succ n =>
    rw [walkDirs] at h
    split_ifs at h
    · obtain rfl := Except.ok.inj h
      rfl
    · obtain ⟨g1, -, h⟩ := bind_eq_ok.mp h
      obtain ⟨dir, -, h⟩ := bind_eq_ok.mp h
      obtain ⟨r', -, h⟩ := bind_eq_ok.mp h
      rw [hno, error_bind] at h
      cases h

/-- **A walk that gets to a directory** goes where the inner loop leads, in any file system. -/
theorem leads_of_walkDirs {strict : Bool} {t : ℤ × List UInt8 × PathBuf} (hr : pieces r = ms ++ [q])
    (h0 : 0 ∉ r) (hs : strict = true ∨ t.1 ≠ -1) (h : walkDirs fs strict n r d g = .ok t) :
    ∃ e : ℕ, Leads fs d ms e ∧ t.1 = e ∧ t.2.1 = q := by
  induction ms generalizing r d n g with
  | nil =>
    obtain ⟨rfl, hno⟩ := pieces_eq_singleton hr
    rw [walkDirs_end hno] at h
    obtain rfl := Except.ok.inj h
    exact ⟨d, rfl, rfl, rfl⟩
  | cons m ms ih =>
    obtain ⟨r', hm, hr', rfl, hms⟩ := pieces_eq_cons hr (by simp)
    obtain ⟨h0m, h0r⟩ : 0 ∉ m ∧ 0 ∉ r' := by simpa using h0
    cases n with
    | zero =>
      rw [walkDirs, lastLevel_append hm hr', if_neg (by simp)] at h
      cases h
    | succ n =>
      rcases Nat.lt_or_ge m.length MAX_FILENAME_LEN with hlen | hlen
      · obtain ⟨g1, hstep⟩ := walkDirs_step fs strict n d g hm
          hr' h0m hlen
        rw [hstep] at h
        obtain ⟨index, hindex, h⟩ := bind_eq_ok.mp h
        obtain ⟨u, hpass, h⟩ := bind_eq_ok.mp h
        have hfound : index ≠ -1 := by
          rintro rfl
          rcases hs with hs | hs
          · exact assert_eq_ok.mp hpass ⟨hs, rfl⟩
          · exact hs (walkDirs_missing h)
        obtain ⟨-, j, -, rfl⟩ := findEntry_eq_iff.mp ⟨hindex, hfound⟩
        obtain ⟨e, hleads, ht⟩ := ih hms h0r h
        exact ⟨e, ⟨_, hindex, hleads⟩, ht⟩
      · rw [walkDirs_runsOver hm hr' hlen] at h
        cases h

/-- A walk that ends goes along a way. -/
theorem leads_of_walkFromRoot {strict : Bool} {t : ℤ × List UInt8 × PathBuf}
    (hp : p.head? = some slash) (hne : p ≠ [slash]) (h0 : 0 ∉ p) (hs : strict = true ∨ t.1 ≠ -1)
    (h : walkFromRoot fs strict p g = .ok t) :
    ∃ d : ℕ, Leads fs 0 (mids p) d ∧ t.1 = d ∧ t.2.1 = lastPiece p := by
  obtain ⟨r, rfl, hsplit⟩ := pieces_absolute hp hne
  have h0r : 0 ∉ r := fun hm => h0 (List.mem_append_right _ hm)
  obtain ⟨g1, hstep⟩ := walkFromRoot_absolute fs strict r g
  exact leads_of_walkDirs hsplit h0r hs (hstep.symm.trans h)

/-- Where the inner loop leads the reference walk goes. -/
theorem follow_of_leads {e : ℕ} (h : Leads fs d ms e) : follow fs d ms = some e := by
  induction ms generalizing d with
  | nil => exact congrArg some h
  | cons m ms ih =>
    obtain ⟨d1, h1, h⟩ := h
    obtain ⟨d2, hentry, hd2⟩ := entryOf_of_findEntry h1 (by omega)
    obtain rfl : d1 = d2 := by exact_mod_cast hd2
    rw [follow, hentry, Option.bind_some, ih h]

/-- **Where the strict walk succeeds** all directories are there, in any file system. -/
theorem follow_of_walkFromRoot {t : ℤ × List UInt8 × PathBuf} (hp : p.head? = some slash)
    (hne : p ≠ [slash]) (h0 : 0 ∉ p) (h : walkFromRoot fs true p g = .ok t) :
    ∃ d : ℕ, follow fs 0 (mids p) = some d ∧ t.1 = d ∧ t.2.1 = lastPiece p := by
  obtain ⟨d, hleads, ht⟩ := leads_of_walkFromRoot hp hne h0 (.inl rfl) h
  exact ⟨d, follow_of_leads hleads, ht⟩

/-- What `findCurrentDirPos` and `findCurrentFLPos` find, the inner loop finds at the end of the way. -/
theorem foundAt_of_findCurrentDirPos (hp : p.head? = some slash) (hne : p ≠ [slash]) (h0 : 0 ∉ p)
    (h : findCurrentDirPos fs p g = .ok (v, g')) (hv : v ≠ -1) :
    ∃ d j : ℕ, Leads fs 0 (mids p) d ∧ FoundAt fs d (lastPiece p) DIR j ∧ v = fs.target d j := by
  rw [findCurrentDirPos, if_neg (mt strcmp_eq_zero.mp hne)] at h
  obtain ⟨t, hwalk, h⟩ := bind_eq_ok.mp h
  obtain ⟨index, hindex, h⟩ := bind_eq_ok.mp h
  obtain ⟨rfl, rfl⟩ := Prod.mk.inj (Except.ok.inj h)
  obtain ⟨d, hleads, hd, hlast⟩ := leads_of_walkFromRoot hp hne h0 (.inl rfl) hwalk
  rw [hd, hlast] at hindex
  obtain ⟨-, j, hj, hvj⟩ := findEntry_eq_iff.mp ⟨hindex, hv⟩
  exact ⟨d, j, hleads, hj, hvj⟩

/-- What is found at the end of the way, `findCurrentDirPos` finds. -/
theorem findCurrentDirPos_of_foundAt {j : ℕ} (hp : p.head? = some slash) (hne : p ≠ [slash]) (h0 : 0 ∉ p)
    (hlen : ∀ m ∈ mids p, m.length < MAX_FILENAME_LEN) (hd : d < NR_INODE) (hw : Leads fs 0 (mids p) d)
    (hj : FoundAt fs d (lastPiece p) DIR j) (g : PathBuf) :
    ∃ g', findCurrentDirPos fs p g = .ok ((fs.target d j : ℤ), g') := by
  obtain ⟨g', hwalk⟩ := walkFromRoot_of_leads (g := g) true hp hne h0 hlen hw
  refine ⟨g', ?_⟩
  rw [findCurrentDirPos, if_neg (mt strcmp_eq_zero.mp hne), hwalk, ok_bind,
    (findEntry_eq_iff.mpr ⟨hd, j, hj, rfl⟩).1, ok_bind]

/-- A file at the end of a way is found. -/
theorem findCurrentFLPos_of_foundAt {j : ℕ} (hp : p.head? = some slash) (hne : p ≠ [slash]) (h0 : 0 ∉ p)
    (hlen : ∀ m ∈ mids p, m.length < MAX_FILENAME_LEN) (hd : d < NR_INODE) (hw : Leads fs 0 (mids p) d)
    (hj : FoundAt fs d (lastPiece p) FL j) (g : PathBuf) :
    ∃ g', findCurrentFLPos fs p g = .ok ((fs.target d j : ℤ), g') := by
  obtain ⟨g', hwalk⟩ := walkFromRoot_of_leads (g := g) true hp hne h0 hlen hw
  refine ⟨g', ?_⟩
  rw [findCurrentFLPos, hwalk, ok_bind, (findEntry_eq_iff.mpr ⟨hd, j, hj, rfl⟩).1, ok_bind]

/-- A directory that `findUpperDirPos` finds is the end of the way. -/
theorem leads_of_findUpperDirPos (hp : p.head? = some slash) (hne : p ≠ [slash]) (h0 : 0 ∉ p)
    (h : findUpperDirPos fs p g = .ok ((d : ℤ), g')) : Leads fs 0 (mids p) d := by
  rw [findUpperDirPos, if_neg (mt strcmp_eq_zero.mp hne)] at h
  obtain ⟨t, hwalk, h⟩ := bind_eq_ok.mp h
  obtain ⟨hd, -⟩ := Prod.mk.inj (Except.ok.inj h)
  obtain ⟨d', hleads, hd', -⟩ := leads_of_walkFromRoot hp hne h0 (.inr (by omega)) hwalk
  obtain rfl : d' = d := by exact_mod_cast hd'.symm.trans hd
  exact hleads

/-- The directory at the end of a way is found. -/
theorem findUpperDirPos_of_leads (hp : p.head? = some slash) (hne : p ≠ [slash]) (h0 : 0 ∉ p)
    (hlen : ∀ m ∈ mids p, m.length < MAX_FILENAME_LEN) (hw : Leads fs 0 (mids p) d) (g : PathBuf) :
    ∃ g', findUpperDirPos fs p g = .ok ((d : ℤ), g') := by
  obtain ⟨g', hwalk⟩ := walkFromRoot_of_leads (g := g) false hp hne h0 hlen hw
  refine ⟨g', ?_⟩
  rw [findUpperDirPos, if_neg (mt strcmp_eq_zero.mp hne), hwalk, ok_bind]

/-- What `findCurrentDirPos` finds is there. -/
theorem entryOf_of_findCurrentDirPos (hp : p.head? = some slash) (hne : p ≠ [slash]) (h0 : 0 ∉ p)
    (h : findCurrentDirPos fs p g = .ok (v, g')) (hv : v ≠ -1) :
    ∃ d d', follow fs 0 (mids p) = some d ∧ entryOf fs d (lastPiece p) DIR = some d' := by
  obtain ⟨d, j, hleads, hj, -⟩ := foundAt_of_findCurrentDirPos hp hne h0 h hv
  exact ⟨d, _, follow_of_leads hleads, hj.entryOf⟩

/-- What `findCurrentFLPos` finds is there. -/
theorem entryOf_of_findCurrentFLPos (hp : p.head? = some slash) (hne : p ≠ [slash]) (h0 : 0 ∉ p)
    (h : findCurrentFLPos fs p g = .ok (v, g')) :
    ∃ d, follow fs 0 (mids p) = some d ∧
      (v ≠ -1 → ∃ d', entryOf fs d (lastPiece p) FL = some d' ∧ v = d') := by
  obtain ⟨t, hwalk, h⟩ := bind_eq_ok.mp h
  obtain ⟨index, hindex, h⟩ := bind_eq_ok.mp h
  obtain ⟨rfl, rfl⟩ := Prod.mk.inj (Except.ok.inj h)
  obtain ⟨d, hfollow, hd, hlast⟩ := follow_of_walkFromRoot hp hne h0 hwalk
  rw [hd, hlast] at hindex
  exact ⟨d, hfollow, entryOf_of_findEntry hindex⟩

/-! ### A walk that succeeds -/

/-- **Where the strict walk succeeds** the other one goes the same way, whatever the globals are. -/
theorem walkDirs_lax {t : ℤ × List UInt8 × PathBuf} (h0 : 0 ∉ p)
    (h : walkDirs fs true n p u g = .ok t) (g2 : PathBuf) :
    ∃ g', walkDirs fs false n p u g2 = .ok (t.1, t.2.1, g') := by
  induction n generalizing p u g g2 with
  | zero =>
    rw [walkDirs] at h ⊢
    split_ifs at h ⊢
    obtain rfl := Except.ok.inj h
    exact ⟨g2, rfl⟩
  | succ n ih =>
    by_cases hno : slash ∈ p.dropLast
    · have hne : p ≠ [] := by
        rintro rfl
        cases hno
      obtain ⟨q, r, hq, hr, rfl, -⟩ := (pieces_cases hne).resolve_left fun hx => hx.2 hno
      obtain ⟨h0q, h0r⟩ : 0 ∉ q ∧ 0 ∉ r := by simpa using h0
      rcases Nat.lt_or_ge q.length MAX_FILENAME_LEN with hlen | hlen
      · obtain ⟨g1, hstep⟩ := walkDirs_step fs true n u g hq hr
          h0q hlen
        obtain ⟨g3, hstep'⟩ := walkDirs_step fs false n u g2 hq
          hr h0q hlen
        rw [hstep] at h
        obtain ⟨index, hindex, h⟩ := bind_eq_ok.mp h
        obtain ⟨-, -, h⟩ := bind_eq_ok.mp h
        rw [hstep', hindex, ok_bind, assert, if_pos (by simp), ok_bind]
        exact ih h0r h g3
      · rw [walkDirs_runsOver hq hr hlen] at h
        cases h
    · rw [walkDirs_end hno] at h ⊢
      obtain rfl := Except.ok.inj h
      exact ⟨g2, rfl⟩

/-- The same from the root. -/
theorem walkFromRoot_lax {t : ℤ × List UInt8 × PathBuf} (h0 : 0 ∉ p)
    (h : walkFromRoot fs true p g = .ok t) :
    ∃ g', walkFromRoot fs false p t.2.2 = .ok (t.1, t.2.1, g') := by
  by_cases hslash : slash ∈ p
  · obtain ⟨w, r, hsplit, hw⟩ := List.eq_append_cons_of_mem hslash
    obtain rfl : p = (w ++ [slash]) ++ r := by simpa using hsplit
    have hq : DirName (w ++ [slash]) := ⟨w, hw, rfl⟩
    obtain ⟨h0q, h0r⟩ : 0 ∉ w ++ [slash] ∧ 0 ∉ r := by rwa [List.mem_append, not_or] at h0
    obtain ⟨g1, htop, -⟩ := bind_eq_ok.mp h
    have hlen := length_lt_of_getTopDir hq htop
    obtain ⟨g2, hstep⟩ := walkFromRoot_step fs true r g hq h0q hlen
    obtain ⟨g3, hstep'⟩ := walkFromRoot_step fs false r t.2.2 hq h0q hlen
    rw [hstep']
    exact walkDirs_lax h0r (hstep.symm.trans h) g3
  · -- the rest has no slash either, so that the walk ends at once
    obtain ⟨g1, htop, h⟩ := bind_eq_ok.mp h
    obtain ⟨s1, hname, h⟩ := bind_eq_ok.mp h
    obtain ⟨a, hadv, h⟩ := bind_eq_ok.mp h
    obtain ⟨hoff, -, hagain⟩ := getTopDirLoop_noSlash hslash htop
    have ha : slash ∉ a.dropLast := by
      unfold advance at hadv
      split_ifs at hadv
      obtain rfl := Except.ok.inj hadv
      exact fun hm => hslash (List.mem_of_mem_drop (List.mem_of_mem_dropLast hm))
    rw [walkDirs_end ha] at h
    obtain rfl := Except.ok.inj h
    have htop1 : getTopDir p g1 = .ok g1 := hagain
    refine ⟨g1, ?_⟩
    rw [walkFromRoot, htop1, ok_bind, hname, ok_bind, hadv, ok_bind, walkDirs_end ha]

/-- **Where a file is found**, `findUpperDirPos` finds the directory that it is in. -/
theorem findUpperDirPos_of_file (h0 : 0 ∉ p) (h : findCurrentFLPos fs p g = .ok (v, g')) (hv : v ≠ -1) :
    ∃ (d : ℕ) (g2 : PathBuf) (name : List UInt8), findUpperDirPos fs p g' = .ok ((d : ℤ), g2) ∧
      findEntry fs d name FL = .ok v := by
  obtain ⟨t, hwalk, h⟩ := bind_eq_ok.mp h
  obtain ⟨index, hindex, h⟩ := bind_eq_ok.mp h
  obtain ⟨rfl, rfl⟩ := Prod.mk.inj (Except.ok.inj h)
  obtain ⟨dir, hdir, -⟩ := bind_eq_ok.mp hindex
  obtain ⟨d, hlt, hd, -⟩ := inodeAt_inv hdir
  rw [hd] at hindex
  obtain ⟨g2, hlax⟩ := walkFromRoot_lax h0 hwalk
  refine ⟨d, ?_⟩
  by_cases hroot : p = [slash]
  · -- no entry has the empty name that is left of this path
    subst hroot
    obtain ⟨g1, htop, -, hadv⟩ := getTopDir_eq (g := g) (q := [slash]) (r := []) ⟨[], by simp, rfl⟩
      (by decide) (by decide)
    rw [List.append_nil] at htop hadv
    rw [walkFromRoot, htop, ok_bind] at hwalk
    obtain ⟨s1, -, hwalk⟩ := bind_eq_ok.mp hwalk
    rw [hadv, ok_bind] at hwalk
    obtain rfl := Except.ok.inj hwalk
    obtain ⟨-, i, -, -, hne, -⟩ := findEntry_inv hindex hv
    exact absurd rfl hne
  · refine ⟨g2, t.2.1, ?_, hindex⟩
    rw [findUpperDirPos, if_neg (mt strcmp_eq_zero.mp hroot), hlax, ok_bind, hd]

/-! ### A walk that does not -/

/-- **Where a directory is missing** the strict walk ends at its assertion. -/
theorem walkDirs_abort (h : Scannable fs P) (hd : P d) (hr : pieces r = ms ++ [q]) (h0 : 0 ∉ r)
    (hn : ms.length ≤ n) (hlen : ∀ m ∈ ms, m.length < MAX_FILENAME_LEN)
    (hw : follow fs d ms = none) : walkDirs fs true n r d g = .error .abort := by
  induction ms generalizing r d n g with
  | nil => cases hw
  | cons m ms ih =>
    obtain ⟨n, rfl⟩ : ∃ n', n = n' + 1 := ⟨n - 1, by simp only [List.length_cons] at hn; omega⟩
    obtain ⟨r', hm, hr', rfl, hms⟩ := pieces_eq_cons hr (by simp)
    obtain ⟨h0m, h0r⟩ : 0 ∉ m ∧ 0 ∉ r' := by simpa using h0
    obtain ⟨hlenm, hlen⟩ := List.forall_mem_cons.mp hlen
    obtain ⟨g1, hstep⟩ := walkDirs_step fs true n d g hm hr'
      h0m hlenm
    rw [hstep, findEntry_eq h hd, ok_bind, assert]
    cases he : entryOf fs d m DIR with
    | none => rw [if_neg (by simp [indexOf]), error_bind]
    | some d1 =>
      rw [follow, he, Option.bind_some] at hw
      obtain ⟨i, hi, hu, -, rfl, hty⟩ := entryOf_eq_some he
      have hpass : ¬(true = true ∧ indexOf (some (fs.target d i)) = -1) := by
        rintro ⟨-, hx⟩
        simp only [indexOf] at hx
        omega
      rw [if_pos hpass, ok_bind]
      exact ih (h.closed d i hd hi hu hty) hms h0r (by simpa using hn) hlen hw

/-- A way that leads nowhere ends a strict walk. -/
theorem walkFromRoot_abort (h : Scannable fs P) (hroot : P 0) (hp : p.head? = some slash)
    (hne : p ≠ [slash]) (h0 : 0 ∉ p) (hlen : ∀ m ∈ mids p, m.length < MAX_FILENAME_LEN)
    (hw : follow fs 0 (mids p) = none) : walkFromRoot fs true p g = .error .abort := by
  obtain ⟨r, rfl, hsplit⟩ := pieces_absolute hp hne
  have h0r : 0 ∉ r := fun hm => h0 (List.mem_append_right _ hm)
  obtain ⟨g1, hstep⟩ := walkFromRoot_absolute fs true r g
  rw [hstep]
  exact walkDirs_abort h hroot hsplit h0r (length_lt_of_pieces hsplit).le hlen hw

end OsLab
