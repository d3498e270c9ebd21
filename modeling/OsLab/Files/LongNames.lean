import OsLab.Files.WellFormed
import OsLab.Files.Walks

/-!
# Names that are too long

The pieces of a path go through `top_dir`, the walkers' `dir`, the makers' `lastLevelName`, a slot and
the new inode's `filename`, all of 28 bytes, by a `strcpy` that knows no bound. None of the functions
on the way looks at a length, and `makeDir` adds up to one character more.

* `Maker`: `makeDir` and `makeFL` as one, `NameStored`: what such a call leaves when it has made its
  entry.
* `walkDirs_wild`: where the walk to the parent misses its buffer, or goes on from a directory that
  is not there.
* **`namesFit_iff`**: on a well-formed file system a name is stored as a whole or refused, and
  nothing else is touched, iff all inodes are in use, or every directory's name fits, no directory
  but the last one is missing, and the name of the new entry fits or has no parent.
* **`long_name_overruns`**: a file with a name of 28 characters.
-/

namespace OsLab

open OsLab.Lib

variable {fs fs' : FileSystem} {P : ℕ → Prop} {p q r name : List UInt8} {ms : List (List UInt8)}
  {g g' : PathBuf} {d e i n s : ℕ} {v : ℤ} {x : Stop}

/-! ### The two makers -/

/-- The functions that make an entry; `makeFL` takes the file's data. -/
inductive Maker
  | dir
  | file (data : Option (List UInt8))

variable {m : Maker}

namespace Maker

/-- A maker at work: `makeDir` or `makeFL`. -/
def run (fs : FileSystem) : Maker → List UInt8 → PathBuf → Except Stop (FileSystem × PathBuf)
  | dir, p, g => makeDir fs p g
  | file data, p, g => makeFL fs p data g

/-- The complete last component, for `makeDir` with its trailing slash. -/
def entryName : Maker → List UInt8 → List UInt8
  | dir, p => if (lastPiece p).getLast? = some slash then lastPiece p else lastPiece p ++ [slash]
  | file _, p => lastPiece p

/-- What the new inode `d'` has of the old one besides type and name: a directory gets its first two
entries, a file its data if there is any. -/
def Keeps : Maker → Inode → Inode → Prop
  | dir, d, d' => ∀ a, 64 ≤ a → d'.block a = d.block a
  | file none, d, d' => d'.size = d.size ∧ d'.block = d.block
  | file (some t), d, d' => d'.size = wordOf t.length ∧ d'.block = strcpy d.block 0 t

/-- The file's data is a string that fits. -/
def DataFits : Maker → Prop
  | dir | file none => True
  | file (some t) => t.length < MAX_FILE_SZ_KB * 1024

end Maker

/-- The entry is made: slot `s` of directory `d`, which was free, and inode `i`, which was free, have
the name, NUL-terminated within its 28 bytes, and nothing around them has changed. -/
structure NameStored (fs fs' : FileSystem) (m : Maker) (d s i : ℕ) (name : List UInt8) : Prop where
  slot : s < NR_DIRDATA
  free : ¬(fs.inode d).Used s
  lt : i < NR_INODE
  available : fs.super.inodeMap i = available
  slotName : (fs'.inode d).slotName s = .ok name
  slotNo : fs'.target d s = i
  name : (fs'.inode i).name = .ok name
  /-- The other slots of the directory, with their inode numbers. -/
  slots : ∀ a, a < 32 * s ∨ 32 * s + 32 ≤ a → (fs'.inode d).block a = (fs.inode d).block a
  dirName : (fs'.inode d).filename = (fs.inode d).filename
  data : m.Keeps (fs.inode i) (fs'.inode i)
  /-- The other inodes, with all that is in them. -/
  others : ∀ y, y ≠ d → y ≠ i → fs'.inode y = fs.inode y

/-- The call stores the complete last component in the directory that the path leads to, or refuses
the path: `makeDir` then returns without a change, an assertion stops the kernel otherwise. -/
def NamesFit (fs : FileSystem) (m : Maker) (p : List UInt8) : Prop :=
  ∀ g, m.run fs p g = .error .abort ∨ ∃ fs' g', m.run fs p g = .ok (fs', g') ∧
    (fs' = fs ∨ ∃ d s i, follow fs 0 (mids p) = some d ∧ NameStored fs fs' m d s i (m.entryName p))

/-- The names of the directories fit into the buffers, and all directories but the last one exist. -/
def WayFits (fs : FileSystem) (p : List UInt8) : Prop :=
  (∀ q ∈ mids p, q.length < MAX_FILENAME_LEN) ∧ follow fs 0 (mids p).dropLast ≠ none

/-- A way to a directory that is there fits if the names on it do. -/
theorem wayFits_of_follow (hlen : ∀ q ∈ mids p, q.length < MAX_FILENAME_LEN)
    (hw : follow fs 0 (mids p) = some d) : WayFits fs p := by
  refine ⟨hlen, ?_⟩
  rcases List.eq_nil_or_concat (mids p) with hnil | ⟨ms, m, hms⟩
  · rw [hnil]
    simp [follow]
  · rw [List.concat_eq_append] at hms
    rw [hms, follow_append] at hw
    obtain ⟨e, he, -⟩ := Option.bind_eq_some_iff.mp hw
    rw [hms, List.dropLast_concat, he]
    simp

/-! ### The way to the parent -/

/-- **Where the last directory is missing** the walk gets to index -1. -/
theorem walkDirs_noParent (h : Scannable fs P) (hd : P d) (hr : pieces r = ms ++ [q, name]) (h0 : 0 ∉ r)
    (hn : ms.length < n) (hlen : ∀ m ∈ ms ++ [q], m.length < MAX_FILENAME_LEN)
    (hw : follow fs d ms = some e) (hno : entryOf fs e q DIR = none) :
    ∃ g', walkDirs fs false n r d g = .ok (-1, name, g') := by
  induction ms generalizing r d n g with
  | nil =>
    obtain rfl : d = e := Option.some.inj hw
    obtain ⟨n, rfl⟩ : ∃ n', n = n' + 1 := ⟨n - 1, by omega⟩
    obtain ⟨r', hq, hr', rfl, hlast⟩ := pieces_eq_cons hr (by simp)
    obtain ⟨h0q, -⟩ : 0 ∉ q ∧ 0 ∉ r' := by simpa using h0
    obtain ⟨rfl, hend⟩ := pieces_eq_singleton hlast
    obtain ⟨g1, hstep⟩ := walkDirs_step fs false n d g hq hr' h0q
      (hlen q (by simp))
    exact ⟨g1, by rw [hstep, findEntry_eq h hd, hno, ok_bind, assert, if_pos (by simp), ok_bind, indexOf,
      walkDirs_end hend]⟩
  | cons m ms ih =>
    obtain ⟨n, rfl⟩ : ∃ n', n = n' + 1 := ⟨n - 1, by simp only [List.length_cons] at hn; omega⟩
    obtain ⟨r', hm, hr', rfl, hms⟩ := pieces_eq_cons hr (by simp)
    obtain ⟨h0m, h0r⟩ : 0 ∉ m ∧ 0 ∉ r' := by simpa using h0
    obtain ⟨hlenm, hlen⟩ := List.forall_mem_cons.mp hlen
    obtain ⟨d1, h1, hw⟩ := Option.bind_eq_some_iff.mp hw
    obtain ⟨g1, hstep⟩ := walkDirs_step fs false n d g hm hr' h0m
      hlenm
    obtain ⟨j, hj, hu, -, rfl, hty⟩ := entryOf_eq_some h1
    obtain ⟨g', hrest⟩ := ih (g := g1) (h.closed d j hd hj hu hty) hms h0r
      (by simpa using hn) hlen hw
    exact ⟨g', by rw [hstep, findEntry_eq h hd, h1, ok_bind, assert, if_pos (by simp), ok_bind, indexOf,
      hrest]⟩

/-- **Where a name does not fit**, or a directory before the last one is missing, the walk leaves its
buffers or the inode table. -/
theorem walkDirs_wild (h : Scannable fs P) (hd : P d) (hr : pieces r = ms ++ [q]) (h0 : 0 ∉ r)
    (hn : ms.length ≤ n)
    (hbad : ¬((∀ m ∈ ms, m.length < MAX_FILENAME_LEN) ∧ follow fs d ms.dropLast ≠ none)) :
    ∃ a, walkDirs fs false n r d g = .error (.wild a) := by
  induction ms generalizing r d n g with
  | nil => exact absurd ⟨by simp, by simp [follow]⟩ hbad
  | cons m ms ih =>
    obtain ⟨n, rfl⟩ : ∃ n', n = n' + 1 := ⟨n - 1, by simp only [List.length_cons] at hn; omega⟩
    obtain ⟨r', hm, hr', rfl, hms⟩ := pieces_eq_cons hr (by simp)
    obtain ⟨h0m, h0r⟩ : 0 ∉ m ∧ 0 ∉ r' := by simpa using h0
    rcases Nat.lt_or_ge m.length MAX_FILENAME_LEN with hlen | hlen
    · obtain ⟨g1, hstep⟩ := walkDirs_step fs false n d g hm hr'
        h0m hlen
      have hne : ms ≠ [] := by
        rintro rfl
        exact hbad ⟨by simpa using hlen, by simp [follow]⟩
      rw [hstep, findEntry_eq h hd, ok_bind, assert, if_pos (by simp), ok_bind]
      cases he : entryOf fs d m DIR with
      | some d1 =>
        obtain ⟨j, hj, hu, -, rfl, hty⟩ := entryOf_eq_some he
        refine ih (h.closed d j hd hj hu hty) hms h0r (by simpa using hn) ?_
        rintro ⟨hlens, hw⟩
        refine hbad ⟨List.forall_mem_cons.mpr ⟨hlen, hlens⟩, ?_⟩
        rw [List.dropLast_cons_of_ne_nil hne, follow, he]
        exact hw
      | none =>
        -- the next directory is looked for in the inode with index -1
        obtain ⟨m', ms, rfl⟩ := List.exists_cons_of_ne_nil hne
        obtain ⟨n, rfl⟩ : ∃ n', n = n' + 1 := ⟨n - 1, by simp only [List.length_cons] at hn; omega⟩
        obtain ⟨r'', hm', hr'', rfl, -⟩ := pieces_eq_cons hms (by simp)
        obtain ⟨h0m', -⟩ : 0 ∉ m' ∧ 0 ∉ r'' := by simpa using h0r
        rcases Nat.lt_or_ge m'.length MAX_FILENAME_LEN with hlen' | hlen'
        · obtain ⟨g2, hstep'⟩ := walkDirs_step fs false n (indexOf none) g1 hm'
            hr'' h0m' hlen'
          exact ⟨.inode, by rw [hstep']; rfl⟩
        · exact ⟨.name, walkDirs_runsOver hm' hr'' hlen'⟩
    · exact ⟨.name, walkDirs_runsOver hm hr' hlen⟩

/-- **`findUpperDirPos`** on an absolute path, in a file system that can be scanned. -/
theorem findUpperDirPos_cases (h : Scannable fs P) (hroot : P 0) (hp : p.head? = some slash) (h0 : 0 ∉ p)
    (g : PathBuf) :
    (WayFits fs p → ∃ g', findUpperDirPos fs p g = .ok (indexOf (follow fs 0 (mids p)), g')) ∧
      (¬WayFits fs p → ∃ a, findUpperDirPos fs p g = .error (.wild a)) := by
  by_cases hne : p = [slash]
  · subst hne
    have hway : WayFits fs [slash] := ⟨by simp [mids, pieces], by simp [mids, pieces, follow]⟩
    exact ⟨fun _ => ⟨g, rfl⟩, fun hno => absurd hway hno⟩
  obtain ⟨r, rfl, hsplit⟩ := pieces_absolute hp hne
  have h0r : 0 ∉ r := fun hm => h0 (List.mem_append_right _ hm)
  have hlt : (mids ([slash] ++ r)).length < r.length := length_lt_of_pieces hsplit
  obtain ⟨g1, hstep⟩ : ∃ g1, walkFromRoot fs false ([slash] ++ r) g =
      walkDirs fs false r.length r ((0 : ℕ) : ℤ) g1 := walkFromRoot_absolute fs false r g
  rw [findUpperDirPos, if_neg (mt strcmp_eq_zero.mp hne), hstep]
  constructor
  · intro hway
    cases hw : follow fs 0 (mids ([slash] ++ r)) with
    | some d =>
      obtain ⟨g', hwalk⟩ := walkDirs_of_leads (g := g1) false hsplit h0r hway.1 (Nat.le_of_lt hlt)
        (leads_of_follow h hroot hw)
      exact ⟨g', by rw [hwalk, ok_bind]; rfl⟩
    | none =>
      rcases List.eq_nil_or_concat (mids ([slash] ++ r)) with hnil | ⟨ms, m, hms⟩
      · rw [hnil] at hw
        cases hw
      · rw [List.concat_eq_append] at hms
        have hway' := hway.2
        rw [hms, List.dropLast_concat] at hway'
        obtain ⟨e, he⟩ := Option.ne_none_iff_exists'.mp hway'
        rw [hms, follow_append, he, Option.bind_some, follow] at hw
        have hno : entryOf fs e m DIR = none := by
          cases hent : entryOf fs e m DIR with
          | none => rfl
          | some y =>
            rw [hent] at hw
            cases hw
        have hmslt : ms.length < r.length := by
          rw [hms, List.length_append] at hlt
          omega
        obtain ⟨g', hwalk⟩ := walkDirs_noParent (g := g1) (n := r.length) h hroot
          (by rw [hsplit, hms, List.append_assoc]; rfl) h0r hmslt (by rw [← hms]; exact hway.1) he hno
        exact ⟨g', by rw [hwalk, ok_bind]; rfl⟩
  · intro hway
    obtain ⟨a, hwalk⟩ := walkDirs_wild (g := g1) h hroot hsplit h0r (Nat.le_of_lt hlt) hway
    exact ⟨a, by rw [hwalk, error_bind]⟩

/-! ### The makers at the parent -/

/-- The last level of an absolute path is its last piece. -/
theorem getLastLevelName_lastPiece (hp : p.head? = some slash) :
    getLastLevelName p = lastPiece p ∧ lastPiece p ≠ [] := by
  by_cases hne : p = [slash]
  · subst hne
    decide
  · obtain ⟨hname, hnil, -⟩ := getLastLevelName_absolute hp hne
    exact ⟨hname, hnil⟩

namespace Maker

/-- The name that a directory gets ends with a slash. -/
theorem entryName_dir : dir.entryName p =
    if (lastPiece p).getLast? = some slash then lastPiece p else lastPiece p ++ [slash] := rfl

/-- The name has no NUL inside. -/
theorem zero_not_mem (hp : p.head? = some slash) (h0 : 0 ∉ p) : 0 ∉ m.entryName p := by
  have hlast : 0 ∉ lastPiece p := (getLastLevelName_lastPiece hp).1 ▸ zero_not_mem_getLastLevelName h0
  cases m with
  | file data => exact hlast
  | dir =>
    rw [entryName_dir]
    split_ifs
    · exact hlast
    · rw [List.mem_append, not_or]
      exact ⟨hlast, by decide⟩

/-- No name is empty. -/
theorem entryName_ne_nil (hp : p.head? = some slash) : m.entryName p ≠ [] := by
  have hlast := (getLastLevelName_lastPiece hp).2
  cases m with
  | file data => exact hlast
  | dir =>
    rw [entryName_dir]
    split_ifs
    · exact hlast
    · simp

/-- `makeDir`'s two steps to the name, if it fits. -/
theorem dirName_ok (hp : p.head? = some slash) (hlen : (dir.entryName p).length < MAX_FILENAME_LEN) :
    (getLastLevelName p).length < MAX_FILENAME_LEN ∧
      withSlash (getLastLevelName p) = .ok (dir.entryName p) := by
  obtain ⟨hname, hnil⟩ := getLastLevelName_lastPiece hp
  rw [hname]
  rw [entryName_dir] at hlen ⊢
  unfold withSlash
  rw [List.getLast?_eq_some_getLast hnil] at hlen ⊢
  dsimp only
  by_cases hc : (lastPiece p).getLast hnil = slash
  · rw [hc, if_pos rfl] at hlen ⊢
    exact ⟨hlen, if_neg (by simp)⟩
  · have hsome : ¬some ((lastPiece p).getLast hnil) = some slash := by simpa using hc
    rw [if_neg hsome, List.length_append, List.length_singleton] at hlen
    rw [if_neg hsome, if_pos hc, if_pos (by exact hlen)]
    exact ⟨by omega, rfl⟩

/-- They leave their buffer if it does not. -/
theorem dirName_wild (hp : p.head? = some slash) (hlen : ¬(dir.entryName p).length < MAX_FILENAME_LEN) :
    (lastLevelName p >>= withSlash) = .error (.wild .name) := by
  obtain ⟨hname, hnil⟩ := getLastLevelName_lastPiece hp
  rw [entryName_dir] at hlen
  unfold lastLevelName
  dsimp only
  rw [hname]
  rw [List.getLast?_eq_some_getLast hnil] at hlen
  split_ifs with hfits
  · rw [ok_bind, withSlash, List.getLast?_eq_some_getLast hnil]
    dsimp only
    by_cases hc : (lastPiece p).getLast hnil = slash
    · rw [hc, if_pos rfl] at hlen
      exact absurd hfits hlen
    · have hsome : ¬some ((lastPiece p).getLast hnil) = some slash := by simpa using hc
      rw [if_neg hsome, List.length_append, List.length_singleton] at hlen
      rw [if_pos hc]
      exact if_neg hlen
  · rfl

/-- Without a free inode nothing is made. -/
theorem run_noInode (hi : getAvlInode fs = -1) :
    m.run fs p g = .ok (fs, g) ∨ m.run fs p g = .error .abort := by
  cases m with
  | dir => exact .inl (if_pos hi)
  | file data =>
    right
    rw [run, makeFL, hi]
    rfl

/-- With one, the lookup of the directory above decides. -/
theorem run_error (hi : getAvlInode fs ≠ -1) (hup : findUpperDirPos fs p g = .error x) :
    m.run fs p g = .error x := by
  cases m with
  | dir =>
    unfold run makeDir
    dsimp only
    rw [if_neg hi, hup, error_bind]
  | file data => rw [run, makeFL, assert, if_pos hi, ok_bind, hup, error_bind]

/-- Without a directory above nothing is made. -/
theorem run_noParent (hi : getAvlInode fs ≠ -1) (hup : findUpperDirPos fs p g = .ok (-1, g')) :
    m.run fs p g = .ok (fs, g') ∨ m.run fs p g = .error .abort := by
  cases m with
  | dir =>
    left
    unfold run makeDir
    dsimp only
    rw [if_neg hi, hup, ok_bind]
    exact if_pos rfl
  | file data =>
    right
    rw [run, makeFL, assert, if_pos hi, ok_bind, hup, ok_bind]
    rfl

/-- A name that does not fit leaves the local buffer. -/
theorem run_long (hi : getAvlInode fs ≠ -1) (hup : findUpperDirPos fs p g = .ok ((d : ℤ), g'))
    (hp : p.head? = some slash) (hlen : ¬(m.entryName p).length < MAX_FILENAME_LEN) :
    m.run fs p g = .error (.wild .name) := by
  cases m with
  | dir =>
    have hwild := dirName_wild hp hlen
    unfold run makeDir
    dsimp only
    rw [if_neg hi, hup, ok_bind]
    dsimp only
    rw [if_neg (by omega)]
    rcases bind_eq_error.mp hwild with hname | ⟨t, hname, hslash⟩
    · rw [hname, error_bind]
    · rw [hname, ok_bind, hslash, error_bind]
  | file data =>
    have hlong : lastLevelName p = .error (.wild .name) := by
      unfold lastLevelName
      rw [(getLastLevelName_lastPiece hp).1]
      exact if_neg hlen
    rw [run, makeFL, assert, if_pos hi, ok_bind, hup, ok_bind, assert, if_pos (by omega), ok_bind, hlong,
      error_bind]

/-- In a directory without a free slot an assertion fails. -/
theorem run_full (hi : getAvlInode fs ≠ -1) (hup : findUpperDirPos fs p g = .ok ((d : ℤ), g'))
    (hp : p.head? = some slash) (hlen : (m.entryName p).length < MAX_FILENAME_LEN)
    (hfull : getAvlDirdata fs d = .ok (-1)) : m.run fs p g = .error .abort := by
  have hadd : ∀ (v : ℤ) (t : List UInt8), addEntry fs.incInuse d v t = .error .abort := by
    intro v t
    have hfull : getAvlDirdata fs.incInuse d = .ok (-1) := hfull
    rw [addEntry, hfull]
    rfl
  cases m with
  | dir =>
    obtain ⟨hfits, hname⟩ := dirName_ok hp hlen
    have hlast : lastLevelName p = .ok (getLastLevelName p) := if_pos hfits
    unfold run makeDir
    dsimp only
    rw [if_neg hi, hup, ok_bind]
    dsimp only
    rw [if_neg (by omega), hlast, ok_bind, hname, ok_bind, hadd, error_bind]
  | file data =>
    have hlast : lastLevelName p = .ok (getLastLevelName p) := by
      refine if_pos ?_
      rw [(getLastLevelName_lastPiece hp).1]
      exact hlen
    rw [run, makeFL, assert, if_pos hi, ok_bind, hup, ok_bind, assert, if_pos (by omega), ok_bind, hlast,
      ok_bind, hadd, error_bind]

/-- What the new inode is set up as. -/
def inode : Maker → Inode → List UInt8 → ℕ → ℕ → Inode
  | dir, old, name, i, d => newDir old name i d
  | file data, old, name, _, _ => withData data (newFile old name)

/-- In another one the entry is made. -/
theorem run_ok (hi : getAvlInode fs = i) (hup : findUpperDirPos fs p g = .ok ((d : ℤ), g'))
    (hd : d < NR_INODE) (hilt : i < NR_INODE) (hp : p.head? = some slash)
    (hlen : (m.entryName p).length < MAX_FILENAME_LEN) (hslot : getAvlDirdata fs d = .ok (s : ℤ))
    (hdata : m.DataFits) :
    m.run fs p g = .ok (installed (linked fs d s i (m.entryName p)) i
      (m.inode ((linked fs d s i (m.entryName p)).inode i) (m.entryName p) i d), g') := by
  cases m with
  | dir =>
    obtain ⟨hfits, hname⟩ := dirName_ok hp hlen
    exact makeDir_eq hi hup hd hilt hslot hfits hname
  | file data =>
    have hname := (getLastLevelName_lastPiece hp).1
    have hfits : ∀ t, data = some t → t.length < 32768 := by
      rintro t rfl
      exact hdata
    have hok := makeFL_ok hi hup hd hilt hslot (by rw [hname]; exact hlen) hfits
    rw [hname] at hok
    exact hok

/-- Data that does not fit leaves the data block. -/
theorem run_bigData (hi : getAvlInode fs = i) (hup : findUpperDirPos fs p g = .ok ((d : ℤ), g'))
    (hd : d < NR_INODE) (hilt : i < NR_INODE) (hp : p.head? = some slash)
    (hlen : (m.entryName p).length < MAX_FILENAME_LEN) (hslot : getAvlDirdata fs d = .ok (s : ℤ))
    (hdata : ¬m.DataFits) : m.run fs p g = .error (.wild .datablock) := by
  cases m with
  | dir => exact absurd trivial hdata
  | file data =>
    cases data with
    | none => exact absurd trivial hdata
    | some t =>
      have hlast : lastLevelName p = .ok (getLastLevelName p) := by
        refine if_pos ?_
        rw [(getLastLevelName_lastPiece hp).1]
        exact hlen
      rw [run, makeFL, hi, assert, if_pos (by omega), ok_bind, hup, ok_bind, assert, if_pos (by omega),
        ok_bind, hlast, ok_bind, addEntry_eq hd hslot, ok_bind, inodeAt_eq hilt, ok_bind]
      have hbig : ¬t.length + 1 ≤ MAX_FILE_SZ_KB * 1024 := hdata
      dsimp only
      rw [if_neg hbig, error_bind]

/-- What `makeFL` sets up is no directory. -/
theorem inode_file_type {data : Option (List UInt8)} {old : Inode} :
    ((file data).inode old name i d).type ≠ DIR := by
  have hty : ((file data).inode old name i d).type = FL := by cases data <;> rfl
  rw [hty]
  decide

/-- The name of a new inode that fits. -/
theorem inode_name {old : Inode} (h0 : 0 ∉ name) (hlen : name.length < MAX_FILENAME_LEN) :
    (m.inode old name i d).name = .ok name := by
  cases m with
  | dir => exact name_setName h0 hlen _
  | file data =>
    cases data with
    | none => exact name_setName h0 hlen _
    | some t => exact name_setName h0 hlen _

/-- What a maker leaves in the inode that it takes. -/
theorem keeps_inode {old : Inode} : m.Keeps old (m.inode old name i d) := by
  cases m with
  | dir =>
    intro a ha
    have h1 : (((({ old with type := DIR } : Inode).setName name).entry 0 (wordOf i) [dot]).entry 1
        (wordOf d) [OsLab.dot, OsLab.dot]).block a = _ :=
      Inode.entry_block (by decide) (.inr (by omega))
    exact h1.trans (Inode.entry_block (by decide) (.inr (by omega)))
  | file data =>
    cases data with
    | none => exact ⟨rfl, rfl⟩
    | some t => exact ⟨rfl, rfl⟩

end Maker

/-- **The entry is stored**, and nothing around it has changed. -/
theorem stored_installed (hd : d ≠ i) (hs : s < NR_DIRDATA) (hfree : ¬(fs.inode d).Used s)
    (hi : i < NR_INODE) (hav : fs.super.inodeMap i = available) (h0 : 0 ∉ name)
    (hlen : name.length < MAX_FILENAME_LEN) :
    NameStored fs (installed (linked fs d s i name) i (m.inode (fs.inode i) name i d)) m d s i name := by
  have hself : (installed (linked fs d s i name) i (m.inode (fs.inode i) name i d)).inode d =
      { (fs.inode d).entry s (wordOf i) name with size := (fs.inode d).size + 1 } := by
    rw [installed_inode, if_neg hd, linked_inode, if_pos rfl]
  have hnew : (installed (linked fs d s i name) i (m.inode (fs.inode i) name i d)).inode i =
      m.inode (fs.inode i) name i d := by
    rw [installed_inode, if_pos rfl]
  refine ⟨hs, hfree, hi, hav, ?_, ?_, ?_, ?_, ?_, ?_, ?_⟩
  · rw [hself]
    exact (Inode.slotName_entry hlen h0 s).trans (if_pos rfl)
  · rw [FileSystem.target, hself]
    have hno : ((fs.inode d).entry s (wordOf i) name).slotNo s = wordOf i :=
      (Inode.slotNo_entry hlen s).trans (if_pos rfl)
    have hlt : i < 32 := hi
    have hword := toNat_wordOf (x := i) (by omega) (by omega)
    change (((fs.inode d).entry s (wordOf i) name).slotNo s).toNat = i
    rw [hno]
    exact_mod_cast hword
  · rw [hnew]
    exact Maker.inode_name h0 hlen
  · intro a ha
    rw [hself]
    exact Inode.entry_block hlen ha
  · rw [hself]
    rfl
  · rw [hnew]
    exact Maker.keeps_inode
  · intro y hyd hyi
    rw [installed_inode, if_neg hyi, linked_inode_of_ne hyd]

/-! ### Names that fit -/

namespace Maker

/-- What the call stores fits: all inodes are in use, so that it stores nothing; or the way to the
parent fits and, if the parent is there, so does the name of the new entry and the file's data, for
which there is a slot. -/
def Fits (fs : FileSystem) (m : Maker) (p : List UInt8) : Prop :=
  (∀ y < NR_INODE, InUse fs y) ∨ WayFits fs p ∧
    ∀ d, follow fs 0 (mids p) = some d → (m.entryName p).length < MAX_FILENAME_LEN ∧
      ((∀ j < NR_DIRDATA, (fs.inode d).Used j) ∨ m.DataFits)

/-- The call makes an entry in slot `s` of directory `d`, for inode `i`. -/
structure Makes (fs : FileSystem) (m : Maker) (p : List UInt8) (g g' : PathBuf) (d s i : ℕ) : Prop where
  way : follow fs 0 (mids p) = some d
  upper : findUpperDirPos fs p g = .ok ((d : ℤ), g')
  isDir : IsDir fs d
  slot : s < NR_DIRDATA
  free : (fs.inode d).slotName s = .ok []
  inode : getAvlInode fs = i
  lt : i < NR_INODE
  available : fs.super.inodeMap i = OsLab.available
  nameLen : (m.entryName p).length < MAX_FILENAME_LEN
  run : m.run fs p g = .ok (installed (linked fs d s i (m.entryName p)) i
    (m.inode (fs.inode i) (m.entryName p) i d), g')

/-- The directory is in use and the inode was not. -/
theorem Makes.ne (h : Makes fs m p g g' d s i) : d ≠ i := by
  rintro rfl
  exact h.isDir.inUse h.available

/-- What is made is an entry and an inode for it. -/
theorem Makes.made (h : Makes fs m p g g' d s i) :
    Made fs (installed (linked fs d s i (m.entryName p)) i (m.inode (fs.inode i) (m.entryName p) i d))
      d s i (m.entryName p) (m.inode (fs.inode i) (m.entryName p) i d) where
  lt := h.lt
  available := h.available
  parent := h.isDir.lt
  slot := h.slot
  free := h.free
  nameLen := h.nameLen
  eq := rfl

/-- **A run** of a maker makes the entry, where what it stores fits, unless the path is refused. -/
theorem run_cases (h : Scannable fs (IsDir fs)) (hroot : IsDir fs 0) (hp : p.head? = some slash)
    (h0 : 0 ∉ p) (hfits : m.Fits fs p) (g : PathBuf) :
    m.run fs p g = .error .abort ∨ (∃ g', m.run fs p g = .ok (fs, g')) ∨
      ∃ g' d s i, Makes fs m p g g' d s i := by
  by_cases hi : getAvlInode fs = -1
  · rcases run_noInode (m := m) (p := p) (g := g) hi with hok | habort
    · exact .inr (.inl ⟨g, hok⟩)
    · exact .inl habort
  obtain ⟨i, hilt, hav, hmap⟩ := getAvlInode_spec hi
  obtain ⟨hway, hname⟩ := hfits.resolve_left fun hall => hall i hilt hmap
  obtain ⟨g', hup⟩ := (findUpperDirPos_cases h hroot hp h0 g).1 hway
  cases hw : follow fs 0 (mids p) with
  | none =>
    rw [hw] at hup
    rcases run_noParent (m := m) hi hup with hok | habort
    · exact .inr (.inl ⟨g', hok⟩)
    · exact .inl habort
  | some d =>
    rw [hw] at hup
    obtain ⟨hlen, hdata⟩ := hname d hw
    have hd : IsDir fs d := h.follow hroot hw
    by_cases hslots : ∀ j < NR_DIRDATA, (fs.inode d).Used j
    · exact .inl (run_full hi hup hp hlen (getAvlDirdata_full hd.lt (h.readable d hd) hslots))
    · have hdata := hdata.resolve_left hslots
      push Not at hslots
      obtain ⟨s, hslot⟩ := getAvlDirdata_ok hd.lt (h.readable d hd) hslots
      obtain ⟨-, s', hs', hsame, hfree, -⟩ := getAvlDirdata_inv hslot (by omega)
      obtain rfl : s = s' := by exact_mod_cast hsame
      have hdi : d ≠ i := by
        rintro rfl
        exact hd.inUse hmap
      have hok := run_ok hav hup hd.lt hilt hp hlen hslot hdata
      rw [linked_inode_of_ne hdi.symm] at hok
      exact .inr (.inr ⟨g', d, s, i, hw, hup, hd, hs', hfree, hav, hilt, hmap, hlen, hok⟩)

/-- **Where it does not fit**, the run leaves an object. -/
theorem run_wild (h : Scannable fs (IsDir fs)) (hroot : IsDir fs 0) (hp : p.head? = some slash)
    (h0 : 0 ∉ p) (hno : ¬m.Fits fs p) (g : PathBuf) : ∃ a, m.run fs p g = .error (.wild a) := by
  unfold Fits at hno
  push Not at hno
  obtain ⟨⟨y, hy, hfree⟩, hno⟩ := hno
  have hi : getAvlInode fs ≠ -1 := getAvlInode_ne hy (not_not.mp hfree)
  obtain ⟨i, hilt, hav, hmap⟩ := getAvlInode_spec hi
  obtain ⟨hwalk, hlost⟩ := findUpperDirPos_cases h hroot hp h0 g
  by_cases hway : WayFits fs p
  swap
  · obtain ⟨a, hup⟩ := hlost hway
    exact ⟨a, run_error hi hup⟩
  obtain ⟨d, hw, hno⟩ := hno hway
  obtain ⟨g', hup⟩ := hwalk hway
  rw [hw] at hup
  by_cases hlen : (m.entryName p).length < MAX_FILENAME_LEN
  swap
  · exact ⟨.name, run_long hi hup hp hlen⟩
  obtain ⟨hslots, hdata⟩ := hno hlen
  have hd : IsDir fs d := h.follow hroot hw
  obtain ⟨s, hslot⟩ := getAvlDirdata_ok hd.lt (h.readable d hd) hslots
  exact ⟨.datablock, run_bigData hav hup hd.lt hilt hp hlen hslot hdata⟩

end Maker

/-- **Names fit or are refused** iff all inodes are in use, or the way to the parent fits and, if the
parent is there, so does the name of the new entry, and the data of a file that is made. -/
theorem namesFit_iff (h : WellFormed fs) (hp : p.head? = some slash) (h0 : 0 ∉ p) :
    NamesFit fs m p ↔ (∀ y < NR_INODE, InUse fs y) ∨ WayFits fs p ∧
      ∀ d, follow fs 0 (mids p) = some d → (m.entryName p).length < MAX_FILENAME_LEN ∧
        ((∀ j < NR_DIRDATA, (fs.inode d).Used j) ∨ m.DataFits) := by
  constructor
  · intro hfit
    by_contra hno
    obtain ⟨a, hrun⟩ := Maker.run_wild h.scannable h.root hp h0 hno ⟨0, fun _ => 0⟩
    rcases hfit ⟨0, fun _ => 0⟩ with habort | ⟨fs', g', hok, -⟩
    · rw [hrun] at habort
      cases habort
    · rw [hrun] at hok
      cases hok
  · intro hfits g
    rcases Maker.run_cases h.scannable h.root hp h0 hfits g with
      habort | ⟨g', hok⟩ | ⟨g', d, s, i, hm⟩
    · exact .inl habort
    · exact .inr ⟨fs, g', hok, .inl rfl⟩
    · exact .inr ⟨_, g', hm.run, .inr ⟨d, s, i, hm.way, stored_installed hm.ne hm.slot
        (fun hu => (Inode.slotName_used hm.free).mp hu rfl) hm.lt hm.available
        (Maker.zero_not_mem hp h0) hm.nameLen⟩⟩

/-- A directory in the root of an empty file system. -/
theorem namesFit_iff_root : NamesFit Image.blank.fs .dir [slash, 97] ↔
    (∀ y < NR_INODE, InUse Image.blank.fs y) ∨ WayFits Image.blank.fs [slash, 97] ∧
      ∀ d, follow Image.blank.fs 0 (mids [slash, 97]) = some d →
        (Maker.dir.entryName [slash, 97]).length < MAX_FILENAME_LEN ∧
          ((∀ j < NR_DIRDATA, (Image.blank.fs.inode d).Used j) ∨ Maker.dir.DataFits) :=
  namesFit_iff blank_wellFormed (by decide) (by decide)

/-- **A file with a name of 28 characters**: the NUL behind it is written past the local buffer. -/
theorem long_name_overruns : ¬∀ (fs : FileSystem) (m : Maker) (p : List UInt8), WellFormed fs →
    m.DataFits → p.head? = some slash → 0 ∉ p → NamesFit fs m p := by
  intro hall
  have hp : (slash :: List.replicate 28 97).head? = some slash := rfl
  have hi : getAvlInode Image.blank.fs ≠ -1 := getAvlInode_ne (i := 1) (by decide) (by
    rw [blank_map]
    rfl)
  have hup : findUpperDirPos Image.blank.fs (slash :: List.replicate 28 97) ⟨0, fun _ => 0⟩ =
      .ok (((0 : ℕ) : ℤ), _) := rfl
  have hrun := Maker.run_long (m := .file none) hi hup hp (by decide)
  rcases hall Image.blank.fs (.file none) _ blank_wellFormed trivial hp (by decide) ⟨0, fun _ => 0⟩ with
    habort | ⟨fs', g', hok, -⟩
  · rw [hrun] at habort
    cases habort
  · rw [hrun] at hok
    cases hok

end OsLab
