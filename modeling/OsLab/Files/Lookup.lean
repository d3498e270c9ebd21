import OsLab.Files.Paths
import OsLab.Files.RootDir

/-!
# Looking up paths

`entryOf` is the first entry of a directory with a given name whose inode has a given type, and
`follow` goes from directory to directory along the pieces of a path. Neither knows of `filenum`, of
the globals of the walkers or of their buffers.

* `findEntry_eq`: the inner loop of the walkers is `entryOf`, in directories whose `filenum` is
  right (`Scannable`).
* `walkDirs_of_leads`: their outer loop goes where the inner one leads (`Leads`), and that is `follow`
  in such directories.
* `resolvers_agree`: so `findUpperDirPos`, `findCurrentDirPos` and `findCurrentFLPos` compute the
  same walk, and look in the directory it ends in.
-/

namespace OsLab

open OsLab.Lib

variable {fs : FileSystem} {P : ℕ → Prop} {d d' : ℕ} {p q r name : List UInt8} {ty : UInt32}
  {ms : List (List UInt8)} {g : PathBuf}

/-! ### The reference walk -/

/-- The inode an entry names. -/
def FileSystem.target (fs : FileSystem) (d i : ℕ) : ℕ := ((fs.inode d).slotNo i).toNat

/-- The inode of the first entry of directory `d` with this name whose inode has this type. -/
def entryOf (fs : FileSystem) (d : ℕ) (name : List UInt8) (ty : UInt32) : Option ℕ :=
  ((List.range NR_DIRDATA).find? fun i => (fs.inode d).Used i && ((fs.inode d).nameAt i = name &&
    (fs.inode (fs.target d i)).type = ty)).map (fs.target d)

/-- The directory that a sequence of names leads to from directory `d`. -/
def follow (fs : FileSystem) : ℕ → List (List UInt8) → Option ℕ
  | d, [] => some d
  | d, q :: ms => (entryOf fs d q DIR).bind fun d' => follow fs d' ms

/-- The pieces of an absolute path between the leading slash and the last one. -/
def mids (p : List UInt8) : List (List UInt8) := (pieces p).tail.dropLast

/-- The last piece of a path. -/
def lastPiece (p : List UInt8) : List UInt8 := (pieces p).getLast?.getD []

/-- An inode number as the walkers return it. -/
def indexOf : Option ℕ → ℤ
  | none => -1
  | some d => d

/-- The directories in `P` can be scanned, and their entries lead to directories in `P`. -/
structure Scannable (fs : FileSystem) (P : ℕ → Prop) : Prop where
  lt : ∀ d, P d → d < NR_INODE
  readable : ∀ d, P d → (fs.inode d).Readable
  counted : ∀ d, P d → (fs.inode d).Counted
  target : ∀ d i, P d → i < NR_DIRDATA → (fs.inode d).Used i → fs.target d i < NR_INODE
  closed : ∀ d i, P d → i < NR_DIRDATA → (fs.inode d).Used i →
    (fs.inode (fs.target d i)).type = DIR → P (fs.target d i)

/-- The number of an inode in the table is read back with its sign. -/
theorem intOf_slotNo {i : ℕ} (h : fs.target d i < NR_INODE) :
    intOf ((fs.inode d).slotNo i) = fs.target d i := by
  have hlt : fs.target d i < 32 := h
  unfold intOf FileSystem.target at *
  exact i32_eq_self (by omega) (by omega)

/-- What is found is an entry. -/
theorem entryOf_eq_some (h : entryOf fs d name ty = some d') :
    ∃ i < NR_DIRDATA, (fs.inode d).Used i ∧ (fs.inode d).nameAt i = name ∧ fs.target d i = d' ∧
      (fs.inode d').type = ty := by
  obtain ⟨i, hi, rfl⟩ := Option.map_eq_some_iff.mp h
  have hmem := List.mem_range.mp (List.mem_of_find?_eq_some hi)
  have hprop := List.find?_some hi
  simp only [Bool.and_eq_true, decide_eq_true_eq] at hprop
  exact ⟨i, hmem, hprop.1, hprop.2.1, rfl, hprop.2.2⟩

/-- What is not found is no entry. -/
theorem entryOf_eq_none : entryOf fs d name ty = none ↔
    ∀ i < NR_DIRDATA, (fs.inode d).Used i → (fs.inode d).nameAt i = name →
      (fs.inode (fs.target d i)).type ≠ ty := by
  rw [entryOf, Option.map_eq_none_iff, List.find?_eq_none]
  constructor
  · intro h i hi hu hname hty
    have := h i (List.mem_range.mpr hi)
    simp [hu, hname, hty] at this
  · intro h i hi
    simp only [Bool.and_eq_true, decide_eq_true_eq, not_and]
    exact h i (List.mem_range.mp hi)

/-- The way through two parts of a path. -/
theorem follow_append {ms' : List (List UInt8)} :
    follow fs d (ms ++ ms') = (follow fs d ms).bind fun d' => follow fs d' ms' := by
  induction ms generalizing d with
  | nil => rfl
  | cons m ms ih =>
    rw [List.cons_append, follow, follow]
    cases entryOf fs d m DIR with
    | none => rfl
    | some d1 => exact ih

/-- A name that is found fits into a slot. -/
theorem Scannable.length_lt (h : Scannable fs P) (hd : P d) (he : entryOf fs d name ty = some d') :
    name.length < MAX_FILENAME_LEN := by
  obtain ⟨i, hi, -, rfl, -, -⟩ := entryOf_eq_some he
  exact (cstr_spec (Inode.slotName_eq_ok.mp (h.readable d hd i hi))).2

/-- A way stays among the directories that can be scanned. -/
theorem Scannable.follow (h : Scannable fs P) (hd : P d) (hw : follow fs d ms = some d') : P d' := by
  induction ms generalizing d with
  | nil =>
    obtain rfl := Option.some.inj hw
    exact hd
  | cons m ms ih =>
    obtain ⟨d1, h1, hw⟩ := Option.bind_eq_some_iff.mp hw
    obtain ⟨i, hi, hu, -, rfl, hty⟩ := entryOf_eq_some h1
    exact ih (h.closed d i hd hi hu hty) hw

/-! ### The inner loop -/

/-- **The inner loop** of the walkers finds the first entry. -/
theorem findEntry_eq (h : Scannable fs P) (hd : P d) :
    findEntry fs d name ty = .ok (indexOf (entryOf fs d name ty)) := by
  rw [findEntry, inodeAt_eq (h.lt d hd), ok_bind]
  rw [scanDir_eq (p := fun i => (fs.inode d).nameAt i = name && (fs.inode (fs.target d i)).type = ty)
    (f := fun i => (fs.target d i : ℤ)) (h.readable d hd) (h.counted d hd)]
  · rw [entryOf]
    cases (List.range NR_DIRDATA).find? fun i => (fs.inode d).Used i &&
      ((fs.inode d).nameAt i = name && (fs.inode (fs.target d i)).type = ty) <;> rfl
  · intro i hi hu
    have hlt : fs.target d i < NR_INODE := h.target d i hd hi hu
    by_cases hname : (fs.inode d).nameAt i = name
    · rw [if_pos (strcmp_eq_zero.mpr hname), show (((fs.inode d).slotNo i).toNat : ℤ) =
        (fs.target d i : ℤ) from rfl, inodeAt_eq hlt, ok_bind, intOf_slotNo hlt]
      by_cases hty : (fs.inode (fs.target d i)).type = ty
      · simp [hname, hty]
      · simp [hname, hty]
    · rw [if_neg (mt strcmp_eq_zero.mp hname)]
      simp [hname]

/-- Slot `j` of directory `d` is the first with this name whose inode has type `ty`, and the inner loop
comes to it: it can read the slots before, and looks at more slots in use than there are before. -/
structure FoundAt (fs : FileSystem) (d : ℕ) (name : List UInt8) (ty : UInt32) (j : ℕ) : Prop where
  lt : j < NR_DIRDATA
  reached : (fs.inode d).usedBelow j < (fs.inode d).filenum.toNat
  named : (fs.inode d).slotName j = .ok name
  nameNe : name ≠ []
  target_lt : fs.target d j < NR_INODE
  type : (fs.inode (fs.target d j)).type = ty
  before : ∀ l < j, ∃ t, (fs.inode d).slotName l = .ok t ∧
    (t = name → fs.target d l < NR_INODE ∧ (fs.inode (fs.target d l)).type ≠ ty)

/-- What the body of the inner loop does with a slot. -/
theorem findEntry_body {j : ℕ} {s : List UInt8} {q : Bool × ℤ} :
    (if strcmp s name = 0 then do
        let di ← fs.inodeAt ((fs.inode d).slotNo j).toNat
        .ok (if di.type = ty then (true, intOf ((fs.inode d).slotNo j)) else (false, -1))
      else .ok (false, -1) : Except Stop (Bool × ℤ)) = .ok q ↔
      q = (true, (fs.target d j : ℤ)) ∧ s = name ∧ fs.target d j < NR_INODE ∧
          (fs.inode (fs.target d j)).type = ty ∨
        q = (false, -1) ∧ (s = name → fs.target d j < NR_INODE ∧ (fs.inode (fs.target d j)).type ≠ ty) := by
  have hno : (((fs.inode d).slotNo j).toNat : ℤ) = (fs.target d j : ℤ) := rfl
  by_cases hname : s = name
  · rw [if_pos (strcmp_eq_zero.mpr hname), hno]
    by_cases hlt : fs.target d j < NR_INODE
    · rw [inodeAt_eq hlt, ok_bind, intOf_slotNo hlt]
      by_cases hty : (fs.inode (fs.target d j)).type = ty
      · simp [hname, hlt, hty, eq_comm]
      · simp [hname, hlt, hty, eq_comm]
    · refine iff_of_false ?_ (by simp [hname, hlt])
      intro h
      obtain ⟨di, hdi, -⟩ := bind_eq_ok.mp h
      obtain ⟨x, hx, hxe, -⟩ := inodeAt_inv hdi
      omega
  · rw [if_neg (mt strcmp_eq_zero.mp hname)]
    simp [hname, eq_comm]

/-- **The inner loop** in any directory. -/
theorem findEntry_eq_iff {v : ℤ} : findEntry fs d name ty = .ok v ∧ v ≠ -1 ↔
    d < NR_INODE ∧ ∃ j, FoundAt fs d name ty j ∧ v = fs.target d j := by
  constructor
  · rintro ⟨h, hv⟩
    obtain ⟨dir, hdir, hscan⟩ := bind_eq_ok.mp h
    obtain ⟨x, hd, hx, rfl⟩ := inodeAt_inv hdir
    obtain rfl : d = x := by exact_mod_cast hx
    refine ⟨hd, ?_⟩
    rcases scanDir_stopped (fun j s q hq => (findEntry_body.mp hq).symm.imp And.left fun h => by rw [h.1])
      hscan with rfl | ⟨j, -, hj, hcont, hbefore, t, hne, ht, hat⟩
    · exact absurd rfl hv
    · obtain ⟨heq, rfl, hlt, hty⟩ := (findEntry_body.mp hat).resolve_right (by simp)
      refine ⟨j, ⟨by rwa [Nat.zero_add] at hj, by simpa using hcont, ht, hne, hlt, hty, ?_⟩,
        (Prod.mk.inj heq).2⟩
      intro l hl
      obtain ⟨u, hu, hpass⟩ := hbefore l (Nat.zero_le l) hl
      refine ⟨u, hu, fun hut => ?_⟩
      have hb := hpass.resolve_left (hut ▸ hne)
      exact ((findEntry_body.mp hb).resolve_left (by simp)).2 hut
  · rintro ⟨hd, j, h, rfl⟩
    refine ⟨?_, by omega⟩
    rw [findEntry, inodeAt_eq hd, ok_bind]
    refine scanDir_stops (Nat.zero_le j) (by rw [Nat.zero_add]; exact h.lt) (by simpa using h.reached) ?_ ?_
    · intro l _ hl
      obtain ⟨t, ht, hpass⟩ := h.before l hl
      exact ⟨t, ht, .inr (findEntry_body.mpr (.inr ⟨rfl, hpass⟩))⟩
    · exact ⟨name, h.nameNe, h.named, findEntry_body.mpr (.inl ⟨rfl, rfl, h.target_lt, h.type⟩)⟩

/-- In any directory, what the inner loop finds is an entry of an inode of the type. -/
theorem findEntry_inv {v : ℤ} (h : findEntry fs d name ty = .ok v) (hv : v ≠ -1) :
    d < NR_INODE ∧ ∃ i < NR_DIRDATA, (fs.inode d).slotName i = .ok name ∧ name ≠ [] ∧
      fs.target d i < NR_INODE ∧ v = fs.target d i ∧ (fs.inode (fs.target d i)).type = ty := by
  obtain ⟨hd, j, hj, hvj⟩ := findEntry_eq_iff.mp ⟨h, hv⟩
  exact ⟨hd, j, hj.lt, hj.named, hj.nameNe, hj.target_lt, hvj, hj.type⟩

/-! ### The outer loop -/

/-- A path has no more pieces than characters. -/
theorem length_pieces_le : (pieces p).length ≤ p.length := by
  have hlen : ∀ l : List (List UInt8), (∀ q ∈ l, q ≠ []) → l.length ≤ l.flatten.length := by
    intro l
    induction l with
    | nil => simp
    | cons q l ih =>
      intro h
      have hq := List.length_pos_of_ne_nil (h q (by simp))
      have hl := ih fun q hq => h q (List.mem_cons_of_mem _ hq)
      rw [List.length_cons, List.flatten_cons, List.length_append]
      omega
  have h := hlen (pieces p) fun q hq => ne_nil_of_mem_pieces hq
  rwa [flatten_pieces] at h

/-- The walkers' fuel is enough for all pieces but the last. -/
theorem length_lt_of_pieces (h : pieces p = ms ++ [q]) : ms.length < p.length := by
  have hle := length_pieces_le (p := p)
  rw [h, List.length_append, List.length_singleton] at hle
  omega

/-- The inner loop leads from directory `d` along these names to directory `e`. -/
def Leads (fs : FileSystem) : ℕ → List (List UInt8) → ℕ → Prop
  | d, [], e => d = e
  | d, m :: ms, e => ∃ d' : ℕ, findEntry fs d m DIR = .ok (d' : ℤ) ∧ Leads fs d' ms e

/-- A way ends with its last step. -/
theorem leads_concat {e : ℕ} : Leads fs d (ms ++ [q]) e ↔
    ∃ u : ℕ, Leads fs d ms u ∧ findEntry fs u q DIR = .ok (e : ℤ) := by
  induction ms generalizing d with
  | nil =>
    constructor
    · rintro ⟨e', h, rfl⟩
      exact ⟨d, rfl, h⟩
    · rintro ⟨u, rfl, h⟩
      exact ⟨e, h, rfl⟩
  | cons m ms ih =>
    constructor
    · rintro ⟨d1, h1, h⟩
      obtain ⟨u, hu, h⟩ := ih.mp h
      exact ⟨u, ⟨d1, h1, hu⟩, h⟩
    · rintro ⟨u, ⟨d1, h1, hu⟩, h⟩
      exact ⟨d1, h1, ih.mpr ⟨u, hu, h⟩⟩

/-- In directories that can be scanned the reference walk is such a way. -/
theorem leads_of_follow (h : Scannable fs P) (hd : P d) (hw : follow fs d ms = some d') :
    Leads fs d ms d' := by
  induction ms generalizing d with
  | nil => exact Option.some.inj hw
  | cons m ms ih =>
    obtain ⟨d1, h1, hw⟩ := Option.bind_eq_some_iff.mp hw
    obtain ⟨i, hi, hu, -, rfl, hty⟩ := entryOf_eq_some h1
    refine ⟨_, ?_, ih (h.closed d i hd hi hu hty) hw⟩
    rw [findEntry_eq h hd, h1, indexOf]

/-- On the last level the walk ends. -/
theorem walkDirs_end {strict : Bool} {n : ℕ} {v : ℤ} (h : slash ∉ p.dropLast) :
    walkDirs fs strict n p v g = .ok (v, p, g) := by
  have hlast := lastLevel_iff_not_mem.mpr h
  cases n with
  | zero => exact if_pos hlast
  | succ n => exact if_pos hlast

/-- Before it, the walk goes from directory to directory. -/
theorem walkDirs_step (fs : FileSystem) (strict : Bool) (n : ℕ) (v : ℤ) (g : PathBuf)
    (hq : DirName q) (hr : r ≠ []) (h0 : 0 ∉ q) (hlen : q.length < MAX_FILENAME_LEN) :
    ∃ g', walkDirs fs strict (n + 1) (q ++ r) v g = findEntry fs v q DIR >>= fun index =>
      assert (¬(strict = true ∧ index = -1)) >>= fun _ => walkDirs fs strict n r index g' := by
  obtain ⟨g', htop, hname, hadv⟩ := getTopDir_eq (g := g) (r := r) hq h0 hlen
  refine ⟨g', ?_⟩
  rw [walkDirs, lastLevel_append hq hr, if_neg (by simp), htop, ok_bind, hname, ok_bind, hadv, ok_bind]

/-- A name that does not fit runs over its buffer. -/
theorem walkDirs_runsOver {strict : Bool} {n : ℕ} {v : ℤ} (hq : DirName q) (hr : r ≠ [])
    (hlen : MAX_FILENAME_LEN ≤ q.length) :
    walkDirs fs strict (n + 1) (q ++ r) v g = .error (.wild .name) := by
  rw [walkDirs, lastLevel_append hq hr, if_neg (by simp)]
  obtain ⟨w, hw, rfl⟩ := hq
  rw [List.length_append, List.length_singleton] at hlen
  rw [getTopDir, List.append_assoc, List.singleton_append, getTopDirLoop_error hw (by omega), error_bind]

/-- The walkers begin behind the first slash. -/
theorem walkFromRoot_step (fs : FileSystem) (strict : Bool) (r : List UInt8) (g : PathBuf)
    (hq : DirName q) (h0 : 0 ∉ q) (hlen : q.length < MAX_FILENAME_LEN) :
    ∃ g', walkFromRoot fs strict (q ++ r) g = walkDirs fs strict r.length r 0 g' := by
  obtain ⟨g', htop, hname, hadv⟩ := getTopDir_eq (g := g) (r := r) hq h0 hlen
  refine ⟨g', ?_⟩
  rw [walkFromRoot, htop, ok_bind, hname, ok_bind, hadv, ok_bind]

/-- On an absolute path that is the first character. -/
theorem walkFromRoot_absolute (fs : FileSystem) (strict : Bool) (r : List UInt8) (g : PathBuf) :
    ∃ g', walkFromRoot fs strict ([slash] ++ r) g = walkDirs fs strict r.length r 0 g' :=
  walkFromRoot_step fs strict r g ⟨[], by simp, rfl⟩ (by decide) (by decide)

/-- **The outer loop** of the walkers goes along the pieces before the last one. -/
theorem walkDirs_of_leads (strict : Bool) {n : ℕ} (hr : pieces r = ms ++ [q]) (h0 : 0 ∉ r)
    (hlen : ∀ m ∈ ms, m.length < MAX_FILENAME_LEN) (hn : ms.length ≤ n) (hw : Leads fs d ms d') :
    ∃ g', walkDirs fs strict n r d g = .ok (d', q, g') := by
  induction ms generalizing r d n g with
  | nil =>
    obtain rfl : d = d' := hw
    obtain ⟨rfl, hno⟩ := pieces_eq_singleton hr
    exact ⟨g, walkDirs_end hno⟩
  | cons m ms ih =>
    obtain ⟨d1, h1, hw⟩ := hw
    obtain ⟨n, rfl⟩ : ∃ n', n = n' + 1 := ⟨n - 1, by simp only [List.length_cons] at hn; omega⟩
    obtain ⟨r', hm, hr', rfl, hms⟩ := pieces_eq_cons hr (by simp)
    obtain ⟨h0m, h0r⟩ : 0 ∉ m ∧ 0 ∉ r' := by simpa using h0
    obtain ⟨hlenm, hlen⟩ := List.forall_mem_cons.mp hlen
    obtain ⟨g1, hstep⟩ := walkDirs_step fs strict n d g hm hr'
      h0m hlenm
    obtain ⟨g', hrest⟩ := ih (g := g1) hms h0r hlen (by simpa using hn) hw
    have hassert : ¬(strict = true ∧ (d1 : ℤ) = -1) := by
      rintro ⟨-, hx⟩
      omega
    exact ⟨g', by rw [hstep, h1, ok_bind, assert, if_pos hassert, ok_bind, hrest]⟩

/-- Names along which the reference walk goes fit into the buffer. -/
theorem length_lt_of_follow (h : Scannable fs P) (hd : P d) (hw : follow fs d ms = some d') :
    ∀ m ∈ ms, m.length < MAX_FILENAME_LEN := by
  induction ms generalizing d with
  | nil => simp
  | cons m ms ih =>
    obtain ⟨d1, h1, hw⟩ := Option.bind_eq_some_iff.mp hw
    obtain ⟨i, hi, hu, -, rfl, hty⟩ := entryOf_eq_some h1
    exact List.forall_mem_cons.mpr ⟨h.length_lt hd h1, ih (h.closed d i hd hi hu hty) hw⟩

/-- An absolute path with more than the leading slash. -/
theorem absolute_cases (hp : p.head? = some slash) (hne : p ≠ [slash]) :
    ∃ r, r ≠ [] ∧ p = [slash] ++ r ∧ pieces p = [slash] :: pieces r := by
  cases p with
  | nil => cases hp
  | cons c r =>
    obtain rfl := Option.some.inj hp
    exact ⟨r, by rintro rfl; exact hne rfl, rfl, by simp [pieces]⟩

/-- It is cut into the leading slash, its directories and the last piece. -/
theorem pieces_absolute (hp : p.head? = some slash) (hne : p ≠ [slash]) :
    ∃ r, p = [slash] ++ r ∧ pieces r = mids p ++ [lastPiece p] := by
  obtain ⟨r, hr, rfl, hpieces⟩ := absolute_cases hp hne
  have hnil : pieces r ≠ [] := mt pieces_eq_nil.mp hr
  refine ⟨r, rfl, ?_⟩
  rw [mids, lastPiece, hpieces, List.tail_cons, List.getLast?_cons_of_ne_nil hnil,
    List.getLast?_eq_some_getLast hnil, Option.getD_some, List.dropLast_append_getLast hnil]

/-- The pieces of an absolute path: the slash, those in the middle, the last one. -/
theorem pieces_eq (hp : p.head? = some slash) (hne : p ≠ [slash]) :
    pieces p = ([slash] :: mids p) ++ [lastPiece p] := by
  obtain ⟨r, rfl, hsplit⟩ := pieces_absolute hp hne
  have hdir : DirName [slash] := ⟨[], by simp, rfl⟩
  rw [pieces_dirName_append hdir, hsplit]
  rfl

/-- The name that `makeFL` gives the file is the last piece of the path. -/
theorem getLastLevelName_absolute (hp : p.head? = some slash) (hne : p ≠ [slash]) :
    getLastLevelName p = lastPiece p ∧ lastPiece p ≠ [] ∧ lastPiece p ∈ pieces p := by
  have hall := pieces_eq hp hne
  have hmem : lastPiece p ∈ pieces p := by
    rw [hall]
    simp
  exact ⟨getLastLevelName_pieces hall, ne_nil_of_mem_pieces hmem, hmem⟩

/-- What the walkers do before they look at the last piece. -/
theorem walkFromRoot_of_leads (strict : Bool) (hp : p.head? = some slash) (hne : p ≠ [slash])
    (h0 : 0 ∉ p) (hlen : ∀ m ∈ mids p, m.length < MAX_FILENAME_LEN) (hw : Leads fs 0 (mids p) d) :
    ∃ g', walkFromRoot fs strict p g = .ok (d, lastPiece p, g') := by
  obtain ⟨r, rfl, hsplit⟩ := pieces_absolute hp hne
  have h0r : 0 ∉ r := fun hm => h0 (List.mem_append_right _ hm)
  obtain ⟨g1, hstep⟩ := walkFromRoot_absolute fs strict r g
  obtain ⟨g', hwalk⟩ := walkDirs_of_leads (g := g1) strict hsplit h0r hlen
    (length_lt_of_pieces hsplit).le hw
  exact ⟨g', hstep.trans hwalk⟩

/-- **A path that leads somewhere** is walked to its last piece. -/
theorem walkFromRoot_eq (strict : Bool) (h : Scannable fs P) (hroot : P 0)
    (hp : p.head? = some slash) (hne : p ≠ [slash]) (h0 : 0 ∉ p)
    (hw : follow fs 0 (mids p) = some d) :
    ∃ g', walkFromRoot fs strict p g = .ok (d, lastPiece p, g') :=
  walkFromRoot_of_leads strict hp hne h0 (length_lt_of_follow h hroot hw) (leads_of_follow h hroot hw)

/-! ### The three resolvers -/

/-- **`findUpperDirPos`** is the directory that the walk ends in. -/
theorem findUpperDirPos_eq (h : Scannable fs P) (hroot : P 0) (hp : p.head? = some slash)
    (hne : p ≠ [slash]) (h0 : 0 ∉ p) (hw : follow fs 0 (mids p) = some d) (g : PathBuf) :
    ∃ g', findUpperDirPos fs p g = .ok ((d : ℤ), g') := by
  obtain ⟨g', hwalk⟩ := walkFromRoot_eq (g := g) false h hroot hp hne h0 hw
  refine ⟨g', ?_⟩
  rw [findUpperDirPos, if_neg (mt strcmp_eq_zero.mp hne), hwalk, ok_bind]

/-- **`findCurrentDirPos`** is the directory of that name in it. -/
theorem findCurrentDirPos_eq (h : Scannable fs P) (hroot : P 0) (hp : p.head? = some slash)
    (hne : p ≠ [slash]) (h0 : 0 ∉ p) (hw : follow fs 0 (mids p) = some d) (g : PathBuf) :
    ∃ g', findCurrentDirPos fs p g = .ok (indexOf (entryOf fs d (lastPiece p) DIR), g') := by
  obtain ⟨g', hwalk⟩ := walkFromRoot_eq (g := g) true h hroot hp hne h0 hw
  refine ⟨g', ?_⟩
  rw [findCurrentDirPos, if_neg (mt strcmp_eq_zero.mp hne), hwalk, ok_bind,
    findEntry_eq h (h.follow hroot hw), ok_bind]

/-- **`findCurrentFLPos`** is the file of that name in it. -/
theorem findCurrentFLPos_eq (h : Scannable fs P) (hroot : P 0) (hp : p.head? = some slash)
    (hne : p ≠ [slash]) (h0 : 0 ∉ p) (hw : follow fs 0 (mids p) = some d) (g : PathBuf) :
    ∃ g', findCurrentFLPos fs p g = .ok (indexOf (entryOf fs d (lastPiece p) FL), g') := by
  obtain ⟨g', hwalk⟩ := walkFromRoot_eq (g := g) true h hroot hp hne h0 hw
  refine ⟨g', ?_⟩
  rw [findCurrentFLPos, hwalk, ok_bind, findEntry_eq h (h.follow hroot hw), ok_bind]

/-- In any file system, what `findCurrentFLPos` finds is an entry of a file. -/
theorem findCurrentFLPos_inv {v : ℤ} {g' : PathBuf} (h : findCurrentFLPos fs p g = .ok (v, g'))
    (hv : v ≠ -1) : ∃ d < NR_INODE, ∃ i < NR_DIRDATA, ∃ name ≠ [], (fs.inode d).slotName i = .ok name ∧
      fs.target d i < NR_INODE ∧ v = fs.target d i ∧ (fs.inode (fs.target d i)).type = FL := by
  obtain ⟨r, -, h⟩ := bind_eq_ok.mp h
  obtain ⟨index, hindex, h⟩ := bind_eq_ok.mp h
  obtain ⟨rfl, -⟩ := Prod.mk.inj (Except.ok.inj h)
  obtain ⟨dir, hdir, -⟩ := bind_eq_ok.mp hindex
  obtain ⟨d, -, hd, -⟩ := inodeAt_inv hdir
  rw [hd] at hindex
  obtain ⟨hlt, i, hi, hname, hne, hrest⟩ := findEntry_inv hindex hv
  exact ⟨d, hlt, i, hi, r.2.1, hne, hname, hrest⟩

/-- The file system as the resolvers need it: in the root and in every directory `filenum` is the
number of slots in use, the names end in their 28 bytes, and the entries name inodes. -/
structure Resolvable (fs : FileSystem) : Prop where
  readable : ∀ d < NR_INODE, d = 0 ∨ (fs.inode d).type = DIR → (fs.inode d).Readable
  counted : ∀ d < NR_INODE, d = 0 ∨ (fs.inode d).type = DIR → (fs.inode d).Counted
  target : ∀ d < NR_INODE, d = 0 ∨ (fs.inode d).type = DIR →
    ∀ i < NR_DIRDATA, (fs.inode d).Used i → fs.target d i < NR_INODE

/-- The directories of such a file system can be scanned. -/
theorem Resolvable.scannable (h : Resolvable fs) :
    Scannable fs fun d => d < NR_INODE ∧ (d = 0 ∨ (fs.inode d).type = DIR) where
  lt _ hd := hd.1
  readable d hd := h.readable d hd.1 hd.2
  counted d hd := h.counted d hd.1 hd.2
  target d i hd hi hu := h.target d hd.1 hd.2 i hi hu
  closed d i hd hi hu hty := ⟨h.target d hd.1 hd.2 i hi hu, .inr hty⟩

/-- **The resolvers agree** with the reference walk, for every path whose directories exist. -/
theorem resolvers_agree (h : Resolvable fs) (hp : p.head? = some slash) (hne : p ≠ [slash])
    (h0 : 0 ∉ p) (hw : follow fs 0 (mids p) = some d) (g : PathBuf) :
    (∃ g', findUpperDirPos fs p g = .ok ((d : ℤ), g')) ∧
      (∃ g', findCurrentDirPos fs p g = .ok (indexOf (entryOf fs d (lastPiece p) DIR), g')) ∧
      ∃ g', findCurrentFLPos fs p g = .ok (indexOf (entryOf fs d (lastPiece p) FL), g') := by
  have hroot : (0 : ℕ) < NR_INODE ∧ (0 = 0 ∨ (fs.inode 0).type = DIR) := ⟨by decide, .inl rfl⟩
  exact ⟨findUpperDirPos_eq h.scannable hroot hp hne h0 hw g,
    findCurrentDirPos_eq h.scannable hroot hp hne h0 hw g,
    findCurrentFLPos_eq h.scannable hroot hp hne h0 hw g⟩

/-- A formatted file system is resolvable. -/
theorem blank_resolvable : Resolvable Image.blank.fs := by
  have hroot : ∀ d, d = 0 ∨ (Image.blank.fs.inode d).type = DIR → d = 0 := by
    rintro d (h | h)
    · exact h
    · by_contra hd
      rw [blank_other hd] at h
      exact absurd h (by decide)
  refine ⟨?_, ?_, ?_⟩
  · intro d _ hd
    obtain rfl := hroot d hd
    exact blank_readable
  · intro d _ hd
    obtain rfl := hroot d hd
    exact blank_counted
  · intro d _ hd i _ _
    obtain rfl := hroot d hd
    rw [FileSystem.target, blank_slotNo]
    decide

/-- The root has a free slot and then an entry `d/`, which is a directory with a file `b`. -/
def treeFs : FileSystem :=
  let fs := installed (linked Image.blank.fs 0 3 1 [100, slash]) 1
    (newDir (Image.blank.fs.inode 1) [100, slash] 1 0)
  installed (linked fs 1 2 2 [98]) 2 (newFile (fs.inode 2) [98])

/-- The nested file system is resolvable. -/
theorem treeFs_resolvable : Resolvable treeFs := by
  have hdirs : ∀ d < NR_INODE, d = 0 ∨ (treeFs.inode d).type = DIR → d = 0 ∨ d = 1 := by decide
  have hbare : (Image.blank.fs.inode 1).Bare := by
    intro j _ _ hu
    rw [blank_other (by decide)] at hu
    exact hu rfl
  have hused0 : ∀ i, (treeFs.inode 0).Used i → i = 3 ∨ i = 1 ∨ i = 0 := fun i hu =>
    ((Inode.used_entry (by decide) (by decide) i).mp hu).imp_right blank_used.mp
  have hused1 : ∀ i < NR_DIRDATA, (treeFs.inode 1).Used i → i = 2 ∨ i = 0 ∨ i = 1 := fun i hi hu =>
    ((Inode.used_entry (by decide) (by decide) i).mp hu).imp_right (hbare.used_newDir hi)
  refine ⟨?_, ?_, ?_⟩
  · intro d hd hdir
    rcases hdirs d hd hdir with rfl | rfl
    · exact blank_readable.entry (by decide) (by decide)
    · exact hbare.readable_newDir.entry (by decide) (by decide)
  · intro d hd hdir
    rcases hdirs d hd hdir with rfl | rfl
    · exact blank_counted.entry (by decide) (by decide) (by decide) fun hu => by simp [blank_used] at hu
    · refine (counted_newDir hbare).entry (by decide) (by decide) (by decide) fun hu => ?_
      have := hbare.used_newDir (by decide) hu
      omega
  · intro d hd hdir i hi hu
    rcases hdirs d hd hdir with rfl | rfl
    · rcases hused0 i hu with rfl | rfl | rfl <;> decide
    · rcases hused1 i hi hu with rfl | rfl | rfl <;> decide

/-- The file is found behind the free slot, and is no directory. -/
theorem resolvers_agree_nested :
    (∃ g', findUpperDirPos treeFs [slash, 100, slash, 98] ⟨0, fun _ => 0⟩ = .ok (1, g')) ∧
      (∃ g', findCurrentDirPos treeFs [slash, 100, slash, 98] ⟨0, fun _ => 0⟩ = .ok (-1, g')) ∧
      ∃ g', findCurrentFLPos treeFs [slash, 100, slash, 98] ⟨0, fun _ => 0⟩ = .ok (2, g') := by
  have hw : follow treeFs 0 (mids [slash, 100, slash, 98]) = some 1 := by decide +kernel
  have hdir : entryOf treeFs 1 (lastPiece [slash, 100, slash, 98]) DIR = none := by decide +kernel
  have hfl : entryOf treeFs 1 (lastPiece [slash, 100, slash, 98]) FL = some 2 := by decide +kernel
  have h := resolvers_agree treeFs_resolvable (by decide) (by decide) (by decide) hw ⟨0, fun _ => 0⟩
  rw [hdir, hfl] at h
  exact h

/-- A path of one name begins in the root. -/
theorem blank_findUpperDirPos {v : ℤ} {g' : PathBuf} (hp : p.head? = some slash) (hne : p ≠ [slash])
    (h0 : 0 ∉ p) (hm : mids p = []) (h : findUpperDirPos Image.blank.fs p g = .ok (v, g')) : v = 0 := by
  obtain ⟨g1, h1⟩ := findUpperDirPos_eq blank_resolvable.scannable (d := 0) ⟨by decide, .inl rfl⟩ hp hne h0
    (by rw [hm]; rfl) g
  exact (Prod.mk.inj (Except.ok.inj (h.symm.trans h1))).1

end OsLab
