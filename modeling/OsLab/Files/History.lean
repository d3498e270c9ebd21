import OsLab.Files.Walks
import Mathlib.Data.Nat.Find

/-!
# Lookups and the calls before them

The walkers hand the length of a piece and its text on in `path_offset` and `top_dir`. `getTopDir`
writes both when it finds a slash, and leaves `path_offset` alone when there is none: a walker then
skips as many characters as the call before it has left there.

* `answer_of_slash`: on a path with a slash the globals do not matter.
* `answer_of_noSlash`: on one without, the walker takes `path_offset` as it is. Every offset that fits
  into the buffer can be there (`exists_offset`).
* **`historyFree_iff`**: lookups of a path are free of their history iff it has a slash, or fills
  `top_dir` up to its last byte and no name in the root is a tail of it.
* **`relative_path_history`**: those of the path `a` are not.
-/

namespace OsLab

open OsLab.Lib

variable {fs : FileSystem} {p q r s w name : List UInt8} {ty : UInt32} {g g' : PathBuf} {v : ℤ}
  {i n : ℕ} {x : Stop}

/-! ### Lookups in a row -/

/-- The three walkers. -/
inductive Walker
  | upperDir
  | currentDir
  | currentFL
  deriving DecidableEq

/-- What a walker computes. -/
def Walker.find (fs : FileSystem) : Walker → List UInt8 → PathBuf → Except Stop (ℤ × PathBuf)
  | upperDir => findUpperDirPos fs
  | currentDir => findCurrentDirPos fs
  | currentFL => findCurrentFLPos fs

/-- A missing directory fails an assertion. -/
def Walker.strict : Walker → Bool
  | upperDir => false
  | currentDir | currentFL => true

/-- What it does in the directory that it gets to. -/
def Walker.last (fs : FileSystem) : Walker → ℤ → List UInt8 → Except Stop ℤ
  | upperDir, upper, _ => .ok upper
  | currentDir, upper, name => findEntry fs upper name DIR
  | currentFL, upper, name => findEntry fs upper name FL

/-- Its result without the globals that it leaves. -/
def Walker.answer (fs : FileSystem) (f : Walker) (p : List UInt8) (g : PathBuf) : Except Stop ℤ :=
  (f.find fs p g).map Prod.fst

/-- One lookup, for what it leaves in the globals. -/
def lookup (fs : FileSystem) (g : PathBuf) (e : Walker × List UInt8) : Except Stop PathBuf :=
  (e.1.find fs e.2 g).map Prod.snd

/-- The globals after these lookups, from their initial values on. -/
def History (fs : FileSystem) (es : List (Walker × List UInt8)) (g : PathBuf) : Prop :=
  Reaches (lookup fs) (fun _ e => 0 ∉ e.2) ⟨0, fun _ => 0⟩ es g

/-- Lookups of the path have the same result after any two histories, and none moves a pointer past
the end of the path. -/
def HistoryFree (fs : FileSystem) (p : List UInt8) : Prop :=
  ∀ (es es' : List (Walker × List UInt8)) (g g' : PathBuf), History fs es g → History fs es' g' →
    ∀ f : Walker, f.answer fs p g = f.answer fs p g' ∧ f.answer fs p g ≠ .error (.wild .pointer)

/-- A search of the root for this name, for a directory or a file, ends at a slot with it: the slot is
reached, and its inode has one of the two types or is not in the table. -/
def InRoot (fs : FileSystem) (name : List UInt8) : Prop :=
  ∃ j < NR_DIRDATA, (fs.inode 0).usedBelow j < (fs.inode 0).filenum.toNat ∧
    (∀ l < j, ∃ t, (fs.inode 0).slotName l = .ok t) ∧ (fs.inode 0).slotName j = .ok name ∧
    (fs.target 0 j < NR_INODE →
      (fs.inode (fs.target 0 j)).type = DIR ∨ (fs.inode (fs.target 0 j)).type = FL)

/-! ### Searches that find nothing -/

/-- The root directory is inode 0. -/
theorem inodeAt_root : fs.inodeAt 0 = .ok (fs.inode 0) := inodeAt_eq (by decide : 0 < NR_INODE)

/-- The inner loop moves no pointer. -/
theorem findEntry_ne_pointer : findEntry fs v name ty ≠ .error (.wild .pointer) := by
  intro h
  have hinode : ∀ {u : ℤ}, fs.inodeAt u ≠ .error (.wild .pointer) := by
    intro u
    unfold FileSystem.inodeAt
    split_ifs <;> simp
  rcases bind_eq_error.mp h with hdir | ⟨dir, -, hscan⟩
  · exact hinode hdir
  · rcases scanDir_error hscan with hx | ⟨j, -, -, hj⟩ | ⟨j, s, a, -, hb⟩
    · cases hx
    · cases Inode.slotName_eq_error hj
    · split_ifs at hb
      rcases bind_eq_error.mp hb with hb | ⟨d, -, hb⟩
      · exact hinode hb
      · cases hb

/-- The empty name is not found, and its search looks at no other inode. -/
theorem findEntry_nil : (∀ u ≠ -1, findEntry fs 0 [] ty ≠ .ok u) ∧
    findEntry fs 0 [] ty ≠ .error (.wild .inode) := by
  constructor
  · intro u hu h
    obtain ⟨-, j, hj, -⟩ := findEntry_eq_iff (d := 0).mp ⟨h, hu⟩
    exact hj.nameNe rfl
  · intro h
    rw [findEntry, inodeAt_root, ok_bind] at h
    rcases scanDir_error h with hx | ⟨j, -, -, hj⟩ | ⟨j, s, a, hne, hb⟩
    · cases hx
    · cases Inode.slotName_eq_error hj
    · rw [if_neg (mt strcmp_eq_zero.mp hne)] at hb
      cases hb

/-- **A name that is not in the root** is searched for like the empty one. -/
theorem findEntry_of_not_inRoot (h : ¬InRoot fs name) (hty : ty = DIR ∨ ty = FL) :
    findEntry fs 0 name ty = findEntry fs 0 [] ty := by
  rw [findEntry, findEntry, inodeAt_root, ok_bind, ok_bind]
  have hpass : ∀ m : List UInt8, m = name ∨ m = [] → ∀ (j : ℕ) (s : List UInt8), 0 ≤ j →
      j < 0 + NR_DIRDATA →
      0 + (fs.inode 0).usedBelow j < (fs.inode 0).filenum.toNat + (fs.inode 0).usedBelow 0 →
      (∀ l, 0 ≤ l → l < j → ∃ t, (fs.inode 0).slotName l = .ok t) →
      (fs.inode 0).slotName j = .ok s → s ≠ [] →
      (if strcmp s m = 0 then do
          let di ← fs.inodeAt ((fs.inode 0).slotNo j).toNat
          .ok (if di.type = ty then (true, intOf ((fs.inode 0).slotNo j)) else (false, -1))
        else .ok (false, -1) : Except Stop (Bool × ℤ)) = .ok (false, -1) := by
    intro m hm j s _ hj hreach hbefore hs hne
    refine findEntry_body.mpr (.inr ⟨rfl, ?_⟩)
    rintro rfl
    obtain rfl := hm.resolve_right hne
    by_contra hno
    refine h ⟨j, by rwa [Nat.zero_add] at hj, by simpa using hreach,
      fun l hl => hbefore l (Nat.zero_le l) hl, hs, fun hlt => ?_⟩
    have hsame : (fs.inode (fs.target 0 j)).type = ty := by_contra fun hx => hno ⟨hlt, hx⟩
    rcases hty with rfl | rfl
    · exact .inl hsame
    · exact .inr hsame
  exact (scanDir_passes (hpass name (.inl rfl))).trans (scanDir_passes (hpass [] (.inr rfl))).symm

/-- **A name in the root** is searched for in another way, for one of the types. -/
theorem findEntry_of_inRoot (h : InRoot fs name) (hne : name ≠ []) :
    ¬∀ ty, ty = DIR ∨ ty = FL → findEntry fs 0 name ty = findEntry fs 0 [] ty := by
  intro hall
  classical
  -- the first slot at which the search for one of the types ends
  obtain ⟨⟨hj, hreach, hread, hname, hat⟩, hmin⟩ := (⟨Nat.find_spec h, fun _ => Nat.find_min h⟩ :
    _ ∧ ∀ l < Nat.find h, ¬_)
  generalize Nat.find h = j at hj hreach hread hname hat hmin
  have hbefore : ∀ ty, ty = DIR ∨ ty = FL → ∀ l < j, ∃ t, (fs.inode 0).slotName l = .ok t ∧
      (t = name → fs.target 0 l < NR_INODE ∧ (fs.inode (fs.target 0 l)).type ≠ ty) := by
    intro ty hty l hl
    obtain ⟨t, ht⟩ := hread l hl
    refine ⟨t, ht, ?_⟩
    rintro rfl
    by_contra hno
    refine hmin l hl ⟨by omega, lt_of_le_of_lt (Inode.usedBelow_mono (Nat.le_of_lt hl)) hreach,
      fun l' hl' => hread l' (by omega), ht, fun hlt => ?_⟩
    have hsame : (fs.inode (fs.target 0 l)).type = ty := by_contra fun hx => hno ⟨hlt, hx⟩
    rcases hty with rfl | rfl
    · exact .inl hsame
    · exact .inr hsame
  by_cases hlt : fs.target 0 j < NR_INODE
  · obtain ⟨ty, hty, hsame⟩ : ∃ ty, (ty = DIR ∨ ty = FL) ∧ (fs.inode (fs.target 0 j)).type = ty :=
      ⟨_, hat hlt, rfl⟩
    obtain ⟨hfind, hv⟩ := findEntry_eq_iff.mpr
      ⟨by decide, j, ⟨hj, hreach, hname, hne, hlt, hsame, hbefore ty hty⟩, rfl⟩
    exact findEntry_nil.1 _ hv ((hall ty hty).symm.trans hfind)
  · refine findEntry_nil.2 ((hall DIR (.inl rfl)).symm.trans ?_)
    rw [findEntry, inodeAt_root, ok_bind]
    refine scanDir_stops (Nat.zero_le j) (by rw [Nat.zero_add]; exact hj) (by simpa using hreach) ?_ ?_
    · intro l _ hl
      obtain ⟨t, ht, hpass⟩ := hbefore DIR (.inl rfl) l hl
      exact ⟨t, ht, .inr (findEntry_body.mpr (.inr ⟨rfl, hpass⟩))⟩
    · refine ⟨name, hne, hname, ?_⟩
      have hmiss : fs.inodeAt ((fs.inode 0).slotNo j).toNat = .error (.wild .inode) := by
        rw [FileSystem.inodeAt, if_neg]
        rintro ⟨-, hx⟩
        exact hlt (by exact_mod_cast hx)
      rw [if_pos (strcmp_eq_zero.mpr rfl), hmiss, error_bind]
      rfl

/-! ### Cutting, with any globals -/

/-- The globals as lookups leave them: an offset that fits, and a NUL at the end of `top_dir`. -/
structure PathBuf.Sane (g : PathBuf) : Prop where
  offset : g.pathOffset < MAX_FILENAME_LEN
  ends : g.topDir 27 = 0

/-- A path without a slash is copied to the front of `top_dir`, if it fits. -/
theorem getTopDirLoop_copies (hp : slash ∉ p) (hlen : i + p.length ≤ MAX_FILENAME_LEN) :
    ∃ t, getTopDirLoop i g p = .ok ⟨g.pathOffset, t⟩ ∧ (∀ a, i ≤ a → a < i + p.length → t a ∈ p) ∧
      ∀ a, a < i ∨ i + p.length ≤ a → t a = g.topDir a := by
  induction p generalizing i g with
  | nil => exact ⟨g.topDir, rfl, fun a h1 h2 => by simp at h2; omega, fun _ _ => rfl⟩
  | cons c p ih =>
    obtain ⟨hc, hp⟩ : slash ≠ c ∧ slash ∉ p := by simpa using hp
    rw [List.length_cons] at hlen ⊢
    obtain ⟨t, hloop, hin, hout⟩ := ih (i := i + 1)
      (g := { g with topDir := Function.update g.topDir i c }) hp (by omega)
    refine ⟨t, ?_, ?_, ?_⟩
    · rw [getTopDirLoop, if_pos (by omega)]
      dsimp only
      rw [if_neg hc.symm]
      exact hloop
    · intro a h1 h2
      rcases Nat.eq_or_lt_of_le h1 with rfl | h1
      · rw [hout i (by omega)]
        simp
      · exact List.mem_cons_of_mem _ (hin a h1 (by omega))
    · intro a ha
      rw [hout a (by omega)]
      exact Function.update_of_ne (by omega) _ _

/-- A longer one runs over it. -/
theorem getTopDirLoop_runsOver (hp : slash ∉ p) (hi : i ≤ MAX_FILENAME_LEN)
    (hlen : MAX_FILENAME_LEN < i + p.length) : getTopDirLoop i g p = .error (.wild .name) := by
  induction p generalizing i g with
  | nil =>
    rw [List.length_nil] at hlen
    omega
  | cons c p ih =>
    obtain ⟨hc, hp⟩ : slash ≠ c ∧ slash ∉ p := by simpa using hp
    rw [List.length_cons] at hlen
    rw [getTopDirLoop]
    by_cases h1 : i < MAX_FILENAME_LEN
    · rw [if_pos h1]
      dsimp only
      rw [if_neg hc.symm]
      exact ih hp h1 (by omega)
    · exact if_neg h1

/-- **Cutting a piece off** leaves the globals as they have to be. -/
theorem PathBuf.Sane.cut (hg : g.Sane) (h0 : 0 ∉ p) (htop : getTopDir p g = .ok g')
    (hname : topDirName g' = .ok s) : g'.Sane := by
  have hsize : MAX_FILENAME_LEN = 28 := rfl
  by_cases hslash : slash ∈ p
  · obtain ⟨w, r, rfl, hw⟩ := List.eq_append_cons_of_mem hslash
    have hlen : (w ++ [slash]).length < MAX_FILENAME_LEN := by
      have htop' : getTopDir (w ++ [slash] ++ r) g = .ok g' := by
        rw [← htop]
        simp
      exact length_lt_of_getTopDir ⟨w, hw, rfl⟩ htop'
    rw [List.length_append, List.length_singleton] at hlen
    rw [getTopDir, getTopDirLoop_eq hw (by rwa [Nat.zero_add]), Nat.zero_add] at htop
    obtain rfl := Except.ok.inj htop
    refine ⟨hlen, ?_⟩
    rcases Nat.lt_or_ge (w.length + 1) 27 with hlt | hge
    · exact (strcpy_of_outside (.inr (by simpa using hlt))).trans hg.ends
    · -- the NUL behind the slash is the last byte
      have hend : strcpy g.topDir 0 (w ++ [slash]) (0 + (w ++ [slash]).length) = 0 := strcpy_end
      rwa [show 0 + (w ++ [slash]).length = 27 by simp; omega] at hend
  · rcases Nat.lt_or_ge MAX_FILENAME_LEN p.length with hlt | hge
    · rw [getTopDir, getTopDirLoop_runsOver hslash (Nat.zero_le _) (by omega)] at htop
      cases htop
    · obtain ⟨t, hloop, hin, hout⟩ := getTopDirLoop_copies (i := 0) (g := g) hslash (by omega)
      obtain rfl := Except.ok.inj (hloop.symm.trans htop)
      refine ⟨hg.offset, ?_⟩
      rw [← hg.ends]
      refine hout 27 (.inr ?_)
      by_contra hlong
      -- all 28 bytes are characters of the path
      have hsome : cstr t 0 MAX_FILENAME_LEN ≠ none := by
        intro hnone
        rw [topDirName, hnone] at hname
        cases hname
      obtain ⟨a, -, ha, hz⟩ := cstr_ne_none.mp hsome
      exact h0 (hz ▸ hin a (Nat.zero_le a) (by omega))

/-- What is left of a path has no NUL in it. -/
theorem zero_not_mem_advance (h0 : 0 ∉ p) (h : advance p g = .ok r) : 0 ∉ r := by
  unfold advance at h
  split_ifs at h
  obtain rfl := Except.ok.inj h
  exact fun hm => h0 (List.mem_of_mem_drop hm)

/-- A walk leaves them so. -/
theorem PathBuf.Sane.walkDirs {strict : Bool} {t : ℤ × List UInt8 × PathBuf} (hg : g.Sane)
    (h0 : 0 ∉ p) (h : walkDirs fs strict n p v g = .ok t) : t.2.2.Sane := by
  induction n generalizing p v g with
  | zero =>
    rw [OsLab.walkDirs] at h
    split_ifs at h
    obtain rfl := Except.ok.inj h
    exact hg
  | succ n ih =>
    rw [OsLab.walkDirs] at h
    split_ifs at h
    · obtain rfl := Except.ok.inj h
      exact hg
    · obtain ⟨g1, htop, h⟩ := bind_eq_ok.mp h
      obtain ⟨dir, hname, h⟩ := bind_eq_ok.mp h
      obtain ⟨r, hadv, h⟩ := bind_eq_ok.mp h
      obtain ⟨index, -, h⟩ := bind_eq_ok.mp h
      obtain ⟨-, -, h⟩ := bind_eq_ok.mp h
      exact ih (hg.cut h0 htop hname) (zero_not_mem_advance h0 hadv) h

/-- A walk leaves the globals in order. -/
theorem PathBuf.Sane.walkFromRoot {strict : Bool} {t : ℤ × List UInt8 × PathBuf} (hg : g.Sane)
    (h0 : 0 ∉ p) (h : walkFromRoot fs strict p g = .ok t) : t.2.2.Sane := by
  obtain ⟨g1, htop, h⟩ := bind_eq_ok.mp h
  obtain ⟨dir, hname, h⟩ := bind_eq_ok.mp h
  obtain ⟨r, hadv, h⟩ := bind_eq_ok.mp h
  exact (hg.cut h0 htop hname).walkDirs (zero_not_mem_advance h0 hadv) h

/-! ### The walkers in one form -/

/-- A walker walks from the root, unless it is asked for the directory of the path `/`. -/
theorem find_eq {f : Walker} (hp : p ≠ [slash] ∨ f = .currentFL) :
    f.find fs p g = walkFromRoot fs f.strict p g >>= fun t =>
      f.last fs t.1 t.2.1 >>= fun u => .ok (u, t.2.2) := by
  cases f with
  | upperDir => exact if_neg (mt strcmp_eq_zero.mp (hp.resolve_right (by simp)))
  | currentDir => exact if_neg (mt strcmp_eq_zero.mp (hp.resolve_right (by simp)))
  | currentFL => rfl

/-- Every walker answers the path of the root with inode 0. -/
theorem find_root {f : Walker} (hf : f ≠ .currentFL) : f.find fs [slash] g = .ok (0, g) := by
  cases f with
  | upperDir => rfl
  | currentDir => rfl
  | currentFL => exact absurd rfl hf

/-- An answer is a walk and the lookup of the last piece. -/
theorem answer_eq {f : Walker} (hp : p ≠ [slash] ∨ f = .currentFL) :
    f.answer fs p g = walkFromRoot fs f.strict p g >>= fun t => f.last fs t.1 t.2.1 := by
  rw [Walker.answer, find_eq hp]
  cases walkFromRoot fs f.strict p g with
  | error e => rfl
  | ok t =>
    rw [ok_bind, ok_bind]
    cases f.last fs t.1 t.2.1 with
    | error e => rfl
    | ok u => rfl

/-- The lookup of the last piece uses no pointer. -/
theorem last_ne_pointer {f : Walker} : f.last fs v name ≠ .error (.wild .pointer) := by
  cases f with
  | upperDir => simp [Walker.last]
  | currentDir => exact findEntry_ne_pointer
  | currentFL => exact findEntry_ne_pointer

/-- **Lookups leave the globals** with an offset that fits into the buffer. -/
theorem History.sane {es : List (Walker × List UInt8)} (h : History fs es g) : g.Sane := by
  refine Reaches.invariant (P := fun _ g => g.Sane) h ⟨by decide, rfl⟩ ?_
  rintro - g g' ⟨f, p⟩ - hg h0 hstep
  obtain ⟨t, ht, rfl⟩ : ∃ t, f.find fs p g = .ok t ∧ t.2 = g' := by
    unfold lookup at hstep
    cases hfind : f.find fs p g with
    | error e =>
      rw [hfind] at hstep
      cases hstep
    | ok t =>
      rw [hfind] at hstep
      exact ⟨t, rfl, Except.ok.inj hstep⟩
  by_cases hp : p ≠ [slash] ∨ f = .currentFL
  · rw [find_eq hp] at ht
    obtain ⟨w, hwalk, ht⟩ := bind_eq_ok.mp ht
    obtain ⟨u, -, ht⟩ := bind_eq_ok.mp ht
    obtain rfl := Except.ok.inj ht
    exact hg.walkFromRoot h0 hwalk
  · obtain ⟨hp, hf⟩ := not_or.mp hp
    obtain rfl := not_not.mp hp
    rw [find_root hf] at ht
    obtain rfl := Except.ok.inj ht
    exact hg

/-! ### Paths with a slash -/

/-- Two walks end at the same place, or in the same way but for a pointer past the end of the path. -/
def SameWalk (x y : Except Stop (ℤ × List UInt8 × PathBuf)) : Prop :=
  (∃ u r g g', x = .ok (u, r, g) ∧ y = .ok (u, r, g')) ∨
    ∃ e ≠ .wild .pointer, x = .error e ∧ y = .error e

/-- A walk is the same with other globals, if all pieces fit. -/
theorem walkDirs_same {strict : Bool} (h0 : 0 ∉ p) (hlen : ∀ q ∈ pieces p, q.length < MAX_FILENAME_LEN) :
    SameWalk (walkDirs fs strict n p v g) (walkDirs fs strict n p v g') := by
  induction n generalizing p v g g' with
  | zero =>
    rw [walkDirs, walkDirs]
    split_ifs
    · exact .inl ⟨v, p, g, g', rfl, rfl⟩
    · exact .inr ⟨.hang, by simp, rfl, rfl⟩
  | succ n ih =>
    by_cases hno : slash ∈ p.dropLast
    · have hne : p ≠ [] := by
        rintro rfl
        cases hno
      obtain ⟨q, r, hq, hr, rfl, hp⟩ := (pieces_cases hne).resolve_left fun hx => hx.2 hno
      obtain ⟨h0q, h0r⟩ : 0 ∉ q ∧ 0 ∉ r := by simpa using h0
      obtain ⟨hlenq, hlenr⟩ := List.forall_mem_cons.mp (hp ▸ hlen)
      obtain ⟨g1, hstep⟩ := walkDirs_step fs strict n v g hq hr
        h0q hlenq
      obtain ⟨g2, hstep'⟩ := walkDirs_step fs strict n v g' hq
        hr h0q hlenq
      rw [hstep, hstep']
      cases hindex : findEntry fs v q DIR with
      | error e =>
        refine .inr ⟨e, ?_, rfl, rfl⟩
        rintro rfl
        exact findEntry_ne_pointer hindex
      | ok index =>
        rw [ok_bind, ok_bind, assert]
        split_ifs
        · exact .inr ⟨.abort, by simp, rfl, rfl⟩
        · exact ih h0r hlenr
    · rw [walkDirs_end hno, walkDirs_end hno]
      exact .inl ⟨v, p, g, g', rfl, rfl⟩

/-- So is the walk from the root. -/
theorem walkFromRoot_same (fs : FileSystem) (strict : Bool) (g g' : PathBuf) (hs : slash ∈ p)
    (h0 : 0 ∉ p) (hlen : ∀ q ∈ pieces p, q.length < MAX_FILENAME_LEN) :
    SameWalk (walkFromRoot fs strict p g) (walkFromRoot fs strict p g') := by
  obtain ⟨w, r, hsplit, hw⟩ := List.eq_append_cons_of_mem hs
  obtain rfl : p = (w ++ [slash]) ++ r := by simpa using hsplit
  have hq : DirName (w ++ [slash]) := ⟨w, hw, rfl⟩
  obtain ⟨h0q, h0r⟩ : 0 ∉ w ++ [slash] ∧ 0 ∉ r := by rwa [List.mem_append, not_or] at h0
  obtain ⟨hlenq, hlenr⟩ := List.forall_mem_cons.mp (pieces_dirName_append hq ▸ hlen)
  obtain ⟨g1, hstep⟩ := walkFromRoot_step fs strict r g hq h0q hlenq
  obtain ⟨g2, hstep'⟩ := walkFromRoot_step fs strict r g' hq h0q hlenq
  rw [hstep, hstep']
  exact walkDirs_same h0r hlenr

/-- **On a path with a slash** the globals do not matter. -/
theorem answer_of_slash {f : Walker} (hs : slash ∈ p) (h0 : 0 ∉ p)
    (hlen : ∀ q ∈ pieces p, q.length < MAX_FILENAME_LEN) (g g' : PathBuf) :
    f.answer fs p g = f.answer fs p g' ∧ f.answer fs p g ≠ .error (.wild .pointer) := by
  by_cases hp : p ≠ [slash] ∨ f = .currentFL
  · rw [answer_eq hp, answer_eq hp]
    rcases walkFromRoot_same fs f.strict g g' hs h0 hlen with
      ⟨u, r, g1, g2, hx, hy⟩ | ⟨e, he, hx, hy⟩
    · rw [hx, hy]
      exact ⟨rfl, last_ne_pointer⟩
    · rw [hx, hy]
      refine ⟨rfl, ?_⟩
      rw [error_bind]
      intro heq
      exact he (Except.error.inj heq)
  · obtain ⟨hp, hf⟩ := not_or.mp hp
    obtain rfl := not_not.mp hp
    rw [Walker.answer, Walker.answer, find_root hf, find_root hf]
    exact ⟨rfl, by simp [Except.map]⟩

/-! ### Paths without one -/

/-- **On a path without a slash** a walker steps over as many characters as the offset says. -/
theorem answer_of_noSlash {f : Walker} (hs : slash ∉ p) (hlen : p.length < MAX_FILENAME_LEN)
    (hg : g.Sane) : f.answer fs p g =
      if g.pathOffset ≤ p.length then f.last fs 0 (p.drop g.pathOffset) else .error (.wild .pointer) := by
  have hsize : MAX_FILENAME_LEN = 28 := rfl
  have hne : p ≠ [slash] := by
    rintro rfl
    simp at hs
  obtain ⟨t, hloop, -, hout⟩ := getTopDirLoop_copies (i := 0) (g := g) hs (by omega)
  have hread : cstr t 0 MAX_FILENAME_LEN ≠ none :=
    cstr_ne_none.mpr ⟨27, by omega, by omega, (hout 27 (.inr (by omega))).trans hg.ends⟩
  obtain ⟨dir, hdir⟩ := Option.ne_none_iff_exists'.mp hread
  have htop : getTopDir p g = .ok ⟨g.pathOffset, t⟩ := hloop
  have hname : topDirName ⟨g.pathOffset, t⟩ = .ok dir := by
    unfold topDirName
    rw [hdir]
  rw [answer_eq (.inl hne), walkFromRoot, htop, ok_bind, hname, ok_bind, advance]
  split_ifs with hoff
  · have hend : slash ∉ (p.drop g.pathOffset).dropLast := fun hm =>
      hs (List.mem_of_mem_drop (List.mem_of_mem_dropLast hm))
    rw [ok_bind, walkDirs_end hend, ok_bind]
  · rfl

/-- Every offset that fits into the buffer can be there. -/
theorem exists_offset (fs : FileSystem) (o : ℕ) (ho : o < MAX_FILENAME_LEN) :
    ∃ es g, History fs es g ∧ g.pathOffset = o := by
  cases o with
  | zero => exact ⟨[], _, .nil, rfl⟩
  | succ o =>
    -- a lookup in a directory with a name of `o` characters
    have hw : slash ∉ List.replicate o (97 : UInt8) := by
      rw [List.mem_replicate]
      rintro ⟨-, hx⟩
      cases hx
    have hlen : (List.replicate o (97 : UInt8)).length = o := List.length_replicate
    have h0 : 0 ∉ List.replicate o (97 : UInt8) ++ [slash] := by
      rw [List.mem_append, List.mem_replicate]
      rintro (⟨-, hx⟩ | hx)
      · cases hx
      · exact absurd hx (by decide)
    obtain ⟨g, htop, hname, hadv⟩ := getTopDir_eq (g := ⟨0, fun _ => 0⟩) (r := [slash])
      ⟨List.replicate o 97, hw, rfl⟩ h0 (by rw [List.length_append, hlen, List.length_singleton]; exact ho)
    have hoff : g.pathOffset = o + 1 := by
      have hloop : getTopDir (List.replicate o 97 ++ slash :: [slash]) ⟨0, fun _ => 0⟩ = _ :=
        getTopDirLoop_eq hw (by rw [hlen]; omega)
      rw [List.append_assoc] at htop
      obtain rfl := Except.ok.inj (htop.symm.trans hloop)
      rw [hlen, Nat.zero_add]
    have hne : List.replicate o (97 : UInt8) ++ [slash] ++ [slash] ≠ [slash] := by
      intro h
      have := congrArg List.length h
      simp at this
    refine ⟨[(.upperDir, List.replicate o 97 ++ [slash] ++ [slash])], g, Reaches.snoc .nil ?_ ?_, hoff⟩
    · rw [List.mem_append, not_or]
      exact ⟨h0, by decide⟩
    · rw [lookup, find_eq (.inl hne), walkFromRoot, htop, ok_bind, hname, ok_bind, hadv, ok_bind]
      rfl

/-! ### Freedom from history -/

/-- Without a slash, every offset has to lie on the path, also the largest one there can be. -/
theorem HistoryFree.full (h : HistoryFree fs p) (hs : slash ∉ p) (hfits : p.length < MAX_FILENAME_LEN) :
    p.length + 1 = MAX_FILENAME_LEN := by
  by_contra hshort
  obtain ⟨es, g, hg, hoff⟩ := exists_offset fs (p.length + 1) (by omega)
  have hfree := (h es es g g hg hg .upperDir).2
  rw [answer_of_noSlash hs hfits hg.sane, if_neg (by omega)] at hfree
  exact hfree rfl

/-- The offset of the end of the path and one before it have to make no difference. -/
theorem HistoryFree.not_inRoot (h : HistoryFree fs p) (hs : slash ∉ p)
    (hfits : p.length < MAX_FILENAME_LEN) {o : ℕ} (ho : o < p.length) : ¬InRoot fs (p.drop o) := by
  intro hin
  obtain ⟨es, g, hg, hoff⟩ := exists_offset fs o (by omega)
  obtain ⟨es', g', hg', hoff'⟩ := exists_offset fs p.length hfits
  have hsame : ∀ f : Walker, f.last fs 0 (p.drop o) = f.last fs 0 [] := by
    intro f
    have heq := (h es es' g g' hg hg' f).1
    rwa [answer_of_noSlash hs hfits hg.sane, answer_of_noSlash hs hfits hg'.sane,
      if_pos (by omega), if_pos (by omega), hoff, hoff', List.drop_length] at heq
  apply findEntry_of_inRoot hin
  · rw [Ne, List.drop_eq_nil_iff]
    omega
  · rintro ty (rfl | rfl)
    · exact hsame .currentDir
    · exact hsame .currentFL

/-- Each walker is left with an empty name then, or with one that is not in the root. -/
theorem answer_of_full {f : Walker} (hs : slash ∉ p) (hfull : p.length + 1 = MAX_FILENAME_LEN)
    (hno : ∀ o < p.length, ¬InRoot fs (p.drop o)) (hg : g.Sane) : f.answer fs p g = f.last fs 0 [] := by
  have hsize : MAX_FILENAME_LEN = 28 := rfl
  have hoff := hg.offset
  rw [answer_of_noSlash hs (by omega) hg, if_pos (by omega)]
  rcases Nat.eq_or_lt_of_le (show g.pathOffset ≤ p.length by omega) with heq | hlt
  · rw [heq, List.drop_length]
  · cases f with
    | upperDir => rfl
    | currentDir => exact findEntry_of_not_inRoot (hno _ hlt) (.inl rfl)
    | currentFL => exact findEntry_of_not_inRoot (hno _ hlt) (.inr rfl)

/-- **Lookups of a path are free of their history** iff it has a slash, or fills `top_dir` up to its
last byte and no name in the root is a tail of it. -/
theorem historyFree_iff (h0 : 0 ∉ p) (hlen : ∀ q ∈ pieces p, q.length < MAX_FILENAME_LEN) :
    HistoryFree fs p ↔
      slash ∈ p ∨ p.length + 1 = MAX_FILENAME_LEN ∧ ∀ o < p.length, ¬InRoot fs (p.drop o) := by
  by_cases hs : slash ∈ p
  · exact iff_of_true (fun es es' g g' _ _ f => answer_of_slash hs h0 hlen g g') (.inl hs)
  rw [or_iff_right hs]
  have hfits : p.length < MAX_FILENAME_LEN := by
    by_cases hne : p = []
    · rw [hne]
      decide
    · refine hlen p ?_
      rw [pieces_singleton (fun hm => hs (List.mem_of_mem_dropLast hm)) hne]
      exact List.mem_singleton_self p
  constructor
  · exact fun h => ⟨h.full hs hfits, fun o ho => h.not_inRoot hs hfits ho⟩
  · rintro ⟨hfull, hno⟩ es es' g g' hg hg' f
    rw [answer_of_full hs hfull hno hg.sane, answer_of_full hs hfull hno hg'.sane]
    exact ⟨rfl, last_ne_pointer⟩

/-- A relative path of one letter. -/
theorem historyFree_iff_relative : HistoryFree Image.blank.fs [97] ↔
    slash ∈ [97] ∨ [(97 : UInt8)].length + 1 = MAX_FILENAME_LEN ∧
      ∀ o < [(97 : UInt8)].length, ¬InRoot Image.blank.fs ([97].drop o) :=
  historyFree_iff (by decide) (by decide)

/-- **A relative path** is looked up from where the call before has left the offset. -/
theorem relative_path_history : ¬∀ (fs : FileSystem) (p : List UInt8), 0 ∉ p →
    (∀ q ∈ pieces p, q.length < MAX_FILENAME_LEN) → HistoryFree fs p := by
  intro h
  obtain ⟨es, g, hg, hoff⟩ := exists_offset Image.blank.fs 2 (by decide)
  have hfree := (h Image.blank.fs [97] (by decide) (by decide) es es g g hg hg .upperDir).2
  rw [answer_of_noSlash (by decide) (by decide) hg.sane, if_neg (by rw [hoff]; decide)] at hfree
  exact hfree rfl

end OsLab
