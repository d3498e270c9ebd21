import OsLab.Files.Access
import OsLab.Files.Accounting
import OsLab.Files.BadDescriptors
import OsLab.Files.Walks

/-!
# Paths that lead nowhere

`ls_aux`, `cat_aux`, `rmFL` and `open_aux` use what a walker returns without a look at it, and two of
the walkers stop at an `assert` on the way. `makeDir` looks: a path without a parent leaves the file
system as it is.

* `BadPath`: the call looks for something under a path that is not there.
* `RefusedCleanly`: the call returns and leaves the file tables and the file system alone.
* **`bad_path_not_refused`**: no call on a bad path is refused, in any file system; in a well-formed
  one it ends at the assertion if a directory on the way is missing, and at `fs_inodepointer[-1]` or
  `inode_map[-1]` if only the last piece is.
-/

namespace OsLab

open OsLab.Lib

variable {k k' : Kernel} {fs : FileSystem} {c : Syscall} {p : List UInt8} {a : ℕ} {g g' : PathBuf}
  {P : ℕ → Prop}

/-! ### What is missing -/

/-- A directory on the way is missing, or the last piece is not there with this type. -/
def Lacks (fs : FileSystem) (p : List UInt8) (ty : UInt32) : Prop :=
  follow fs 0 (mids p) = none ∨
    ∃ d, follow fs 0 (mids p) = some d ∧ entryOf fs d (lastPiece p) ty = none

/-- The address of the path of a call that looks something up. -/
def Syscall.path : Syscall → Option ℕ
  | .ls a | .cat a | .remove a | .openPath a _ => some a
  | _ => none

/-- What the call needs is missing: `open_aux` makes the last piece itself. -/
def Syscall.misses (fs : FileSystem) (p : List UInt8) : Syscall → Prop
  | .ls _ => Lacks fs p DIR
  | .cat _ | .remove _ => Lacks fs p FL
  | .openPath _ _ => follow fs 0 (mids p) = none
  | _ => False

/-- The call is on the absolute path `p`, and what it needs is missing. -/
structure BadPath (k : Kernel) (c : Syscall) (p : List UInt8) : Prop where
  path : ∃ a, c.path = some a ∧ cstring k a = .ok p
  absolute : p.head? = some slash
  ne : p ≠ [slash]
  misses : c.misses k.fs p

/-- The call returns, and nothing about files has changed. -/
def RefusedCleanly (k : Kernel) (c : Syscall) : Prop :=
  ∃ k', step k (.sys c) = .ok k' ∧ SameFiles k k'

/-! ### No call returns -/

/-- What is there is not missing. -/
theorem not_lacks {d d' : ℕ} {ty : UInt32} (h : follow fs 0 (mids p) = some d)
    (he : entryOf fs d (lastPiece p) ty = some d') : ¬Lacks fs p ty := by
  rintro (hno | ⟨x, hx, hno⟩)
  · rw [h] at hno
    cases hno
  · obtain rfl := Option.some.inj (h.symm.trans hx)
    rw [he] at hno
    cases hno

/-- An index into the inode table is not -1. -/
theorem ne_of_inodeAt {v : ℤ} {di : Inode} (h : fs.inodeAt v = .ok di) : v ≠ -1 := by
  obtain ⟨x, -, rfl, -⟩ := inodeAt_inv h
  omega

/-- **A call that returns** has found what it needs. -/
theorem BadPath.not_ok (h : BadPath k c p) (hk : doSyscall k c = .ok k') : False := by
  obtain ⟨a, ha, hstr⟩ := h.path
  have h0 := zero_not_mem_cstring hstr
  have hmiss := h.misses
  cases c with
  | ls b =>
    obtain rfl := Option.some.inj ha
    simp only [doSyscall, lsAux, hstr, ok_bind, bind_eq_ok] at hk
    obtain ⟨⟨v, g'⟩, hfind, di, hdi, -⟩ := hk
    obtain ⟨d, d', hfollow, hentry⟩ :=
      entryOf_of_findCurrentDirPos h.absolute h.ne h0 hfind (ne_of_inodeAt hdi)
    exact not_lacks hfollow hentry hmiss
  | cat b =>
    obtain rfl := Option.some.inj ha
    simp only [doSyscall, catAux, hstr, ok_bind, bind_eq_ok] at hk
    obtain ⟨⟨v, g'⟩, hfind, di, hdi, -⟩ := hk
    obtain ⟨d, hfollow, hfound⟩ := entryOf_of_findCurrentFLPos h.absolute h.ne h0 hfind
    obtain ⟨d', hentry, -⟩ := hfound (ne_of_inodeAt hdi)
    exact not_lacks hfollow hentry hmiss
  | remove b =>
    obtain rfl := Option.some.inj ha
    simp only [doSyscall, removeAux, hstr, ok_bind, bind_eq_ok] at hk
    obtain ⟨⟨fs', g'⟩, hrm, -⟩ := hk
    obtain ⟨x, -, g1, -, -, hfind, -⟩ := rmFL_inv hrm
    obtain ⟨d, hfollow, hfound⟩ := entryOf_of_findCurrentFLPos h.absolute h.ne h0 hfind
    obtain ⟨d', hentry, -⟩ := hfound (by omega)
    exact not_lacks hfollow hentry hmiss
  | openPath b flags =>
    obtain rfl := Option.some.inj ha
    simp only [doSyscall, openAux, hstr, ok_bind, openLookup, isFLExist, bind_eq_ok] at hk
    obtain ⟨-, ⟨-, ⟨⟨v, g'⟩, hfind, -⟩, -⟩, -⟩ := hk
    obtain ⟨d, hfollow, -⟩ := entryOf_of_findCurrentFLPos h.absolute h.ne h0 hfind
    have hnone : follow k.fs 0 (mids p) = none := hmiss
    rw [hnone] at hfollow
    cases hfollow
  | _ => exact hmiss

/-! ### Where the calls end -/

/-- There is no inode at -1. -/
theorem inodeAt_none : fs.inodeAt (-1) = .error (.wild .inode) := rfl

/-- The search of `rmFL` for a file that was not found ends at the inode with index -1, or finds
nothing. -/
theorem findSlot_none {d : ℕ} (hd : d < NR_INODE) (hread : (fs.inode d).Readable)
    (hcount : (fs.inode d).Counted) :
    findSlot fs d (-1) = .error (.wild .inode) ∨ findSlot fs d (-1) = .ok none := by
  obtain ⟨body, hbody, heq⟩ : ∃ body : ℕ → List UInt8 → Option ℕ → Except Stop (Bool × Option ℕ),
      (∀ i s slot, body i s slot = .error (.wild .inode)) ∧
        findSlot fs d (-1) = scanDir (fs.inode d) body NR_DIRDATA 0 0 none :=
    ⟨_, fun _ _ _ => rfl, by rw [findSlot, inodeAt_eq hd, ok_bind]; rfl⟩
  rw [heq]
  cases hscan : scanDir (fs.inode d) body NR_DIRDATA 0 0 none with
  | ok r =>
    right
    have hnever : ∀ (j : ℕ) (s : List UInt8) (q : Bool × Option ℕ), body j s none = .ok q →
        q = (false, none) ∧ ¬False ∨ q = (true, none) ∧ False := fun j s q hq => by
      rw [hbody] at hq
      cases hq
    rcases scanDir_first hnever hscan with rfl | ⟨j, s, -, -, -, -, hno, -⟩
    · rfl
    · exact hno.elim
  | error x =>
    left
    rcases scanDir_error hscan with rfl | ⟨j, -, hj, hx⟩ | ⟨j, s, slot, -, hx⟩
    · refine absurd hscan (hcount.scan (fun i s slot => ?_) _)
      rw [hbody]
      simp [Inside]
    · rw [hread j (by rwa [Nat.zero_add] at hj)] at hx
      cases hx
    · rw [hbody] at hx
      exact congrArg _ (Except.error.inj hx).symm

/-- **A missing directory** ends the strict walk at its assertion; a missing last piece comes back
as -1. -/
theorem walk_of_lacks {ty : UInt32} (h : Scannable fs P) (hroot : P 0) (hp : p.head? = some slash)
    (hne : p ≠ [slash]) (h0 : 0 ∉ p) (hlen : ∀ m ∈ mids p, m.length < MAX_FILENAME_LEN)
    (hmiss : Lacks fs p ty) (g : PathBuf) :
    follow fs 0 (mids p) = none ∧ walkFromRoot fs true p g = .error .abort ∨
      ∃ (d : ℕ) (g' : PathBuf), follow fs 0 (mids p) = some d ∧ P d ∧
        walkFromRoot fs true p g = .ok (d, lastPiece p, g') ∧
        findEntry fs d (lastPiece p) ty = .ok (-1) := by
  rcases hmiss with hno | ⟨d, hfollow, hno⟩
  · exact .inl ⟨hno, walkFromRoot_abort h hroot hp hne h0 hlen hno⟩
  · right
    obtain ⟨g', hwalk⟩ := walkFromRoot_eq (g := g) true h hroot hp hne h0 hfollow
    have hd := h.follow hroot hfollow
    refine ⟨d, g', hfollow, hd, hwalk, ?_⟩
    rw [findEntry_eq h hd, hno]
    rfl

/-- **Where a call on a bad path ends**, in a well-formed file system. -/
theorem BadPath.stop (h : BadPath k c p) (hs : Scannable k.fs P) (hroot : P 0)
    (hlen : ∀ m ∈ mids p, m.length < MAX_FILENAME_LEN) :
    doSyscall k c = .error (if follow k.fs 0 (mids p) = none then .abort else .wild .inode) := by
  obtain ⟨a, ha, hstr⟩ := h.path
  have h0 := zero_not_mem_cstring hstr
  have hmiss := h.misses
  have hwalk := fun ty (hl : Lacks k.fs p ty) =>
    walk_of_lacks hs hroot h.absolute h.ne h0 hlen hl k.path
  cases c with
  | ls b =>
    obtain rfl := Option.some.inj ha
    rw [doSyscall, lsAux, hstr, ok_bind, findCurrentDirPos, if_neg (mt strcmp_eq_zero.mp h.ne)]
    rcases hwalk DIR hmiss with ⟨hno, habort⟩ | ⟨d, g', hfollow, -, hok, hnone⟩
    · rw [habort, error_bind, error_bind, if_pos hno]
    · rw [hok, ok_bind, hnone, ok_bind, ok_bind, inodeAt_none, error_bind, hfollow, if_neg (by simp)]
  | cat b =>
    obtain rfl := Option.some.inj ha
    rw [doSyscall, catAux, hstr, ok_bind, findCurrentFLPos]
    rcases hwalk FL hmiss with ⟨hno, habort⟩ | ⟨d, g', hfollow, -, hok, hnone⟩
    · rw [habort, error_bind, error_bind, if_pos hno]
    · rw [hok, ok_bind, hnone, ok_bind, ok_bind, inodeAt_none, error_bind, hfollow, if_neg (by simp)]
  | remove b =>
    obtain rfl := Option.some.inj ha
    rw [doSyscall, removeAux, hstr, ok_bind, rmFL, findCurrentFLPos]
    rcases hwalk FL hmiss with ⟨hno, habort⟩ | ⟨d, g', hfollow, hd, hok, hnone⟩
    · rw [habort, error_bind, error_bind, error_bind, if_pos hno]
    · obtain ⟨g2, hup⟩ := findUpperDirPos_eq hs hroot h.absolute h.ne h0 hfollow g'
      rw [hok, ok_bind, hnone, ok_bind, ok_bind, hup, ok_bind, hfollow, if_neg (by simp)]
      rcases findSlot_none (hs.lt d hd) (hs.readable d hd) (hs.counted d hd) with hslot | hslot
      · rw [hslot, error_bind, error_bind]
      · rw [hslot, ok_bind]
        rfl
  | openPath b flags =>
    obtain rfl := Option.some.inj ha
    have hno : follow k.fs 0 (mids p) = none := hmiss
    rcases hwalk FL (.inl hno) with ⟨-, habort⟩ | ⟨d, g', hfollow, -⟩
    · rw [doSyscall, openAux, hstr, ok_bind, openLookup, isFLExist, findCurrentFLPos, habort,
        error_bind, error_bind, error_bind, error_bind, if_pos hno]
    · rw [hno] at hfollow
      cases hfollow
  | _ => exact absurd hmiss not_false

/-- **No call on a bad path is refused**, in any file system. In a well-formed one, for components
that fit into a name, it ends at an assertion if a directory on the way is missing and outside the
inode table if the last piece is. -/
theorem bad_path_not_refused (hu : userMode k) (h : BadPath k c p) :
    ¬RefusedCleanly k c ∧
      ∀ P : ℕ → Prop, Scannable k.fs P → P 0 → (∀ m ∈ mids p, m.length < MAX_FILENAME_LEN) →
        step k (.sys c) =
          .error (if follow k.fs 0 (mids p) = none then .abort else .wild .inode) := by
  have hstep : step k (.sys c) = doSyscall k c := if_pos hu
  rw [RefusedCleanly, hstep]
  refine ⟨?_, fun P hs hroot hlen => h.stop hs hroot hlen⟩
  rintro ⟨k', hk, -⟩
  exact h.not_ok hk

/-- A process asks for the file `/a` of an empty file system. -/
theorem badPath_missingFile :
    ∃ k, runFrom .withPath (.replicate 10 .timer) = .ok k ∧ userMode k ∧ k.fs = Image.blank.fs ∧
      BadPath k (.cat 0x200300) [slash, 97] := by
  have hrun : okAnd (boot .withPath) (fun k0 => okAnd (run step k0 (.replicate 10 .timer)) fun k =>
      decide (userMode k) && okAnd (cstring k 0x200300) (· = [slash, 97])) = true := by
    decide +kernel
  obtain ⟨k0, hb, hp⟩ := okAnd_eq_true.mp hrun
  obtain ⟨k, hk, hp⟩ := okAnd_eq_true.mp hp
  simp only [Bool.and_eq_true, decide_eq_true_eq] at hp
  obtain ⟨hu, hstr⟩ := hp
  obtain ⟨str, hstr, heq⟩ := okAnd_eq_true.mp hstr
  obtain rfl : str = [slash, 97] := of_decide_eq_true heq
  have hfs : k.fs = Image.blank.fs := by
    rw [(sameFiles_run hb hk fun e he => by rw [List.eq_of_mem_replicate he]; rfl).fs, fs_boot hb]
    rfl
  refine ⟨k, by rw [runFrom, hb, ok_bind, hk], hu, hfs, ⟨_, rfl, hstr⟩, rfl, by decide, ?_⟩
  rw [hfs]
  exact .inr ⟨0, rfl, by decide +kernel⟩

/-- `cat` of a path that does not exist stops the kernel. -/
theorem bad_path_not_refused_cat :
    ∃ k, runFrom .withPath (.replicate 10 .timer) = .ok k ∧ ¬RefusedCleanly k (.cat 0x200300) ∧
      step k (.sys (.cat 0x200300)) = .error (.wild .inode) := by
  obtain ⟨k, hk, hu, hfs, hbad⟩ := badPath_missingFile
  obtain ⟨hno, hstop⟩ := bad_path_not_refused hu hbad
  have hres : Resolvable k.fs := by
    rw [hfs]
    exact blank_resolvable
  refine ⟨k, hk, hno, hstop _ hres.scannable ⟨by decide, .inl rfl⟩ ?_⟩
  intro m hm
  cases hm

/-- **A missing file** is not refused: `cat_aux` reads the inode with index -1. -/
theorem missing_file_wild :
    ¬∀ (k : Kernel) (c : Syscall) (p : List UInt8), Resolvable k.fs → userMode k →
      (∀ q ∈ pieces p, q.length < MAX_FILENAME_LEN) → BadPath k c p → RefusedCleanly k c := by
  intro hall
  obtain ⟨k, -, hu, hfs, hbad⟩ := badPath_missingFile
  obtain ⟨k', hk, -⟩ := hall k _ _ (by rw [hfs]; exact blank_resolvable) hu (by decide) hbad
  rw [step, if_pos hu] at hk
  exact hbad.not_ok hk

end OsLab
