import OsLab.Files.Access
import OsLab.Files.OpenFiles

/-!
# Positions outside a file

The position of an open file is whatever `lseek` has made of it, and the length of a transfer is an
`int` of the user. `readF` compares every position with the size of the file, as unsigned numbers,
so that it stays inside a file of at most 32768 bytes wherever it starts (`readF_ok`). `writeF` has
one assertion, on the signed sum of position and length, and copies first and looks later.

* `WriteFits`: the assertion stops the write, or the write starts and ends inside the block.
* `bounded_iff`: a write stays inside the block and keeps the size within it exactly then; reads and
  `lseek` always do.
* **`accesses_bounded`**: so every run of calls whose writes fit keeps all files within their blocks.
* `write_before_start`: a write at position -5 passes the assertion.
-/

namespace OsLab

open OsLab.Lib

variable {k k0 : Kernel} {es : List Event} {fs : FileSystem} {d : Inode} {buf : ℕ → UInt8}
  {o len : ℤ} {i n s x : ℕ} {c : Syscall} {a : FileAccess} {fd : ℤ}

/-- A value of type `int`. -/
def isInt (x : ℤ) : Prop := -2 ^ 31 ≤ x ∧ x < 2 ^ 31

/-- Whether a number is an `int` can be computed. -/
instance (x : ℤ) : Decidable (isInt x) := inferInstanceAs (Decidable (_ ∧ _))

/-! ### The two loops at any position -/

/-- The positions of a transfer of `n` bytes from `o` on, as the loops compute them from their
index `i` on, are positions of the block. -/
def InBlock (o : ℤ) (n i : ℕ) : Prop :=
  ∀ j, i ≤ j → j < i + n → 0 ≤ i32 (j + o) ∧ i32 (j + o) < MAX_FILE_SZ_KB * 1024

/-- The loop of `writeF` ends exactly when all its positions are in the block. -/
theorem writeLoop_of_inBlock {block : ℕ → UInt8} (h : InBlock o n i) :
    ∃ b, writeLoop buf o n i block = .ok b := by
  induction n generalizing i block with
  | zero => exact ⟨block, rfl⟩
  | succ n ih =>
    rw [writeLoop, if_pos (h i le_rfl (by omega))]
    exact ih fun j h1 h2 => h j (by omega) (by omega)

/-- A write outside the block stops at its first byte. -/
theorem writeLoop_of_not_inBlock {block : ℕ → UInt8} (h : ¬InBlock o n i) :
    writeLoop buf o n i block = .error (.wild .datablock) := by
  induction n generalizing i block with
  | zero => exact absurd (fun j h1 h2 => by omega) h
  | succ n ih =>
    rw [writeLoop]
    split_ifs with hi
    · apply ih
      intro hrest
      apply h
      intro j h1 h2
      rcases Nat.eq_or_lt_of_le h1 with rfl | h1
      · exact hi
      · exact hrest j h1 (by omega)
    · rfl

/-- A position that is below the size of a file of at most 32768 bytes is in the block. -/
theorem inBlock_of_lt_filesz {y : ℤ} (hsize : d.filesz.toNat ≤ 32768) (h : wordOf y < d.filesz) :
    0 ≤ i32 y ∧ i32 y < MAX_FILE_SZ_KB * 1024 := by
  have hlt : (wordOf y).toNat < d.filesz.toNat := UInt32.lt_iff_toNat_lt.mp h
  have hword : (y % 2 ^ 32).toNat < 2 ^ 32 := by omega
  rw [wordOf, UInt32.toNat_ofNat_of_lt' hword] at hlt
  rw [maxFileSz]
  unfold i32
  omega

/-- A read of a file within its block returns. -/
theorem readLoop_ok (hsize : d.filesz.toNat ≤ 32768) : ∃ bytes, readLoop d o n i = .ok bytes := by
  induction n generalizing i with
  | zero => exact ⟨[], rfl⟩
  | succ n ih =>
    rw [readLoop]
    by_cases hlt : wordOf (i + o) < d.filesz
    · obtain ⟨rest, hrest⟩ := ih (i := i + 1)
      rw [if_pos hlt]
      dsimp only
      rw [if_pos (inBlock_of_lt_filesz hsize hlt), hrest, ok_bind]
      exact ⟨_, rfl⟩
    · exact ⟨[], if_neg hlt⟩

/-- **`readF` stays inside** a file that is no longer than its block. -/
theorem readF_ok (hx : x < NR_INODE) (hsize : (fs.inode x).filesz.toNat ≤ 32768) :
    ∃ bytes, readF fs x len o = .ok bytes := by
  rw [readF, inodeAt_eq hx]
  exact readLoop_ok hsize

/-! ### Writes that fit -/

/-- The assertion of `writeF` stops the write, or the write is of no bytes or starts inside the
block, and ends inside it. -/
def WriteFits (o len : ℤ) : Prop :=
  MAX_FILE_SZ_KB * 1024 ≤ i32 (len + o) ∨ 0 ≤ i32 (len + o) ∧ (len ≤ 0 ∨ 0 ≤ o)

/-- A write of bytes that passes the assertion stays inside the block exactly when it starts there
and the sum does not wrap. -/
theorem inBlock_iff (ho : isInt o) (hlen : isInt len) (hpos : 0 < len)
    (hassert : i32 (len + o) < MAX_FILE_SZ_KB * 1024) :
    InBlock o len.toNat 0 ↔ 0 ≤ i32 (len + o) ∧ 0 ≤ o := by
  unfold isInt at ho hlen
  rw [maxFileSz] at hassert
  constructor
  · intro h
    have hfirst := h 0 le_rfl (by omega)
    rw [maxFileSz] at hfirst
    have h0 : ((0 : ℕ) : ℤ) + o = o := by omega
    rw [h0, i32_eq_self ho.1 ho.2] at hfirst
    refine ⟨?_, hfirst.1⟩
    by_contra hneg
    -- the sum has wrapped, so that the write is longer than the block
    have hwrap : 2 ^ 31 ≤ len + o := by
      unfold i32 at hneg
      omega
    have hend := h (32768 - o).toNat (by omega) (by omega)
    have hat : ((32768 - o).toNat : ℤ) + o = 32768 := by omega
    rw [hat, maxFileSz, i32_eq_self (by omega) (by omega)] at hend
    omega
  · rintro ⟨hsum, h0⟩ j - hj
    have hle : len + o < 32768 := by
      unfold i32 at hsum hassert
      omega
    rw [maxFileSz, i32_eq_self (by omega) (by omega)]
    omega

/-- The size that `writeF` leaves. -/
def sizeAfter (d : Inode) (o len : ℤ) : UInt32 :=
  if d.filesz > wordOf (o + len) then d.filesz else wordOf (o + len)

/-- The size stays within the block exactly when the end of the write is not negative. -/
theorem sizeAfter_le (hsize : d.filesz.toNat ≤ 32768)
    (hassert : i32 (len + o) < MAX_FILE_SZ_KB * 1024) :
    (sizeAfter d o len).toNat ≤ 32768 ↔ 0 ≤ i32 (len + o) := by
  have hw : (wordOf (o + len)).toNat = ((len + o) % 2 ^ 32).toNat := by
    have hlt : ((o + len) % 2 ^ 32).toNat < 2 ^ 32 := by omega
    rw [wordOf, UInt32.toNat_ofNat_of_lt' hlt, add_comm]
  rw [maxFileSz] at hassert
  unfold sizeAfter
  split_ifs with hgt
  · have hlt := UInt32.lt_iff_toNat_lt.mp hgt
    refine iff_of_true hsize ?_
    rw [hw] at hlt
    unfold i32
    omega
  · rw [hw]
    unfold i32 at hassert ⊢
    omega

/-- **`writeF`** on a file: it stops at the assertion, leaves the block, or ends with the size that
the end of the write gives. -/
theorem writeF_cases (fs : FileSystem) (buf : ℕ → UInt8) (len o : ℤ) (hx : x < NR_INODE) :
    (MAX_FILE_SZ_KB * 1024 ≤ i32 (len + o) ∧ writeF fs x buf len o = .error .abort) ∨
      i32 (len + o) < MAX_FILE_SZ_KB * 1024 ∧
        (¬InBlock o len.toNat 0 ∧ writeF fs x buf len o = .error (.wild .datablock) ∨
          InBlock o len.toNat 0 ∧ ∃ b, writeF fs x buf len o = .ok (fs.setInode x
            { fs.inode x with block := b, size := sizeAfter (fs.inode x) o len }, len.toNat)) := by
  by_cases hassert : i32 (len + o) < MAX_FILE_SZ_KB * 1024
  · refine .inr ⟨hassert, ?_⟩
    rw [writeF, assert, if_pos hassert, ok_bind, inodeAt_eq hx, ok_bind]
    by_cases hin : InBlock o len.toNat 0
    · obtain ⟨b, hb⟩ : ∃ b, writeLoop buf o len.toNat 0 (fs.inode x).block = .ok b :=
        writeLoop_of_inBlock hin
      rw [hb]
      exact .inr ⟨hin, b, rfl⟩
    · rw [writeLoop_of_not_inBlock hin]
      exact .inl ⟨hin, rfl⟩
  · refine .inl ⟨not_lt.mp hassert, ?_⟩
    rw [writeF, assert, if_neg hassert, error_bind]

/-! ### Calls on open files -/

/-- The arguments of a call are of type `int`. -/
def FileAccess.ints : FileAccess → Prop
  | .seek offset _ => isInt offset
  | .write _ len => isInt len
  | .read len => isInt len

/-- A call at position `o` fits, if it is a write. -/
def FileAccess.fits (o : ℤ) : FileAccess → Prop
  | .write _ len => WriteFits o len
  | _ => True

/-- The system call is an `lseek`, `read` or `write` of the current process through a descriptor
that is open on a file, in slot `s`. -/
structure OnOpenFile (k : Kernel) (c : Syscall) (s : ℕ) (a : FileAccess) : Prop where
  user : userMode k
  access : ∃ fd, c.access k = some (fd, a) ∧ slotOf fd k = .ok s
  file : ∃ x < NR_INODE, (k.sysFileTable s).inodeIndex = x ∧ (k.fs.inode x).type = FL
  ints : a.ints

/-- The call touches bytes of the block only, and leaves all files within theirs. -/
structure Bounded (k : Kernel) (c : Syscall) : Prop where
  block : step k (.sys c) ≠ .error (.wild .datablock)
  size : ∀ k', step k (.sys c) = .ok k' → FilesFit k'.fs

/-- A call on a descriptor stops where the machine does. -/
theorem doSyscall_error_iff {x : Stop} (hc : c.access k = some (fd, a)) (hs : slotOf fd k = .ok s) :
    doSyscall k c = .error x ↔
      accessStep (k.sysFileTable s).inodeIndex (position k s) a = .error x := by
  cases c with
  | read fd' buf len =>
    simp only [Syscall.access] at hc
    split_ifs at hc with hin
    obtain ⟨rfl, rfl⟩ := Prod.mk.inj (Option.some.inj hc)
    simp only [doSyscall, readAux, if_neg hin, readFile, hs, ok_bind, accessStep, position,
      bind_eq_error, reduceCtorEq, and_false, exists_false, or_false]
  | write fd' buf len =>
    simp only [Syscall.access] at hc
    split_ifs at hc with hout
    obtain ⟨rfl, rfl⟩ := Prod.mk.inj (Option.some.inj hc)
    simp only [doSyscall, writeAux, if_neg hout, hs, ok_bind, accessStep, position,
      bind_eq_error, reduceCtorEq, and_false, exists_false, or_false]
  | seek fd' offset whence =>
    obtain ⟨rfl, rfl⟩ := Prod.mk.inj (Option.some.inj hc)
    simp only [doSyscall, lseekAux, hs, ok_bind, accessStep, position]
    split_ifs
    · simp only
    · simp only
    · simp only [bind_eq_error, reduceCtorEq, and_false, exists_false, or_false]
    · simp only [Except.error.injEq]
  | _ => cases hc

/-- A write on a file stops, or leaves a file of the size that the end of the write gives. -/
theorem filesFit_write {b : ℕ → UInt8} {z : UInt32} (hfit : FilesFit fs) (hx : x < NR_INODE)
    (hty : (fs.inode x).type = FL) :
    FilesFit (fs.setInode x { fs.inode x with block := b, size := z }) ↔ z.toNat ≤ 32768 := by
  constructor
  · intro h
    have hnew := h x hx (by rw [setInode_self]; exact hty)
    rw [setInode_self] at hnew
    exact hnew
  · intro hz y hy
    by_cases hyx : y = x
    · subst hyx
      rw [setInode_self]
      exact fun _ => hz
    · rw [setInode_of_ne hyx]
      exact hfit y hy

/-- **One call of the machine** stays inside the block, and leaves all files within theirs, exactly
when it fits. -/
theorem accessStep_bounded_iff (st : FileSystem × ℤ) (hfit : FilesFit st.1) (hx : x < NR_INODE)
    (hty : (st.1.inode x).type = FL) (ho : isInt st.2) (ha : a.ints) :
    (accessStep x st a ≠ .error (.wild .datablock) ∧
      ∀ st', accessStep x st a = .ok st' → FilesFit st'.1) ↔ a.fits st.2 := by
  cases a with
  | seek offset whence =>
    refine iff_of_true ⟨?_, ?_⟩ trivial
    · rw [accessStep, inodeAt_eq hx]
      split_ifs <;> simp
    · intro st' h
      rcases accessStep_fs h with hfs | ⟨buf, len, v, ha', -⟩
      · rwa [hfs]
      · cases ha'
  | read len =>
    refine iff_of_true ⟨?_, ?_⟩ trivial
    · obtain ⟨bytes, hb⟩ : ∃ bytes, readF st.1 x len st.2 = .ok bytes := readF_ok hx (hfit x hx hty)
      rw [accessStep, hb, ok_bind, inodeAt_eq hx, ok_bind]
      simp
    · intro st' h
      rcases accessStep_fs h with hfs | ⟨buf, len, v, ha', -⟩
      · rwa [hfs]
      · cases ha'
  | write buf len =>
    have hlen : isInt len := ha
    rw [accessStep, FileAccess.fits, WriteFits]
    rcases writeF_cases st.1 buf len st.2 hx with
      ⟨hstop, hw⟩ | ⟨hpass, ⟨hout, hw⟩ | ⟨hin, b, hw⟩⟩
    · rw [hw, error_bind]
      exact iff_of_true ⟨by simp, by simp⟩ (.inl hstop)
    · rw [hw, error_bind]
      refine iff_of_false (fun h => h.1 rfl) ?_
      have hpos : 0 < len := by
        by_contra hle
        exact hout fun j h1 h2 => by omega
      rintro (hstop | ⟨hsum, hneg | h0⟩)
      · omega
      · omega
      · exact hout ((inBlock_iff ho hlen hpos hpass).mpr ⟨hsum, h0⟩)
    · rw [hw, ok_bind]
      have hsize := sizeAfter_le (hfit x hx hty) hpass
      constructor
      · rintro ⟨-, h⟩
        have hsum := hsize.mp ((filesFit_write hfit hx hty).mp (h _ rfl))
        refine .inr ⟨hsum, ?_⟩
        by_cases hpos : 0 < len
        · exact .inr ((inBlock_iff ho hlen hpos hpass).mp hin).2
        · exact .inl (not_lt.mp hpos)
      · intro h
        refine ⟨by simp, ?_⟩
        intro st' hst
        obtain rfl := Except.ok.inj hst
        refine (filesFit_write hfit hx hty).mpr (hsize.mpr ?_)
        rcases h with hstop | ⟨hsum, -⟩
        · omega
        · exact hsum

/-- **One call** on an open file. -/
theorem bounded_iff (h : OnOpenFile k c s a) (hfit : FilesFit k.fs) (ho : isInt (k.sysFileTable s).offset) :
    Bounded k c ↔ a.fits (k.sysFileTable s).offset := by
  obtain ⟨fd, hc, hs⟩ := h.access
  obtain ⟨x, hx, hindex, hty⟩ := h.file
  have hstep : step k (.sys c) = doSyscall k c := if_pos h.user
  have herror := fun x => doSyscall_error_iff (x := x) hc hs
  have hmachine := accessStep_bounded_iff (position k s) hfit hx hty ho h.ints
  rw [← hindex] at hmachine
  refine Iff.trans ⟨?_, ?_⟩ hmachine
  · rintro ⟨hblock, hsize⟩
    rw [hstep] at hblock hsize
    refine ⟨fun he => hblock ((herror _).mpr he), ?_⟩
    intro st' hst
    cases hk : doSyscall k c with
    | error y =>
      rw [(herror y).mp hk] at hst
      cases hst
    | ok k' =>
      obtain ⟨t, ht, -, hpos⟩ := access_of_doSyscall hc hk
      obtain rfl := Except.ok.inj (hs.symm.trans ht)
      obtain rfl := Except.ok.inj (hst.symm.trans hpos)
      exact hsize k' hk
  · rintro ⟨hblock, hsize⟩
    constructor
    · rw [hstep]
      exact fun he => hblock ((herror _).mp he)
    · intro k' hk
      rw [hstep] at hk
      obtain ⟨t, ht, -, hpos⟩ := access_of_doSyscall hc hk
      obtain rfl := Except.ok.inj (hs.symm.trans ht)
      exact hsize _ hpos

/-! ### Runs of calls -/

/-- Positions stay values of type `int`. -/
theorem accessStep_isInt {v : ℤ} {st st' : FileSystem × ℤ} (ha : a.ints)
    (h : accessStep v st a = .ok st') : isInt st'.2 := by
  cases a with
  | seek offset whence =>
    rw [accessStep] at h
    split_ifs at h
    · obtain rfl := Except.ok.inj h
      exact ha
    · obtain rfl := Except.ok.inj h
      exact i32_range _
    · obtain ⟨d, -, h⟩ := bind_eq_ok.mp h
      obtain rfl := Except.ok.inj h
      exact i32_range _
  | write buf len =>
    obtain ⟨r, -, h⟩ := bind_eq_ok.mp h
    obtain rfl := Except.ok.inj h
    exact i32_range _
  | read len =>
    obtain ⟨bytes, -, h⟩ := bind_eq_ok.mp h
    obtain ⟨d, -, h⟩ := bind_eq_ok.mp h
    obtain rfl := Except.ok.inj h
    dsimp only
    split_ifs
    · exact i32_range _
    · exact i32_range _

/-- The event is a call on an open file. -/
def onOpenFile (k : Kernel) (e : Event) : Prop := ∃ c s a, e = .sys c ∧ OnOpenFile k c s a

/-- It is one that fits. -/
def fitting (k : Kernel) (e : Event) : Prop :=
  ∃ c s a, e = .sys c ∧ OnOpenFile k c s a ∧ a.fits (k.sysFileTable s).offset

/-- All files are within their blocks, and all positions are values of type `int`. -/
structure InBounds (k : Kernel) : Prop where
  size : FilesFit k.fs
  offset : ∀ t < MAX_SYS_FILE_NUM, isInt (k.sysFileTable t).offset

/-- An event that fits keeps the bounds. -/
theorem inBounds_step {k' : Kernel} {e : Event} (h : InBounds k) (he : fitting k e)
    (hk : step k e = .ok k') : InBounds k' := by
  obtain ⟨c, s, a, rfl, hon, hfits⟩ := he
  obtain ⟨fd, hc, hs⟩ := hon.access
  obtain ⟨-, -, -, hlt⟩ := slotOf_eq_ok hs
  refine ⟨((bounded_iff hon h.size (h.offset s hlt)).mpr hfits).size k' hk, ?_⟩
  rw [step, if_pos hon.user] at hk
  obtain ⟨t, ht, hmoved, hpos⟩ := access_of_doSyscall hc hk
  obtain rfl := Except.ok.inj (hs.symm.trans ht)
  intro u hu
  by_cases hus : u = s
  · subst hus
    exact accessStep_isInt hon.ints hpos
  · rw [hmoved.others u hus]
    exact h.offset u hu

/-- **Runs of calls on open files** keep all files within their blocks, as long as every write fits;
and a call in a state reached stays inside the block exactly when it fits. -/
theorem accesses_bounded (hsize : FilesFit k0.fs)
    (hoffset : ∀ t < MAX_SYS_FILE_NUM, isInt (k0.sysFileTable t).offset)
    (hr : Reaches step fitting k0 es k) :
    FilesFit k.fs ∧ ∀ c s a, OnOpenFile k c s a → (Bounded k c ↔ a.fits (k.sysFileTable s).offset) := by
  have h : InBounds k := hr.invariant (P := fun _ k => InBounds k) ⟨hsize, hoffset⟩
    fun _ _ _ _ _ h he hk => inBounds_step h he hk
  refine ⟨h.size, ?_⟩
  intro c s a hon
  obtain ⟨fd, -, hs⟩ := hon.access
  exact bounded_iff hon h.size (h.offset s (slotOf_eq_ok hs).2.2.2)

/-- A run in which the first process opens a file, and what is known of the state it leads to. -/
theorem exists_openedFile :
    ∃ k, runFrom .withPath (List.replicate 10 .timer ++ [.sys (.openPath 0x200300 0)]) = .ok k ∧
      userMode k ∧ slotOf 3 k = .ok 0 ∧ k.sysFileTable 0 = ⟨1, 1, 0⟩ ∧ (k.fs.inode 1).type = FL ∧
      (∀ x < NR_INODE, (k.fs.inode x).filesz.toNat ≤ 32768) ∧
      ∀ t < MAX_SYS_FILE_NUM, isInt (k.sysFileTable t).offset := by
  have hrun : okAnd (runFrom .withPath (List.replicate 10 .timer ++ [.sys (.openPath 0x200300 0)]))
      (fun k => decide (userMode k) && decide (slotOf 3 k = .ok 0) &&
        decide (k.sysFileTable 0 = ⟨1, 1, 0⟩) && decide ((k.fs.inode 1).type = FL) &&
        decide (∀ x < NR_INODE, (k.fs.inode x).filesz.toNat ≤ 32768) &&
        decide (∀ t < MAX_SYS_FILE_NUM, isInt (k.sysFileTable t).offset)) = true := by
    decide +kernel
  obtain ⟨k, hk, hp⟩ := okAnd_eq_true.mp hrun
  simp only [Bool.and_eq_true, decide_eq_true_eq] at hp
  obtain ⟨⟨⟨⟨⟨h1, h2⟩, h3⟩, h4⟩, h5⟩, h6⟩ := hp
  exact ⟨k, hk, h1, h2, h3, h4, h5, h6⟩

/-- An `lseek` from the start of the open file. -/
theorem seek_openedFile {k : Kernel} {o : ℤ} (hu : userMode k) (hs : slotOf 3 k = .ok 0)
    (ht : k.sysFileTable 0 = ⟨1, 1, 0⟩) (hty : (k.fs.inode 1).type = FL) (ho : isInt o) :
    OnOpenFile k (.seek 3 o 0) 0 (.seek o 0) ∧ ∃ k', step k (.sys (.seek 3 o 0)) = .ok k' ∧
      OnOpenFile k' (.write 3 0 3) 0 (.write (bufByte k' (userBuf 0 k')) 3) ∧
      (k'.sysFileTable 0).offset = o ∧ k'.fs = k.fs := by
  refine ⟨⟨hu, ⟨3, rfl, hs⟩, ⟨1, by decide, by rw [ht]; rfl, hty⟩, ho⟩, ?_⟩
  refine ⟨k.setFile 0 fun f => { f with offset := o }, ?_, ⟨hu, ⟨3, rfl, hs⟩, ?_, ?_⟩, ?_, rfl⟩
  · rw [step, if_pos hu, doSyscall, lseekAux, if_pos rfl, hs, ok_bind]
  · exact ⟨1, by decide, by simp [ht], hty⟩
  · exact ⟨by decide, by decide⟩
  · simp

/-- It moves to the fifth byte and writes three. -/
theorem accesses_bounded_write :
    ∃ k0 k, Reaches step fitting k0 [.sys (.seek 3 5 0)] k ∧ FilesFit k.fs ∧
      Bounded k (.write 3 0 3) := by
  obtain ⟨k0, -, hu, hs, ht, hty, hsize, hoffset⟩ := exists_openedFile
  obtain ⟨hseek, k1, hk, hwrite, ho, -⟩ := seek_openedFile (o := 5) hu hs ht hty (by decide)
  have hr : Reaches step fitting k0 [.sys (.seek 3 5 0)] k1 :=
    .snoc .nil ⟨_, _, _, rfl, hseek, trivial⟩ hk
  obtain ⟨hfit, hbounded⟩ := accesses_bounded (fun x hx _ => hsize x hx) hoffset hr
  refine ⟨k0, k1, hr, hfit, (hbounded _ _ _ hwrite).mpr ?_⟩
  rw [ho]
  exact .inr (by decide)

/-- **A write before the start** of a file passes the assertion and leaves the block. -/
theorem write_before_start :
    ¬∀ (k0 k : Kernel) (es : List Event) (c : Syscall) (s : ℕ) (a : FileAccess), FilesFit k0.fs →
      (∀ t < MAX_SYS_FILE_NUM, isInt (k0.sysFileTable t).offset) →
      Reaches step onOpenFile k0 es k → OnOpenFile k c s a → Bounded k c := by
  intro hall
  obtain ⟨k0, -, hu, hs, ht, hty, hsize, hoffset⟩ := exists_openedFile
  have hfit : FilesFit k0.fs := fun x hx _ => hsize x hx
  obtain ⟨hseek, k1, hk, hwrite, ho, hfs⟩ := seek_openedFile (o := -5) hu hs ht hty (by decide)
  have hr : Reaches step onOpenFile k0 [.sys (.seek 3 (-5) 0)] k1 :=
    .snoc .nil ⟨_, _, _, rfl, hseek⟩ hk
  have hbounded := hall k0 k1 _ _ _ _ hfit hoffset hr hwrite
  have hfits := (bounded_iff hwrite (by rw [hfs]; exact hfit) (by rw [ho]; decide)).mp hbounded
  rw [ho] at hfits
  rcases hfits with h | ⟨h, -⟩
  · exact absurd h (by decide)
  · exact absurd h (by decide)

end OsLab
