import OsLab.Files.Accounting
import OsLab.Files.Contents
import OsLab.Files.Descriptors

/-!
# Calls on an open file

A slot of `sysFileTable` is an inode index and a position. What `lseek_aux`, `write_aux` and
`read_aux` do through a descriptor of the slot is a step of a small machine whose state is the file
system and that position (`accessStep`, `access_of_doSyscall`).

* `fs_step`: seen from the file system, a kernel event is an operation of `fs.c` or nothing.
* `dirsInUse_run`: so the directories stay in use in every run of the kernel.
-/

namespace OsLab

open OsLab.Lib

variable {k k' : Kernel} {Q : Queues} {e : Event} {es : List Event} {c : Syscall} {fd : ℤ} {s : ℕ}
  {img : Image}

/-! ### The machine -/

/-- A call on an open file; the buffer of a write is what the kernel reads there. -/
inductive FileAccess
  | seek (offset whence : ℤ)
  | write (buf : ℕ → UInt8) (len : ℤ)
  | read (len : ℤ)

/-- What it does to the file system and to the position in the file, for inode `i`. -/
def accessStep (i : ℤ) (st : FileSystem × ℤ) : FileAccess → Except Stop (FileSystem × ℤ)
  | .seek offset whence =>
    if whence = 0 then .ok (st.1, offset)
    else if whence = 1 then .ok (st.1, i32 (st.2 + offset))
    else if whence = 2 then do
      let d ← st.1.inodeAt i
      .ok (st.1, i32 (offset + d.filesz.toNat))
    else .error .abort
  | .write buf len => do
    let r ← writeF st.1 i buf len st.2
    .ok (r.1, i32 (st.2 + len))
  | .read len => do
    let _ ← readF st.1 i len st.2
    let d ← st.1.inodeAt i
    .ok (st.1, if i32 (st.2 + len) > intOf d.filesz then intOf d.filesz else i32 (st.2 + len))

/-- The descriptor that a system call reads, writes or moves, and what it does there. -/
def Syscall.access (k : Kernel) : Syscall → Option (ℤ × FileAccess)
  | .read fd _ len => if fd = stdin then none else some (fd, .read len)
  | .write fd buf len => if fd = stdout then none else some (fd, .write (bufByte k (userBuf buf k)) len)
  | .seek fd offset whence => some (fd, .seek offset whence)
  | _ => none

/-- The position of an open file. -/
def position (k : Kernel) (s : ℕ) : FileSystem × ℤ := (k.fs, (k.sysFileTable s).offset)

/-- The open files are what they were, but for the position of slot `s`. -/
structure SlotMoved (k k' : Kernel) (s : ℕ) : Prop where
  filepointer : ∀ p, (k'.pcb p).filepointer = (k.pcb p).filepointer
  inodeIndex : (k'.sysFileTable s).inodeIndex = (k.sysFileTable s).inodeIndex
  others : ∀ t ≠ s, k'.sysFileTable t = k.sysFileTable t
  current : k'.current = k.current

/-- **A call on a descriptor** is a step of the machine for its slot. -/
theorem access_of_doSyscall {a : FileAccess} (hc : c.access k = some (fd, a)) (hk : doSyscall k c = .ok k') :
    ∃ s, slotOf fd k = .ok s ∧ SlotMoved k k' s ∧
      accessStep (k.sysFileTable s).inodeIndex (position k s) a = .ok (position k' s) := by
  cases c with
  | read fd' buf len =>
    simp only [Syscall.access] at hc
    split_ifs at hc with hin
    obtain ⟨rfl, rfl⟩ := Prod.mk.inj (Option.some.inj hc)
    rw [doSyscall, readAux, if_neg hin] at hk
    simp only [readFile, bind_eq_ok] at hk
    obtain ⟨s, hs, bytes, hread, d, hd, hk⟩ := hk
    obtain rfl := Except.ok.inj hk
    refine ⟨s, hs, ⟨fun _ => rfl, ?_, ?_, rfl⟩, ?_⟩
    · simp
    · exact fun t ht => by simp [ht]
    · rw [accessStep]
      unfold position
      rw [hread, ok_bind, hd, ok_bind]
      simp
  | write fd' buf len =>
    simp only [Syscall.access] at hc
    split_ifs at hc with hout
    obtain ⟨rfl, rfl⟩ := Prod.mk.inj (Option.some.inj hc)
    rw [doSyscall, writeAux, if_neg hout] at hk
    simp only [bind_eq_ok] at hk
    obtain ⟨s, hs, r, hwrite, hk⟩ := hk
    obtain rfl := Except.ok.inj hk
    refine ⟨s, hs, ⟨fun _ => rfl, ?_, ?_, rfl⟩, ?_⟩
    · simp
    · exact fun t ht => by simp [ht]
    · rw [accessStep]
      unfold position
      rw [hwrite, ok_bind]
      simp
  | seek fd' offset whence =>
    obtain ⟨rfl, rfl⟩ := Prod.mk.inj (Option.some.inj hc)
    simp only [doSyscall, lseekAux] at hk
    simp only [accessStep]
    split_ifs at hk ⊢
    · obtain ⟨s, hs, hk⟩ := bind_eq_ok.mp hk
      obtain rfl := Except.ok.inj hk
      refine ⟨s, hs, ⟨fun _ => rfl, ?_, ?_, rfl⟩, ?_⟩
      · simp
      · exact fun t ht => by simp [ht]
      · simp [position]
    · obtain ⟨s, hs, hk⟩ := bind_eq_ok.mp hk
      obtain rfl := Except.ok.inj hk
      refine ⟨s, hs, ⟨fun _ => rfl, ?_, ?_, rfl⟩, ?_⟩
      · simp
      · exact fun t ht => by simp [ht]
      · simp [position]
    · obtain ⟨s, hs, hk⟩ := bind_eq_ok.mp hk
      obtain ⟨d, hd, hk⟩ := bind_eq_ok.mp hk
      obtain rfl := Except.ok.inj hk
      refine ⟨s, hs, ⟨fun _ => rfl, ?_, ?_, rfl⟩, ?_⟩
      · simp
      · exact fun t ht => by simp [ht]
      · unfold position
        dsimp only
        rw [hd, ok_bind]
        simp
  | _ => cases hc

/-! ### What an event does to the files -/

/-- The event changes no file and no descriptor, or it is one of the calls that do. -/
inductive OnFiles (k k' : Kernel) : Event → Prop
  | same {e : Event} (hsame : SameFiles k k') : OnFiles k k' e
  | access {c : Syscall} {fd : ℤ} {a : FileAccess} {s : ℕ} (hu : userMode k)
      (hc : c.access k = some (fd, a)) (hs : slotOf fd k = .ok s) (hmoved : SlotMoved k k' s)
      (hstep : accessStep (k.sysFileTable s).inodeIndex (position k s) a = .ok (position k' s)) :
      OnFiles k k' (.sys c)
  | openFile {path : ℕ} {flags : ℤ} {str : List UInt8} {r : ℤ × Kernel} (hu : userMode k)
      (hstr : cstring k path = .ok str) (hlook : openLookup str k = .ok r)
      (hslot : openSlot r.1 r.2 = .ok k') : OnFiles k k' (.sys (.openPath path flags))
  | close {fd : ℤ} (hu : userMode k) (hclose : closeAux fd k = .ok k') : OnFiles k k' (.sys (.close fd))
  | remove {path : ℕ} {str : List UInt8} {r : FileSystem × PathBuf} (hu : userMode k)
      (hstr : cstring k path = .ok str) (hrm : rmFL k.fs str k.path = .ok r)
      (heq : k' = { k with fs := r.1, path := r.2 }.setEax 0) : OnFiles k k' (.sys (.remove path))
  | fork (hu : userMode k) (hfork : forkAux k = .ok k') : OnFiles k k' (.sys .fork)

/-- **Every event** is one of these. -/
theorem onFiles_of_step (h : Sound k Q) (hk : step k e = .ok k') : OnFiles k k' e := by
  by_cases hoff : e.offFiles
  · exact .same (sameFiles_of_offFiles h hoff hk)
  cases e with
  | timer => exact absurd rfl hoff
  | key scanCode => exact absurd rfl hoff
  | store a b => exact absurd rfl hoff
  | sys c =>
    simp only [step] at hk
    split_ifs at hk with hu
    have haccess : ∀ {fd a}, c.access k = some (fd, a) → OnFiles k k' (.sys c) := by
      intro fd a hc
      obtain ⟨s, hs, hmoved, hstep⟩ := access_of_doSyscall hc hk
      exact .access hu hc hs hmoved hstep
    cases c with
    | read fd buf len => exact haccess (if_neg fun hin => hoff (decide_eq_true hin))
    | write fd buf len => exact haccess (if_neg fun hout => hoff (decide_eq_true hout))
    | seek fd offset whence => exact haccess rfl
    | openPath path flags =>
      obtain ⟨str, hstr, hk⟩ := bind_eq_ok.mp hk
      obtain ⟨r, hlook, hk⟩ := bind_eq_ok.mp hk
      exact .openFile hu hstr hlook hk
    | close fd => exact .close hu hk
    | remove path =>
      obtain ⟨str, hstr, hk⟩ := bind_eq_ok.mp hk
      obtain ⟨r, hrm, hk⟩ := bind_eq_ok.mp hk
      exact .remove hu hstr hrm (Except.ok.inj hk).symm
    | fork => exact .fork hu hk
    | _ => exact absurd rfl hoff

/-- A string has no NUL in it. -/
theorem zero_not_mem_cstring {a : ℕ} {str : List UInt8} (h : cstring k a = .ok str) : 0 ∉ str := by
  have hloop : ∀ n a str, cstringLoop k.mem n a = some str → 0 ∉ str := by
    intro n
    induction n with
    | zero => exact fun a str h => by cases h
    | succ n ih =>
      intro a str h
      rw [cstringLoop] at h
      split_ifs at h with h0
      · obtain rfl := Option.some.inj h
        simp
      · obtain ⟨t, ht, rfl⟩ := Option.map_eq_some_iff.mp h
        rw [List.mem_cons, not_or]
        exact ⟨Ne.symm h0, ih _ t ht⟩
  unfold cstring at h
  split at h
  · next str' hstr =>
    obtain rfl := Except.ok.inj h
    exact hloop _ a _ hstr
  · cases h

/-- The machine changes the file system by a write of its inode, or not at all. -/
theorem accessStep_fs {i : ℤ} {st st' : FileSystem × ℤ} {a : FileAccess} (h : accessStep i st a = .ok st') :
    st'.1 = st.1 ∨ ∃ buf len v, a = .write buf len ∧ writeF st.1 i buf len st.2 = .ok (st'.1, v) := by
  cases a with
  | seek offset whence =>
    rw [accessStep] at h
    split_ifs at h
    · obtain rfl := Except.ok.inj h
      exact .inl rfl
    · obtain rfl := Except.ok.inj h
      exact .inl rfl
    · obtain ⟨d, -, h⟩ := bind_eq_ok.mp h
      obtain rfl := Except.ok.inj h
      exact .inl rfl
  | write buf len =>
    obtain ⟨r, hr, h⟩ := bind_eq_ok.mp h
    obtain rfl := Except.ok.inj h
    exact .inr ⟨buf, len, r.2, rfl, hr⟩
  | read len =>
    obtain ⟨bytes, -, h⟩ := bind_eq_ok.mp h
    obtain ⟨d, -, h⟩ := bind_eq_ok.mp h
    obtain rfl := Except.ok.inj h
    exact .inl rfl

/-- **Seen from the file system**, an event is an operation or nothing. -/
theorem fs_step (h : Sound k Q) (hk : step k e = .ok k') :
    k'.fs = k.fs ∨ ∃ op g, fileStep (k.fs, k.path) op = .ok (k'.fs, g) := by
  cases onFiles_of_step h hk with
  | same hsame => exact .inl hsame.fs
  | @access c fd a s hu hc hs hmoved hstep =>
    refine (accessStep_fs hstep).imp id ?_
    rintro ⟨buf, len, v, -, hw⟩
    have hw : writeF k.fs (k.sysFileTable s).inodeIndex buf len (k.sysFileTable s).offset =
        .ok (k'.fs, v) := hw
    refine ⟨.write (k.sysFileTable s).inodeIndex buf len (k.sysFileTable s).offset, k.path, ?_⟩
    rw [fileStep, hw, ok_bind]
  | @openFile path flags str r hu hstr hlook hslot =>
    obtain ⟨s, fd, ho⟩ := openSlot_opened hslot
    refine .inr ⟨.openPath ⟨str, zero_not_mem_cstring hstr⟩, r.2.path, ?_⟩
    rw [ho.fs]
    exact openLookup_eq_ok hlook
  | close hu hclose =>
    obtain ⟨s, hcl⟩ := closeAux_closed hclose
    exact .inl hcl.fs
  | @remove path str r hu hstr hrm heq =>
    refine .inr ⟨.remove ⟨str, zero_not_mem_cstring hstr⟩, r.2, ?_⟩
    rw [heq]
    exact hrm
  | fork hu hfork =>
    obtain ⟨-, -, -, nx, rfl⟩ := forkAux_placed h.placed hfork
    exact .inl rfl

/-- The directories stay in use in every run of the kernel. -/
theorem dirsInUse_run {k0 : Kernel} (hb : boot img = .ok k0) (hd : DirsInUse img.fs)
    (hr : run step k0 es = .ok k) : DirsInUse k.fs := by
  have hstart : ∃ Q, Sound k0 Q ∧ DirsInUse k0.fs := by
    obtain ⟨-, nx, rfl⟩ := placed_boot hb
    exact ⟨_, sound_boot hb, hd⟩
  have hreach : Reaches step (fun _ _ => True) k0 es k := .of_run hr fun _ _ => trivial
  obtain ⟨-, -, hdirs⟩ := hreach.invariant (P := fun _ k => ∃ Q, Sound k Q ∧ DirsInUse k.fs) hstart
    fun _ k1 k2 e _ ⟨Q, hs, hd⟩ _ hk => by
      refine ⟨_, (sound_step hs hk).1, ?_⟩
      rcases fs_step hs hk with hfs | ⟨op, g, hop⟩
      · rwa [hfs]
      · exact dirsInUse_step hd hop
  exact hdirs

end OsLab
