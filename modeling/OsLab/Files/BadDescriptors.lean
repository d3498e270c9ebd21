import OsLab.Files.OpenFiles

/-!
# Calls on a descriptor that is not open

`read`, `write`, `lseek` and `close` index two tables in turn with an integer of the user:
`filepointer[fd]` of the caller, and `sysFileTable` at what they find there, which is -1 for a
descriptor that is not open. `fork_aux` looks for the -1 before it goes on to the second table; the
four handlers do not.

* `Refused`: the call stays inside both tables and leaves the file tables and the file system alone.
* **`refused_iff`**: with a descriptor that is not open only an `lseek` with an unknown `whence` is
  refused, by the `assert(0)` that comes before the tables.
* `close_twice`: the second `close` of a descriptor reaches `sysFileTable[-1]`.

Where the tables are counted the lookup succeeds exactly on the open descriptors
(`FilesCounted.slotOf_iff`), so a check of the descriptor is all that is missing.
-/

namespace OsLab

open OsLab.Lib

variable {k : Kernel} {c : Syscall} {fd : ℤ}

/-- The descriptor that a call looks up. -/
def Syscall.descriptor : Syscall → Option ℤ
  | .read fd _ _ => if fd = stdin then none else some fd
  | .write fd _ _ => if fd = stdout then none else some fd
  | .seek fd _ _ => some fd
  | .close fd => some fd
  | _ => none

/-- The call indexes both tables inside their bounds and changes nothing about files. -/
structure Refused (k : Kernel) (c : Syscall) : Prop where
  sysFileTable : step k (.sys c) ≠ .error (.wild .sysFileTable)
  filepointer : step k (.sys c) ≠ .error (.wild .filepointer)
  same : ∀ k', step k (.sys c) = .ok k' → SameFiles k k'

/-- The tables are indexed outside their bounds. -/
def outOfTables (a : Access) : Prop := a = .sysFileTable ∨ a = .filepointer

/-- A refused call uses no entry outside a table. -/
theorem Refused.not_wild {a : Access} (h : Refused k c) (ha : outOfTables a) :
    step k (.sys c) ≠ .error (.wild a) := by
  rcases ha with rfl | rfl
  · exact h.sysFileTable
  · exact h.filepointer

/-! ### What the lookup does -/

/-- The lookup of a descriptor that is not open leaves one of the tables. -/
theorem slotOf_of_not_open (hfd : ¬IsOpen k fd) :
    ∃ a, outOfTables a ∧ slotOf fd k = .error (.wild a) := by
  unfold slotOf
  by_cases hin : 0 ≤ fd ∧ fd < MAX_FP_NUM
  · have hclosed : (k.pcb k.current).filepointer fd.toNat = -1 := by
      by_contra hne
      exact hfd ⟨hin.1, hin.2, hne⟩
    refine ⟨.sysFileTable, .inl rfl, ?_⟩
    rw [if_pos hin, hclosed]
    rfl
  · exact ⟨.filepointer, .inr rfl, if_neg hin⟩

/-! ### What the handlers do -/

/-- `whence` is none of `SEEK_SET`, `SEEK_CUR` and `SEEK_END`. -/
def unknownWhence (whence : ℤ) : Prop := whence ≠ 0 ∧ whence ≠ 1 ∧ whence ≠ 2

/-- The handlers look their descriptor up before anything else, but for the `assert(0)`. -/
theorem doSyscall_of_slotOf {x : Stop} (hd : c.descriptor = some fd) (hs : slotOf fd k = .error x) :
    doSyscall k c = .error x ∨
      ∃ offset whence, c = .seek fd offset whence ∧ unknownWhence whence ∧
        doSyscall k c = .error .abort := by
  cases c with
  | read fd' buf len =>
    simp only [Syscall.descriptor] at hd
    split_ifs at hd with hin
    obtain rfl := Option.some.inj hd
    left
    rw [doSyscall, readAux, if_neg hin, readFile, hs, error_bind]
  | write fd' buf len =>
    simp only [Syscall.descriptor] at hd
    split_ifs at hd with hout
    obtain rfl := Option.some.inj hd
    left
    rw [doSyscall, writeAux, if_neg hout, hs, error_bind]
  | close fd' =>
    obtain rfl := Option.some.inj hd
    left
    rw [doSyscall, closeAux, hs, error_bind]
  | seek fd' offset whence =>
    obtain rfl := Option.some.inj hd
    rw [doSyscall, lseekAux, hs]
    by_cases h0 : whence = 0
    · exact .inl (if_pos h0)
    by_cases h1 : whence = 1
    · left
      rw [if_neg h0, if_pos h1, error_bind]
    by_cases h2 : whence = 2
    · left
      rw [if_neg h0, if_neg h1, if_pos h2, error_bind]
    · right
      refine ⟨offset, whence, rfl, ⟨h0, h1, h2⟩, ?_⟩
      rw [if_neg h0, if_neg h1, if_neg h2]
  | _ => cases hd

/-- A call that stops without leaving the tables is refused. -/
theorem refused_of_abort (h : step k (.sys c) = .error .abort) : Refused k c := by
  constructor
  · rw [h]
    simp
  · rw [h]
    simp
  · intro k' hk
    rw [h] at hk
    cases hk

/-- **A descriptor that is not open is refused** by `lseek` when `whence` is unknown, and by no other
call. -/
theorem refused_iff (hu : userMode k) (hd : c.descriptor = some fd) (hfd : ¬IsOpen k fd) :
    Refused k c ↔ ∃ offset whence, c = .seek fd offset whence ∧ unknownWhence whence := by
  have hstep : step k (.sys c) = doSyscall k c := if_pos hu
  obtain ⟨a, ha, hs⟩ := slotOf_of_not_open hfd
  constructor
  · intro h
    rcases doSyscall_of_slotOf hd hs with hwild | ⟨offset, whence, hc, hunknown, -⟩
    · exact absurd (hstep.trans hwild) (h.not_wild ha)
    · exact ⟨offset, whence, hc, hunknown⟩
  · rintro ⟨offset, whence, rfl, h0, h1, h2⟩
    apply refused_of_abort
    rw [hstep, doSyscall, lseekAux, if_neg h0, if_neg h1, if_neg h2]

/-- The first process opens a file and closes it twice. -/
theorem refused_iff_closedTwice :
    ∃ k, runFrom .withPath (List.replicate 10 .timer ++
        [.sys (.openPath 0x200300 0), .sys (.close 3)]) = .ok k ∧
      (Refused k (.close 3) ↔
        ∃ offset whence, Syscall.close 3 = .seek 3 offset whence ∧ unknownWhence whence) := by
  have hrun : okAnd (runFrom .withPath (List.replicate 10 .timer ++
      [.sys (.openPath 0x200300 0), .sys (.close 3)])) (fun k =>
        decide (userMode k) && decide (¬IsOpen k 3)) = true := by decide +kernel
  obtain ⟨k, hk, hp⟩ := okAnd_eq_true.mp hrun
  simp only [Bool.and_eq_true, decide_eq_true_eq] at hp
  exact ⟨k, hk, refused_iff hp.1 rfl hp.2⟩

/-- **A second `close`** of a descriptor indexes `sysFileTable` with -1. -/
theorem close_twice :
    ¬∀ (img : Image) (es : List Event) (k : Kernel) (c : Syscall) (fd : ℤ), runFrom img es = .ok k →
      userMode k → c.descriptor = some fd → ¬IsOpen k fd → Refused k c := by
  intro hall
  have hrun : okAnd (runFrom .withPath (List.replicate 10 .timer ++
      [.sys (.openPath 0x200300 0), .sys (.close 3)])) (fun k =>
        decide (userMode k) && decide (¬IsOpen k 3)) = true := by decide +kernel
  obtain ⟨k, hk, hp⟩ := okAnd_eq_true.mp hrun
  simp only [Bool.and_eq_true, decide_eq_true_eq] at hp
  obtain ⟨a, ha, hs⟩ := slotOf_of_not_open hp.2
  apply (hall _ _ k (.close 3) 3 hk hp.1 rfl hp.2).not_wild ha
  rw [step, if_pos hp.1, doSyscall, closeAux, hs, error_bind]

end OsLab
