import OsLab.Kernel.Trap
import OsLab.Files.Operations
import OsLab.Scheduler.Sound
import OsLab.User.Processes

/-!
# The library's system calls: `lib/syscall.c`

Every function of the library that enters the kernel does so through `syscall`, which loads `eax`,
`ebx`, `ecx` and `edx` and executes `int $0x80`; its last two arguments go nowhere.

* `LibCall` are these functions with their arguments, and `LibCall.regs` the registers at `int $0x80`.
* `decode_regs`: **`syscallHandle` reads from them the call that was meant**, with the arguments that
  were passed.
* `resultOf` is what a call leaves in `eax` (`eax_of_call`). A handler that stores nothing leaves the
  number of the call there, so `write` to `stdout` returns 4 and a read of `stdin` 3.
-/

namespace OsLab

open OsLab.Lib

/-! ### Into the kernel -/

/-- `syscall(num, a1, a2, a3, a4, a5)`: the registers at `int $0x80`. -/
def syscall (num : ℤ) (a1 a2 a3 _a4 _a5 : UInt32) (regs : Regs) : Regs := fun f =>
  match f with
  | .eax => wordOf num
  | .ebx => a1
  | .ecx => a2
  | .edx => a3
  | f => regs f

/-- The number of `exit`. -/
abbrev NR_exit : ℤ := 1

/-- The number of `fork`. -/
abbrev NR_fork : ℤ := 2

/-- The number of `read`. -/
abbrev NR_read : ℤ := 3

/-- The number of `write`. -/
abbrev NR_write : ℤ := 4

/-- The number of `open`. -/
abbrev NR_open : ℤ := 5

/-- The number of `close`. -/
abbrev NR_close : ℤ := 6

/-- The number of `sem_init`. -/
abbrev NR_sem_init : ℤ := 7

/-- The number of `sem_destroy`. -/
abbrev NR_sem_destroy : ℤ := 8

/-- The number of `sem_wait`. -/
abbrev NR_sem_wait : ℤ := 9

/-- The number of `sem_post`. -/
abbrev NR_sem_post : ℤ := 10

/-- The number of `lseek`. -/
abbrev NR_seek : ℤ := 11

/-- The number of `remove`. -/
abbrev NR_remove : ℤ := 12

/-- The number of `ls`. -/
abbrev NR_ls : ℤ := 13

/-- The number of `cat`. -/
abbrev NR_cat : ℤ := 14

/-- The number of `sleep`. -/
abbrev NR_sleep : ℤ := 162

/-- The calls of `lib.h`; pointers are words. -/
inductive LibCall
  | fork
  | exit
  | sleep (time_cont : ℤ)
  | sem_init (sem : UInt32) (value : ℤ)
  | sem_destroy (sem : UInt32)
  | sem_wait (sem : UInt32)
  | sem_post (sem : UInt32)
  | ls (path : UInt32)
  | cat (path : UInt32)
  | open (path : UInt32) (flags : ℤ)
  | read (fd : ℤ) (buffer : UInt32) (size : ℤ)
  | write (fd : ℤ) (buffer : UInt32) (size : ℤ)
  | lseek (fd offset whence : ℤ)
  | close (fd : ℤ)
  | remove (path : UInt32)

/-- What each of them passes to `syscall`. -/
def LibCall.regs : LibCall → Regs → Regs
  | .fork => syscall NR_fork 0 0 0 0 0
  | .exit => syscall NR_exit 0 0 0 0 0
  | .sleep time_cont => syscall NR_sleep (wordOf time_cont) 0 0 0 0
  | .sem_init sem value => syscall NR_sem_init sem (wordOf value) 0 0 0
  | .sem_destroy sem => syscall NR_sem_destroy sem 0 0 0 0
  | .sem_wait sem => syscall NR_sem_wait sem 0 0 0 0
  | .sem_post sem => syscall NR_sem_post sem 0 0 0 0
  | .ls path => syscall NR_ls path 0 0 0 0
  | .cat path => syscall NR_cat path 0 0 0 0
  | .open path flags => syscall NR_open path (wordOf flags) 0 0 0
  | .read fd buffer size => syscall NR_read (wordOf fd) buffer (wordOf size) 0 0
  | .write fd buffer size => syscall NR_write (wordOf fd) buffer (wordOf size) 0 0
  | .lseek fd offset whence => syscall NR_seek (wordOf fd) (wordOf offset) (wordOf whence) 0 0
  | .close fd => syscall NR_close (wordOf fd) 0 0 0 0
  | .remove path => syscall NR_remove path 0 0 0 0

/-- The call that is meant. An `int` argument is what 32 bits hold of it. -/
def LibCall.syscall : LibCall → Syscall
  | .fork => .fork
  | .exit => .exit
  | .sleep time_cont => .sleep (i32 time_cont)
  | .sem_init sem value => .semInit sem.toNat (i32 value)
  | .sem_destroy sem => .semDestroy sem.toNat
  | .sem_wait sem => .semWait sem.toNat
  | .sem_post sem => .semPost sem.toNat
  | .ls path => .ls path.toNat
  | .cat path => .cat path.toNat
  | .open path flags => .openPath path.toNat (i32 flags)
  | .read fd buffer size => .read (i32 fd) buffer.toNat (i32 size)
  | .write fd buffer size => .write (i32 fd) buffer.toNat (i32 size)
  | .lseek fd offset whence => .seek (i32 fd) (i32 offset) (i32 whence)
  | .close fd => .close (i32 fd)
  | .remove path => .remove path.toNat

/-- The call that the registers ask for. -/
def decodeRegs (regs : Regs) : Option Syscall :=
  decodeSyscall (regs .eax) (regs .ebx) (regs .ecx) (regs .edx)

/-- **The kernel reads the call that was meant.** -/
theorem decode_regs (c : LibCall) (regs : Regs) : decodeRegs (c.regs regs) = some c.syscall := by
  cases c <;> simp only [LibCall.syscall, ← intOf_wordOf] <;> rfl

/-- A call that the kernel reads has its number in `eax`. -/
theorem number_of_decode {regs : Regs} {c : Syscall} (h : decodeRegs regs = some c) :
    regs .eax = wordOf c.number := by
  apply UInt32.toNat_inj.mp
  simp only [decodeRegs, decodeSyscall] at h
  split at h
  case h_16 => cases h
  all_goals
    next hn =>
      rw [hn, ← Option.some.inj h]
      rfl

/-! ### Out of the kernel -/

/-- The bytes that a read gets from a file. -/
def bytesRead (fd len : ℤ) (k : Kernel) : Except Stop (List UInt8) := do
  let s ← slotOf fd k
  let f := k.sysFileTable s
  readF k.fs f.inodeIndex len f.offset

/-- What a call returns. -/
def resultOf (k : Kernel) : Syscall → ℤ
  | .fork => k.pNum
  | .openPath _ _ => getAvlFilepointer k
  | .read fd buf len =>
    if fd = stdin then (Syscall.read fd buf len).number
    else
      match bytesRead fd len k with
      | .ok bytes => bytes.length
      | .error _ => 0
  | .write fd buf len => if fd = stdout then (Syscall.write fd buf len).number else len.toNat
  | .close _ | .remove _ | .semInit _ _ | .semDestroy _ | .semWait _ | .semPost _ => 0
  | c => c.number

variable {k k' : Kernel} {Q : Queues} {c : Syscall}

/-- The answer of a call. -/
theorem tf_setEax (k : Kernel) (v : ℤ) : (k.setEax v).tf k.current .eax = wordOf v := by
  rw [setTf_tf, if_pos ⟨rfl, rfl⟩]

/-- **The value in `eax`** after a call on files. -/
theorem eax_of_file (hc : c.onFiles) (hk : doSyscall k c = .ok k')
    (heax : k.tf k.current .eax = wordOf c.number) :
    k'.tf k.current .eax = wordOf (resultOf k c) := by
  have hkeep : k'.kmem = k.kmem → resultOf k c = c.number →
      k'.tf k.current .eax = wordOf (resultOf k c) := by
    intro hm hr
    rw [hr, ← heax]
    exact congrFun (congrFun hm _) _
  have hset : ∀ k1 v, k1.current = k.current → k'.kmem = (Kernel.setEax k1 v).kmem →
      resultOf k c = v → k'.tf k.current .eax = wordOf (resultOf k c) := by
    intro k1 v h1 hm hr
    rw [hr, ← tf_setEax k1 v, h1]
    exact congrFun (congrFun hm _) _
  cases c with
  | read fd buf len =>
    rw [doSyscall, readAux, if_neg hc] at hk
    simp only [readFile, bind_eq_ok] at hk
    obtain ⟨s, hs, bytes, hb, d, -, hk⟩ := hk
    obtain rfl := Except.ok.inj hk
    refine hset { k with mem := storeBytes k.mem (userBuf buf k) bytes } _ rfl rfl ?_
    have hread : bytesRead fd len k = .ok bytes := by simp only [bytesRead, hs, ok_bind, hb]
    simp only [resultOf, if_neg hc, hread]
  | write fd buf len =>
    simp only [doSyscall, writeAux] at hk
    split_ifs at hk with hfd
    · obtain ⟨s, -, hk⟩ := bind_eq_ok.mp hk
      obtain rfl := Except.ok.inj hk
      exact hkeep rfl (if_pos hfd)
    · obtain ⟨s, -, hk⟩ := bind_eq_ok.mp hk
      obtain ⟨⟨fs, v⟩, hw, hk⟩ := bind_eq_ok.mp hk
      obtain rfl := Except.ok.inj hk
      obtain ⟨-, -, -, -, -, -, hv, -⟩ := writeF_inv hw
      exact hset { k with fs := fs } v rfl rfl ((if_neg hfd).trans hv.symm)
  | seek fd offset whence =>
    have hm : k'.kmem = k.kmem := by
      simp only [doSyscall, lseekAux] at hk
      split_ifs at hk
      · obtain ⟨s, -, hk⟩ := bind_eq_ok.mp hk
        obtain rfl := Except.ok.inj hk
        rfl
      · obtain ⟨s, -, hk⟩ := bind_eq_ok.mp hk
        obtain rfl := Except.ok.inj hk
        rfl
      · obtain ⟨s, -, hk⟩ := bind_eq_ok.mp hk
        obtain ⟨d, -, hk⟩ := bind_eq_ok.mp hk
        obtain rfl := Except.ok.inj hk
        rfl
    exact hkeep hm rfl
  | openPath path flags =>
    simp only [doSyscall, openAux, bind_eq_ok] at hk
    obtain ⟨_, -, ⟨i, k1⟩, hl, hk⟩ := hk
    have hpcb : k1.pcb = k.pcb ∧ k1.current = k.current := by
      simp only [openLookup, bind_eq_ok] at hl
      obtain ⟨_, -, _, -, _, -, hl⟩ := hl
      obtain ⟨-, rfl⟩ := Prod.mk.inj (Except.ok.inj hl)
      exact ⟨rfl, rfl⟩
    simp only [openSlot, bind_eq_ok] at hk
    obtain ⟨-, -, hk⟩ := hk
    obtain rfl := Except.ok.inj hk
    refine hset ((k1.setFile (getAvlSystemFile k1).toNat fun _ => ⟨i, 1, 0⟩).setFilepointer
      (getAvlFilepointer k1).toNat (getAvlSystemFile k1)) _ hpcb.2 rfl ?_
    simp only [resultOf, getAvlFilepointer, hpcb.1, hpcb.2]
  | close fd =>
    obtain ⟨s, hs, -⟩ := bind_eq_ok.mp (show closeAux fd k = .ok k' from hk)
    obtain rfl := Except.ok.inj ((closeAux_eq hs).symm.trans hk)
    refine hset _ 0 ?_ rfl rfl
    rw [Kernel.setPcb_current, Kernel.setPcb_current]
    unfold dropRef
    split_ifs <;> rfl
  | remove path =>
    simp only [doSyscall, removeAux, bind_eq_ok] at hk
    obtain ⟨_, -, r, -, hk⟩ := hk
    obtain rfl := Except.ok.inj hk
    exact hset { k with fs := r.1, path := r.2 } 0 rfl rfl rfl
  | ls path =>
    simp only [doSyscall, lsAux, bind_eq_ok] at hk
    obtain ⟨_, -, _, -, _, -, _, -, _, -, hk⟩ := hk
    obtain rfl := Except.ok.inj hk
    exact hkeep rfl rfl
  | cat path =>
    simp only [doSyscall, catAux, bind_eq_ok] at hk
    obtain ⟨_, -, _, -, _, -, _, -, _, -, hk⟩ := hk
    obtain rfl := Except.ok.inj hk
    exact hkeep rfl rfl
  | fork => exact hc.elim
  | exit => exact hc.elim
  | sleep n => exact hc.elim
  | semInit a v => exact hc.elim
  | semDestroy a => exact hc.elim
  | semWait a => exact hc.elim
  | semPost a => exact hc.elim

/-- **The value in `eax`** after any call; the number of the call was there before. -/
theorem eax_of_call (h : Sound k Q) (hk : step k (.sys c) = .ok k')
    (heax : k.tf k.current .eax = wordOf c.number) :
    k'.tf k.current .eax = wordOf (resultOf k c) := by
  have hdo : doSyscall k c = .ok k' := by
    simp only [step] at hk
    split_ifs at hk
    exact hk
  have hkeep : k'.kmem = k.kmem → k'.tf k.current .eax = wordOf c.number := by
    intro hm
    rw [← heax]
    exact congrFun (congrFun hm _) _
  have hset : k'.kmem = (k.setEax 0).kmem → k'.tf k.current .eax = wordOf 0 := by
    intro hm
    rw [← tf_setEax k 0]
    exact congrFun (congrFun hm _) _
  cases does_of_step h hk with
  | exit _ hr => exact hkeep hr.kmem
  | sleep hr => exact hkeep hr.kmem
  | fork nx => exact tf_setEax { k with kmem := (copyFrame (.pcb k.pNum) k).kmem } k.pNum
  | semInit a v nx => exact hset rfl
  | semDestroy a => exact hset rfl
  | semWait hr => exact hset hr.kmem
  | semPost hr => exact hset hr.kmem
  | readStdin hp => exact hkeep (by rw [hp.rest])
  | file hc hf => exact eax_of_file hc hdo heax

end OsLab
