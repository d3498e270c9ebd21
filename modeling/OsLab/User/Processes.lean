import OsLab.Lib.Sessions
import OsLab.Devices.Keyboard
import OsLab.Memory.Pointers
import OsLab.Semaphore.Objects
import OsLab.User.Stdio

/-!
# User programs on the kernel

A user program loads from and stores to its memory and makes system calls; in between the CPU and
the kernel go on with interrupts and with the other processes. `processSystem p` is the kernel as
the process `p` finds it, a machine that `p` shares with its environment (`Lib.System`).

A program that only talks to the terminal, one character in at a time, can forget about all that:

* `Stream` is the machine that such a program believes to run on: its own memory, the characters
  that are still to be read and the text that it has written.
* `phys` is where its memory is, and `userBuf_eq_phys` says that the kernel looks for its buffers there.
  That is so for the first process and its first child only (`Memory.Pointers`).
* `unread` are the characters in `BUF` that no read has got; `Unread.poll_one` is a read of one.

`Terminal` shows that such a program runs on the kernel as on its own machine.
-/

namespace OsLab

open OsLab.Lib

/-! ### Operations -/

/-- The `NR_` constants of `irqHandle.c` and `lib/syscall.c`. -/
def Syscall.number : Syscall → ℤ
  | .exit => 1
  | .fork => 2
  | .read _ _ _ => 3
  | .write _ _ _ => 4
  | .openPath _ _ => 5
  | .close _ => 6
  | .semInit _ _ => 7
  | .semDestroy _ => 8
  | .semWait _ => 9
  | .semPost _ => 10
  | .seek _ _ _ => 11
  | .remove _ => 12
  | .ls _ => 13
  | .cat _ => 14
  | .sleep _ => 162

/-- What a program asks the machine for. -/
inductive UserOp
  | load (a : ℕ)
  | store (a : ℕ) (b : UInt8)
  | sys (c : Syscall)

/-- A load gives a byte, a system call what is in `eax` afterwards. -/
def UserOp.Res : UserOp → Type
  | .load _ => UInt8
  | .store _ _ => Unit
  | .sys _ => UInt32

/-- What user programs ask for. -/
abbrev userInterface : Interface := ⟨UserOp, UserOp.Res⟩

/-- The kernel, and what a process has written to `stdout` so far. -/
structure Process where
  kernel : Kernel
  out : List UInt8

/-- The text that a call writes to `stdout`. -/
def printed (c : Syscall) (k : Kernel) : List UInt8 :=
  match c with
  | .write fd buf len => if fd = stdout then loadBytes k.mem (userBuf buf k) len.toNat else []
  | _ => []

/-- An event that the running process does not make. -/
def Event.isInterrupt : Event → Bool
  | .timer => true
  | .key _ => true
  | _ => false

/-- The kernel under process `p`. A system call saves its number with the other registers, so that
is what it returns unless the handler stores something else. -/
def processSystem (p : Node) : System userInterface Process Event Stop where
  ready s := s.kernel.current = p ∧ s.kernel.waiting = none
  start o s :=
    match o with
    | .load _ => .ok s
    | .store a b => do
      let k ← step s.kernel (.store a b)
      .ok { s with kernel := k }
    | .sys c => do
      let k ← step (s.kernel.setEax c.number) (.sys c)
      .ok ⟨k, s.out ++ printed c s.kernel⟩
  result o s :=
    match o with
    | .load a => some (s.kernel.mem (dataAddr p a s.kernel))
    | .store _ _ => some ()
    | .sys _ => if s.kernel.waiting = none then some (s.kernel.tf p .eax) else none
  env s e :=
    if e.isInterrupt ∨ s.kernel.current ≠ p then do
      let k ← step s.kernel e
      .ok { s with kernel := k }
    else .error .disabled
  disabled := .disabled

/-! ### The machine of a terminal program -/

/-- Memory, the characters still to be read, and the text written. -/
structure Stream where
  mem : ℕ → UInt8
  input : List UInt8
  written : List UInt8

/-- The operations of a terminal program that keeps to the addresses `own`. -/
def UserOp.onStream (own : ℕ → Bool) : UserOp → Bool
  | .load a => own a
  | .store a _ => own a
  | .sys (.read fd a len) => fd = stdin ∧ len = 1 ∧ own a
  | .sys (.write fd a len) => fd = stdout ∧ 0 ≤ len ∧ ∀ i < len.toNat, own (a + i)
  | .sys _ => false

/-- What they do. A read returns its number, and so does a write to `stdout`. -/
def streamEffect (o : UserOp) (σ : Stream) : Except UserStop (UserOp.Res o × Stream) :=
  match o with
  | .load a => .ok (σ.mem a, σ)
  | .store a b => .ok ((), { σ with mem := Function.update σ.mem a b })
  | .sys (.read _ a _) =>
    match σ.input with
    | [] => .error .wait
    | c :: input => .ok (wordOf 3, { σ with mem := Function.update σ.mem a c, input := input })
  | .sys (.write _ a len) =>
    .ok (wordOf 4, { σ with written := σ.written ++ (List.range len.toNat).map fun i => σ.mem (a + i) })
  | .sys _ => .error .pointer

/-- The meaning of a terminal program. -/
def streamMeaning (own : ℕ → Bool) : Meaning userInterface Stream UserStop := fun o σ =>
  if UserOp.onStream own o then streamEffect o σ else .error .pointer

/-- On the stream, an operation has its effect. -/
theorem streamMeaning_eq {own : ℕ → Bool} {o : UserOp} (h : UserOp.onStream own o) (σ : Stream) :
    streamMeaning own o σ = streamEffect o σ := if_pos h

/-- An operation that succeeds is one of a terminal program. -/
theorem onStream_of_streamMeaning {own : ℕ → Bool} {o : UserOp} {σ : Stream}
    {r : UserOp.Res o × Stream} (h : streamMeaning own o σ = .ok r) :
    UserOp.onStream own o ∧ streamEffect o σ = .ok r := by
  simp only [streamMeaning] at h
  split_ifs at h with ho
  exact ⟨ho, h⟩

/-! ### Where the memory of a process is -/

variable {p : Node} {own : ℕ → Bool} {k k' : Kernel} {Q : Queues} {t g : List UInt8} {a b : ℕ}
  {mem : ℕ → UInt8}

/-- The physical address of address `a` of process `p`. -/
def phys (p : Node) (a : ℕ) : ℕ := ((if p = .pcb 1 then 0 else Child_Data_Offst) + a) % 2 ^ 32

/-- Two addresses of a process are two places in memory. -/
theorem phys_inj (ha : a < 2 ^ 32) (hb : b < 2 ^ 32) (h : phys p a = phys p b) : a = b := by
  unfold phys at h
  have hoff : Child_Data_Offst = 0x200000 := rfl
  split_ifs at h <;> omega

/-- Byte `i` behind address `a`. -/
theorem phys_add (p : Node) (a i : ℕ) : (phys p a + i) % 2 ^ 32 = phys p (a + i) := by
  unfold phys
  omega

/-- The data segment of a process in a state that is sound. -/
theorem dataAddr_eq_phys (hb : Based k Q) (hp : p ∈ procs ∧ p ∉ Q .free) (a : ℕ) :
    dataAddr p a k = phys p a := by
  unfold dataAddr phys
  rw [hb p hp.1 hp.2]

/-- The kernel looks for the buffers of the first process and of its first child in the right place. -/
theorem userBuf_eq_phys (hs : Sound k Q) (hp : p ∈ procs ∧ p ∉ Q .free)
    (h12 : p = .pcb 1 ∨ p = .pcb 2) (hc : k.current = p) (ha : a < 2 ^ 32) :
    userBuf a k = phys p a := by
  subst hc
  unfold userBuf phys
  rcases h12 with h1 | h2
  · rw [pid_eq hs hp h1, if_neg (by decide), if_pos h1, Nat.zero_add, Nat.mod_eq_of_lt ha]
  · rw [pid_eq hs hp h2, if_pos rfl, if_neg (by rw [h2]; decide), Nat.add_comm]

/-! ### What is still to be read -/

/-- The characters in `BUF` that no read has got yet. -/
def unread (k : Kernel) : List UInt8 := slice k.key k.bufOut.toNat (k.bufIn - k.bufOut).toNat

/-- The keys that were not handed out. -/
theorem Unread.unread_eq (h : Unread k t g) : unread k = t.drop g.length := by
  obtain ⟨d, hd⟩ := Nat.exists_eq_add_of_le h.le
  have hin : (k.bufIn - k.bufOut).toNat = d := by
    rw [h.inIdx, h.outIdx, hd]
    omega
  have hall : g ++ slice k.key g.length d = t := by
    have hcut := slice_append (f := k.key) (i := 0) (n := g.length) (m := d)
    rw [Nat.zero_add, h.out, ← hd, h.all] at hcut
    exact hcut.symm
  calc unread k = slice k.key g.length d := by rw [unread, hin, h.outIdx, Int.toNat_natCast]
    _ = (g ++ slice k.key g.length d).drop g.length := (List.drop_left ..).symm
    _ = t.drop g.length := by rw [hall]

/-- A read of one character waits if there is none, and takes the first one otherwise. -/
theorem Unread.poll_one {buf : ℕ} (h : Unread k t g) (hk : pollRead buf 1 k = .ok k') :
    (t.drop g.length = [] ∧ k' = { k with intrNesting := true, waiting := some (buf, 1) }) ∨
      ∃ c rest, t.drop g.length = c :: rest ∧ t.drop (g ++ [c]).length = rest ∧
        Unread k' t (g ++ [c]) ∧ k' = { k with
          intrNesting := false
          waiting := none
          mem := Function.update k.mem buf c
          bufOut := g.length + 1 } := by
  have hmax : (g.length : ℤ) + 1 ≤ 2 ^ 31 := by
    have hsize : t.length ≤ 1024 := h.size
    have hle := h.le
    omega
  rw [h.pollRead_eq (by decide) hmax] at hk
  split_ifs at hk with hlt
  · obtain rfl := Except.ok.inj hk
    exact .inl ⟨List.drop_eq_nil_of_le (by omega), rfl⟩
  · obtain rfl := Except.ok.inj hk
    right
    have hg : g.length < t.length := by omega
    have hc : t[g.length] = k.key g.length := by
      have hget : (slice k.key 0 t.length)[g.length]? = t[g.length]? := by rw [h.all]
      rw [List.getElem?_eq_getElem hg] at hget
      simpa [slice, hg] using hget.symm
    refine ⟨k.key g.length, t.drop (g.length + 1), ?_, ?_, ?_, rfl⟩
    · rw [← hc]
      exact List.drop_eq_getElem_cons hg
    · rw [List.length_append]
      rfl
    · refine ⟨h.inIdx, ?_, ?_, h.size, h.all, ?_⟩
      · rw [List.length_append]
        rfl
      · rw [List.length_append]
        exact hg
      · rw [List.length_append, List.length_singleton, slice_succ, Nat.zero_add, h.out]

end OsLab
