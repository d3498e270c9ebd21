import OsLab.Files.Access
import OsLab.Memory.Buffers
import OsLab.Memory.Images

/-!
# User pointers

A pointer of a process is an address in its data segment, and the handlers use it in the kernel's,
whose base is 0. `read_aux` and `write_aux` add `Child_Data_Offst` for the process with pid 2, the
handlers that take a path add nothing.

* `Touches`: the bytes behind its pointer that a call uses, and `kernelAddr`: where it looks for them.
  `stores_touched` and `sees_touched` say that a call uses no other memory.
* `AwayFromKernel`: the assumption that the model makes on user pointers, and that no function of the
  kernel checks. `doSyscall_flat`, `resume_flat` and `userStore_flat` say what it is good for.
* `based_run`: in every state that is reached, the first process has its data segment at base 0 and
  every other process at `0x200000`.
* **`pointers_resolved_iff`**: so a call uses the caller's memory exactly if the first process makes
  it, or it is a `read` or a `write` of the process with pid 2.
* `child_path_astray`: the path of a child is looked for in the memory of its parent.
-/

namespace OsLab

open OsLab.Lib

variable {k k' : Kernel} {Q : Queues} {e : Event} {es : List Event} {img : Image} {c : Syscall}
  {p a j n : ℕ} {mem m : ℕ → UInt8}

/-! ### What a call uses -/

/-- The pointer of a call on files. -/
def Syscall.pointer : Syscall → Option ℕ
  | .read _ p _ | .write _ p _ | .openPath p _ | .remove p | .ls p | .cat p => some p
  | _ => none

/-- The call is one of the two that translate their pointer. -/
def Syscall.translates : Syscall → Bool
  | .read .. | .write .. => true
  | _ => false

/-- The address at which the handler looks for byte `j` behind pointer `p`. -/
def kernelAddr (k : Kernel) (c : Syscall) (p j : ℕ) : ℕ :=
  ((if c.translates then userBuf p k else p) + j) % 2 ^ 32

/-- The address of a byte of a buffer. -/
theorem kernelAddr_translated (h : c.translates = true) :
    kernelAddr k c p j = (userBuf p k + j) % 2 ^ 32 := by
  rw [kernelAddr, if_pos h]

/-- The address of a byte of a path. -/
theorem kernelAddr_untranslated (h : c.translates = false) : kernelAddr k c p j = (p + j) % 2 ^ 32 := by
  rw [kernelAddr, if_neg (by simp [h])]

/-- The handler uses byte `j` behind its pointer: of a path all bytes up to the NUL, of a buffer the
bytes that the loop comes to. A read of `stdin` uses them when the keys are there. -/
def Touches (k : Kernel) (j : ℕ) : Syscall → Prop
  | .openPath p _ | .remove p | .ls p | .cat p => ∀ i < j, k.mem ((p + i) % 2 ^ 32) ≠ 0
  | .write fd buf len => j < len.toNat ∧
      if fd = stdout then ∃ s, writeScreen k (userBuf buf k) j 0 k.screen = .ok s
      else ∃ s d block, slotOf fd k = .ok s ∧
        i32 (len + (k.sysFileTable s).offset) < MAX_FILE_SZ_KB * 1024 ∧
        k.fs.inodeAt (k.sysFileTable s).inodeIndex = .ok d ∧
        writeLoop (bufByte k (userBuf buf k)) (k.sysFileTable s).offset (j + 1) 0 d.block = .ok block
  | .read fd _ len => j < len.toNat ∧ (fd ≠ stdin → ∃ s d bytes, slotOf fd k = .ok s ∧
        k.fs.inodeAt (k.sysFileTable s).inodeIndex = .ok d ∧
        readLoop d (k.sysFileTable s).offset (j + 1) 0 = .ok bytes ∧ j < bytes.length)
  | _ => False

/-! ### A call stores to these bytes only -/

/-- The loop of `readF` comes to every byte that it returns. -/
theorem readLoop_reaches {d : Inode} {o : ℤ} {i : ℕ} {bytes : List UInt8}
    (h : readLoop d o n i = .ok bytes) (hj : j < bytes.length) :
    j < n ∧ ∃ bytes', readLoop d o (j + 1) i = .ok bytes' ∧ j < bytes'.length := by
  induction n generalizing i j bytes with
  | zero =>
    obtain rfl := Except.ok.inj h
    simp at hj
  | succ n ih =>
    rw [readLoop] at h ⊢
    by_cases hlt : wordOf (i + o) < d.filesz
    · rw [if_pos hlt] at h ⊢
      dsimp only at h ⊢
      split_ifs at h ⊢ with hin
      obtain ⟨rest, hrest, h⟩ := bind_eq_ok.mp h
      obtain rfl := Except.ok.inj h
      cases j with
      | zero => exact ⟨by omega, [d.block (i32 (i + o)).toNat], rfl, by simp⟩
      | succ j =>
        obtain ⟨hn, bytes', hb, hlen⟩ := ih hrest (by simpa using hj)
        exact ⟨by omega, _, by rw [hb, ok_bind], by simpa using hlen⟩
    · rw [if_neg hlt] at h
      obtain rfl := Except.ok.inj h
      simp at hj

/-- A translated pointer is a 32-bit address. -/
theorem userBuf_lt (hp : p < 2 ^ 32) : userBuf p k < 2 ^ 32 := by
  unfold userBuf
  split_ifs
  · exact Nat.mod_lt _ (by decide)
  · exact hp

/-- The bytes that are stored at a user buffer. -/
theorem of_storeBytes_ne {bs : List UInt8} {x : ℕ} (ha : a < 2 ^ 32)
    (h : storeBytes mem a bs x ≠ mem x) : ∃ i < bs.length, x = (a + i) % 2 ^ 32 := by
  by_contra hno
  push Not at hno
  exact h (storeBytes_of_ne ha hno)

/-- A read of keys gives as many as it was asked for. -/
theorem length_readKeys {i : ℕ} {keys : List UInt8} (h : readKeys k n i = .ok keys) : keys.length = n := by
  induction n generalizing i keys with
  | zero =>
    obtain rfl := Except.ok.inj h
    rfl
  | succ n ih =>
    rw [readKeys] at h
    split_ifs at h
    obtain ⟨rest, hrest, h⟩ := bind_eq_ok.mp h
    obtain rfl := Except.ok.inj h
    rw [List.length_cons, ih hrest]

/-- The end of a read of `stdin` stores the bytes of its buffer. -/
theorem pollRead_stores {buf x : ℕ} {len : ℤ} (ha : buf < 2 ^ 32) (h : pollRead buf len k = .ok k')
    (hx : k'.mem x ≠ k.mem x) : ∃ i < len.toNat, x = (buf + i) % 2 ^ 32 := by
  unfold pollRead at h
  split_ifs at h
  · obtain rfl := Except.ok.inj h
    exact absurd rfl hx
  · obtain ⟨keys, hkeys, h⟩ := bind_eq_ok.mp h
    obtain rfl := Except.ok.inj h
    have hlen := length_readKeys hkeys
    rw [← hlen]
    exact of_storeBytes_ne ha hx

/-- Only a read stores to memory. -/
theorem mem_of_not_read (hp : c.pointer = some p) (hread : ∀ fd buf len, c ≠ .read fd buf len)
    (h : doSyscall k c = .ok k') : k'.mem = k.mem := by
  cases c with
  | read fd buf len => exact absurd rfl (hread fd buf len)
  | write fd buf len =>
    rw [doSyscall, writeAux] at h
    by_cases hout : fd = stdout
    · rw [if_pos hout] at h
      obtain ⟨s, -, h⟩ := bind_eq_ok.mp h
      obtain rfl := Except.ok.inj h
      rfl
    · rw [if_neg hout] at h
      simp only [bind_eq_ok] at h
      obtain ⟨s, -, r, -, h⟩ := h
      obtain rfl := Except.ok.inj h
      rfl
  | openPath q flags =>
    simp only [doSyscall, openAux, openLookup, openSlot, bind_eq_ok] at h
    obtain ⟨str, -, r, ⟨e, -, q, -, i, -, hr⟩, u, -, h⟩ := h
    obtain rfl := Except.ok.inj hr
    obtain rfl := Except.ok.inj h
    rfl
  | remove q =>
    simp only [doSyscall, removeAux, bind_eq_ok] at h
    obtain ⟨-, -, r, -, h⟩ := h
    obtain rfl := Except.ok.inj h
    rfl
  | ls q =>
    simp only [doSyscall, lsAux, bind_eq_ok] at h
    obtain ⟨_, _, _, _, _, _, _, _, _, _, h⟩ := h
    obtain rfl := Except.ok.inj h
    rfl
  | cat q =>
    simp only [doSyscall, catAux, bind_eq_ok] at h
    obtain ⟨_, _, _, _, _, _, _, _, _, _, h⟩ := h
    obtain rfl := Except.ok.inj h
    rfl
  | _ => cases hp

/-- **A call stores** to bytes that it touches, where it looks for them. -/
theorem stores_touched (hp : c.pointer = some p) (hlt : p < 2 ^ 32) (h : doSyscall k c = .ok k')
    (hx : k'.mem a ≠ k.mem a) : ∃ j, Touches k j c ∧ a = kernelAddr k c p j := by
  cases c with
  | read fd buf len =>
    obtain rfl := Option.some.inj hp
    rw [doSyscall, readAux] at h
    by_cases hin : fd = stdin
    · rw [if_pos hin] at h
      obtain ⟨j, hj, rfl⟩ := pollRead_stores (userBuf_lt hlt) h hx
      exact ⟨j, ⟨hj, fun hne => absurd hin hne⟩, (kernelAddr_translated rfl).symm⟩
    · rw [if_neg hin] at h
      simp only [readFile, readF, bind_eq_ok] at h
      obtain ⟨s, hs, bytes, ⟨d, hd, hbytes⟩, d', -, h⟩ := h
      obtain rfl := Except.ok.inj h
      obtain ⟨j, hj, rfl⟩ := of_storeBytes_ne (userBuf_lt hlt) hx
      obtain ⟨hn, hreach⟩ := readLoop_reaches hbytes hj
      obtain ⟨bytes', hb, hlen⟩ := hreach
      exact ⟨j, ⟨hn, fun _ => ⟨s, d, bytes', hs, hd, hb, hlen⟩⟩, (kernelAddr_translated rfl).symm⟩
  | _ => exact absurd (congrFun (mem_of_not_read hp (fun _ _ _ h => by cases h) h) a) hx

/-! ### A call sees these bytes only -/

/-- A string depends on the bytes up to its NUL. -/
theorem cstringLoop_congr (ha : a < 2 ^ 32)
    (h : ∀ j, (∀ i < j, mem ((a + i) % 2 ^ 32) ≠ 0) → m ((a + j) % 2 ^ 32) = mem ((a + j) % 2 ^ 32)) :
    cstringLoop m n a = cstringLoop mem n a := by
  induction n generalizing a with
  | zero => rfl
  | succ n ih =>
    have h0 := h 0 (by simp)
    rw [Nat.add_zero, Nat.mod_eq_of_lt ha] at h0
    rw [cstringLoop, cstringLoop, h0]
    split_ifs with hz
    · rfl
    · rw [ih (Nat.mod_lt _ (by decide))]
      intro j hj
      have hshift : ∀ i, ((a + 1) % 2 ^ 32 + i) % 2 ^ 32 = (a + (i + 1)) % 2 ^ 32 := by omega
      rw [hshift]
      refine h (j + 1) ?_
      intro i hi
      cases i with
      | zero => rwa [Nat.add_zero, Nat.mod_eq_of_lt ha]
      | succ i =>
        rw [← hshift]
        exact hj i (by omega)

/-- The string at an address depends on its own bytes only. -/
theorem cstring_congr (ha : a < 2 ^ 32)
    (h : ∀ j, (∀ i < j, k.mem ((a + i) % 2 ^ 32) ≠ 0) → m ((a + j) % 2 ^ 32) = k.mem ((a + j) % 2 ^ 32)) :
    cstring { k with mem := m } a = cstring k a := by
  unfold cstring
  rw [cstringLoop_congr ha h]

/-- What is printed depends on the bytes that the loop comes to. -/
theorem writeScreen_congr {buf i : ℕ} {s : Screen}
    (h : ∀ j < n, (∃ s', writeScreen k buf j i s = .ok s') →
      m ((buf + (i + j)) % 2 ^ 32) = k.mem ((buf + (i + j)) % 2 ^ 32)) :
    writeScreen { k with mem := m } buf n i s = writeScreen k buf n i s := by
  induction n generalizing i s with
  | zero => rfl
  | succ n ih =>
    have h0 : bufByte { k with mem := m } buf i = bufByte k buf i := h 0 (by omega) ⟨s, rfl⟩
    rw [writeScreen, writeScreen, h0]
    cases hput : screenPut (bufByte k buf i) s with
    | error x => rfl
    | ok s1 =>
      rw [ok_bind, ok_bind]
      refine ih fun j hj hreach => ?_
      have hnext : i + 1 + j = i + (j + 1) := by omega
      rw [hnext]
      refine h (j + 1) (by omega) ?_
      rwa [writeScreen, hput, ok_bind]

/-- What is written to a file depends on the bytes that the loop comes to. -/
theorem writeLoop_congr {buf buf' : ℕ → UInt8} {o : ℤ} {i : ℕ} {block : ℕ → UInt8}
    (h : ∀ j < n, (∃ b, writeLoop buf o (j + 1) i block = .ok b) → buf' (i + j) = buf (i + j)) :
    writeLoop buf' o n i block = writeLoop buf o n i block := by
  induction n generalizing i block with
  | zero => rfl
  | succ n ih =>
    rw [writeLoop, writeLoop]
    by_cases hin : 0 ≤ i32 (i + o) ∧ i32 (i + o) < MAX_FILE_SZ_KB * 1024
    · have h0 : buf' i = buf i := by
        refine h 0 (by omega) ?_
        rw [writeLoop]
        rw [if_pos hin]
        exact ⟨_, rfl⟩
      rw [if_pos hin, if_pos hin, h0]
      refine ih fun j hj hreach => ?_
      have hnext : i + 1 + j = i + (j + 1) := by omega
      rw [hnext]
      refine h (j + 1) (by omega) ?_
      rw [writeLoop]
      rwa [if_pos hin]
    · rw [if_neg hin, if_neg hin]

/-- The outcome of a call, with another memory. -/
def withMem (m : ℕ → UInt8) (x : Except Stop Kernel) : Except Stop Kernel := do
  let k ← x
  .ok { k with mem := m }

/-- Step by step: a part that does not look at the memory comes out of it. -/
theorem withMem_bind {α : Type} {x : Except Stop α} {f f' : α → Except Stop Kernel}
    (h : ∀ r, x = .ok r → f' r = withMem m (f r)) : (x >>= f') = withMem m (x >>= f) := by
  cases x with
  | error e => rfl
  | ok r => exact h r rfl

/-- The end of `open_aux` does not look at the memory. -/
theorem openSlot_withMem (index : ℤ) :
    openSlot index { k with mem := m } = withMem m (openSlot index k) := by
  unfold openSlot assert
  dsimp only
  by_cases hfull : ¬(getAvlSystemFile k = -1 ∨ getAvlFilepointer k = -1)
  · rw [if_pos hfull, if_pos (by exact hfull)]
    rfl
  · rw [if_neg hfull, if_neg (by exact hfull)]
    rfl

/-- Nor does the part before it, once it has the path. -/
theorem openPath_withMem (str : List UInt8) :
    (openLookup str { k with mem := m } >>= fun r => openSlot r.1 r.2) =
      withMem m (openLookup str k >>= fun r => openSlot r.1 r.2) := by
  unfold openLookup
  dsimp only
  cases isFLExist k.fs str k.path with
  | error x => rfl
  | ok e =>
    simp only [ok_bind]
    cases (if e.1 = true then .ok (k.fs, e.2) else makeFL k.fs str none e.2 :
      Except Stop (FileSystem × PathBuf)) with
    | error x => rfl
    | ok r =>
      simp only [ok_bind]
      cases findCurrentFLPos r.1 str r.2 with
      | error x => rfl
      | ok i =>
        simp only [ok_bind]
        exact openSlot_withMem (k := { k with fs := r.1, path := i.2 }) i.1

/-- The part of `write_aux`, which reads its buffer as far as the loop of the screen or the file
comes. -/
theorem writeAux_withMem {fd len : ℤ} {buf : ℕ}
    (h : ∀ j, Touches k j (.write fd buf len) →
      bufByte { k with mem := m } (userBuf buf k) j = bufByte k (userBuf buf k) j) :
    writeAux fd buf len { k with mem := m } = withMem m (writeAux fd buf len k) := by
  have hbuf : userBuf buf { k with mem := m } = userBuf buf k := rfl
  rw [writeAux, writeAux, hbuf]
  dsimp only
  by_cases hout : fd = stdout
  · have hscreen : writeScreen { k with mem := m } (userBuf buf k) len.toNat 0 k.screen =
        writeScreen k (userBuf buf k) len.toNat 0 k.screen := by
      apply writeScreen_congr
      intro j hj hreach
      rw [Nat.zero_add]
      exact h j ⟨hj, by rwa [if_pos hout]⟩
    rw [if_pos hout, if_pos hout, hscreen]
    exact withMem_bind fun s _ => rfl
  · rw [if_neg hout, if_neg hout]
    refine withMem_bind fun s hs => ?_
    have hwrite : writeF k.fs (k.sysFileTable s).inodeIndex
        (bufByte { k with mem := m } (userBuf buf k)) len (k.sysFileTable s).offset =
        writeF k.fs (k.sysFileTable s).inodeIndex (bufByte k (userBuf buf k)) len
          (k.sysFileTable s).offset := by
      unfold writeF assert
      by_cases hlen : i32 (len + (k.sysFileTable s).offset) < MAX_FILE_SZ_KB * 1024
      · rw [if_pos hlen, ok_bind, ok_bind]
        cases hd : k.fs.inodeAt (k.sysFileTable s).inodeIndex with
        | error x => rfl
        | ok d =>
          rw [ok_bind, ok_bind, writeLoop_congr]
          intro j hj hreach
          obtain ⟨b, hb⟩ := hreach
          rw [Nat.zero_add]
          exact h j ⟨hj, by rw [if_neg hout]; exact ⟨s, d, b, hs, hlen, hd, hb⟩⟩
      · rw [if_neg hlen, error_bind, error_bind]
    rw [hwrite]
    exact withMem_bind fun r _ => rfl

/-- **A call sees** only bytes that it touches: with any other memory that agrees there it does the
same. -/
theorem sees_touched (hp : c.pointer = some p) (hread : ∀ fd buf len, c ≠ .read fd buf len)
    (hlt : p < 2 ^ 32) (hm : ∀ j, Touches k j c → m (kernelAddr k c p j) = k.mem (kernelAddr k c p j)) :
    doSyscall { k with mem := m } c = withMem m (doSyscall k c) := by
  -- the address of a path, spelled out
  have hpath : c.translates = false → ∀ j, Touches k j c →
      m ((p + j) % 2 ^ 32) = k.mem ((p + j) % 2 ^ 32) := by
    intro hc j hj
    have h := hm j hj
    rwa [kernelAddr_untranslated hc] at h
  cases c with
  | read fd buf len => exact absurd rfl (hread fd buf len)
  | write fd buf len =>
    obtain rfl := Option.some.inj hp
    rw [doSyscall, doSyscall]
    apply writeAux_withMem
    intro j hj
    have h := hm j hj
    rwa [kernelAddr_translated rfl] at h
  | openPath q flags =>
    obtain rfl := Option.some.inj hp
    rw [doSyscall, doSyscall, openAux, openAux, cstring_congr hlt (hpath rfl)]
    exact withMem_bind fun str _ => openPath_withMem str
  | remove q =>
    obtain rfl := Option.some.inj hp
    rw [doSyscall, doSyscall, removeAux, removeAux, cstring_congr hlt (hpath rfl)]
    exact withMem_bind fun str _ => withMem_bind fun r _ => rfl
  | ls q =>
    obtain rfl := Option.some.inj hp
    rw [doSyscall, doSyscall, lsAux, lsAux, cstring_congr hlt (hpath rfl)]
    exact withMem_bind fun str _ => withMem_bind fun r _ => withMem_bind fun dir _ =>
      withMem_bind fun s _ => withMem_bind fun s' _ => rfl
  | cat q =>
    obtain rfl := Option.some.inj hp
    rw [doSyscall, doSyscall, catAux, catAux, cstring_congr hlt (hpath rfl)]
    exact withMem_bind fun str _ => withMem_bind fun r _ => withMem_bind fun d _ =>
      withMem_bind fun s _ => withMem_bind fun s' _ => rfl
  | _ => cases hp

/-! ### The kernel's own objects -/

section Flat

variable {own : ℕ → Prop} [DecidablePred own] {kern : ℕ → UInt8}

/-- **The assumption on user memory**: no byte that an event uses behind a pointer of the user belongs
to the kernel, whose objects take up the addresses `own`. That is the byte of a store, the bytes
behind the pointer of a call, and the buffer of the read that waits when an interrupt comes. The
handlers take any address and check none; the model keeps the kernel's objects out of `mem`, and so
speaks of the runs whose events are away from them. -/
def AwayFromKernel (own : ℕ → Prop) (k : Kernel) : Event → Prop
  | .store a _ => ¬own (dataAddr k.current a k)
  | .sys c => ∀ p j, c.pointer = some p → Touches k j c → ¬own (kernelAddr k c p j)
  | .timer | .key _ => ∀ buf len, k.waiting = some (buf, len) →
      ∀ i < len.toNat, ¬own ((buf + i) % 2 ^ 32)

/-- The outcome of a step, in the memory that holds the kernel's objects too. -/
def layKernel (own : ℕ → Prop) [DecidablePred own] (kern : ℕ → UInt8) (x : Except Stop Kernel) :
    Except Stop Kernel := do
  let k ← x
  .ok { k with mem := flat own kern k.mem }

/-- The keys that are read do not depend on the memory. -/
theorem readKeys_withMem {i : ℕ} : readKeys { k with mem := m } n i = readKeys k n i := by
  induction n generalizing i with
  | zero => rfl
  | succ n ih =>
    rw [readKeys, readKeys, ih]

/-- The end of a read of `stdin`. -/
theorem pollRead_flat {buf : ℕ} {len : ℤ} (ha : buf < 2 ^ 32)
    (h : ∀ i < len.toNat, ¬own ((buf + i) % 2 ^ 32)) :
    pollRead buf len { k with mem := flat own kern k.mem } =
      layKernel own kern (pollRead buf len k) := by
  unfold pollRead
  dsimp only
  split_ifs with hwait
  · rfl
  · have hkeys : readKeys { k with mem := flat own kern k.mem, intrNesting := false, waiting := none }
        len.toNat 0 = readKeys { k with intrNesting := false, waiting := none } len.toNat 0 :=
      readKeys_withMem (k := { k with intrNesting := false, waiting := none })
    rw [hkeys]
    cases hread : readKeys { k with intrNesting := false, waiting := none } len.toNat 0 with
    | error x => rfl
    | ok keys =>
      rw [ok_bind, ok_bind, storeBytes_flat ha]
      · rfl
      · rwa [length_readKeys hread]

/-- **An interrupt** lets a waiting read go on with the kernel's objects in place. -/
theorem resume_flat (hbuf : ∀ buf len, k.waiting = some (buf, len) → buf < 2 ^ 32)
    (h : AwayFromKernel own k .timer) :
    resume { k with mem := flat own kern k.mem } = layKernel own kern (resume k) := by
  obtain hw | ⟨r, hw⟩ := Option.eq_none_or_eq_some k.waiting
  · have hflat : resume { k with mem := flat own kern k.mem } =
        .ok { k with mem := flat own kern k.mem } := resume_of_none hw
    rw [resume_of_none hw, hflat]
    rfl
  · have hflat : resume { k with mem := flat own kern k.mem } =
        pollRead r.1 r.2 { k with mem := flat own kern k.mem } := resume_of_some hw
    rw [resume_of_some hw, hflat]
    exact pollRead_flat (hbuf _ _ hw) (h _ _ hw)

/-- The part of `read_aux` for a file. -/
theorem readFile_flat {fd len : ℤ} {buf : ℕ} (hlt : buf < 2 ^ 32)
    (h : AwayFromKernel own k (.sys (.read fd buf len))) :
    readFile fd (userBuf buf k) len { k with mem := flat own kern k.mem } =
      layKernel own kern (readFile fd (userBuf buf k) len k) := by
  unfold readFile readF
  dsimp only
  have hslot : slotOf fd { k with mem := flat own kern k.mem } = slotOf fd k := rfl
  rw [hslot]
  cases hs : slotOf fd k with
  | error x => rfl
  | ok s =>
    rw [ok_bind, ok_bind]
    cases hd : k.fs.inodeAt (k.sysFileTable s).inodeIndex with
    | error x => rfl
    | ok d =>
      simp only [ok_bind]
      cases hbytes : readLoop d (k.sysFileTable s).offset len.toNat 0 with
      | error x => rfl
      | ok bytes =>
        rw [ok_bind, ok_bind, storeBytes_flat (userBuf_lt hlt)]
        · rfl
        · intro j hj
          obtain ⟨hn, bytes', hb, hlen⟩ := readLoop_reaches hbytes hj
          rw [← kernelAddr_translated (c := .read fd buf len) rfl]
          exact h buf j rfl ⟨hn, fun _ => ⟨s, d, bytes', hs, hd, hb, hlen⟩⟩

/-- **A call** does the same with the kernel's objects in place, and leaves them as they are. -/
theorem doSyscall_flat (hp : c.pointer = some p) (hlt : p < 2 ^ 32)
    (h : AwayFromKernel own k (.sys c)) :
    doSyscall { k with mem := flat own kern k.mem } c = layKernel own kern (doSyscall k c) := by
  by_cases hread : ∃ fd buf len, c = .read fd buf len
  · obtain ⟨fd, buf, len, rfl⟩ := hread
    obtain rfl := Option.some.inj hp
    have hbuf : userBuf buf { k with mem := flat own kern k.mem } = userBuf buf k := rfl
    rw [doSyscall, doSyscall, readAux, readAux, hbuf]
    by_cases hin : fd = stdin
    · rw [if_pos hin, if_pos hin]
      apply pollRead_flat (userBuf_lt hlt)
      intro j hj
      rw [← kernelAddr_translated (c := .read fd buf len) rfl]
      exact h buf j rfl ⟨hj, fun hne => absurd hin hne⟩
    · rw [if_neg hin, if_neg hin]
      exact readFile_flat hlt h
  · push Not at hread
    rw [sees_touched hp hread hlt fun j hj => flat_of_not_own (h p j hp hj)]
    cases hk : doSyscall k c with
    | error x => rfl
    | ok k' =>
      have hmem := mem_of_not_read hp hread hk
      change Except.ok { k' with mem := flat own kern k.mem } =
        Except.ok { k' with mem := flat own kern k'.mem }
      rw [hmem]

/-- **A store of the user** too. -/
theorem userStore_flat {b : UInt8} (h : AwayFromKernel own k (.store a b)) :
    userStore a b { k with mem := flat own kern k.mem } =
      { userStore a b k with mem := flat own kern (userStore a b k).mem } := by
  have hupdate : Function.update (flat own kern k.mem) (dataAddr k.current a k) b =
      flat own kern (Function.update k.mem (dataAddr k.current a k) b) := update_flat h b
  unfold userStore
  rw [← hupdate]
  rfl

end Flat

/-! ### Where the processes live -/

/-- The first process is at base 0, the other processes are at `0x200000`. -/
def Based (k : Kernel) (Q : Queues) : Prop :=
  ∀ p ∈ procs, p ∉ Q .free →
    segBase (k.tf p .ds) = if p = .pcb 1 then 0 else Child_Data_Offst

/-- After start-up only the first process has a base. -/
theorem based_boot (hb : boot img = .ok k) : Based k startQueues := by
  intro p hp hfree
  obtain rfl := (mem_startQueues p hp).resolve_right hfree
  rw [if_pos rfl]
  exact onFirstImage_boot hb _

/-- **The child of a fork** is not in the place of the first process. -/
theorem child_ne_first (h : Placed k Q .running) (hc : k.current ≠ .idle) : Node.pcb k.pNum ≠ .pcb 1 := by
  intro heq
  have hone : k.pNum = 1 := Node.pcb.inj heq
  have hnum : k.pNum + (Q .free).length = 10 := by simpa using h.pNum
  have h8 := h.length_free_le hc
  omega

/-- Every event keeps the bases. -/
theorem based_step (h : Sound k Q) (hb : Based k Q) (hk : step k e = .ok k') :
    Based k' (stepQueues k Q e) := by
  intro p hp hfree
  by_cases hc : e = .sys .fork → p ≠ .pcb k.pNum
  · rw [tf_of_step h hk (by simp) hc]
    refine hb p hp fun hold => hfree ?_
    by_cases he : e = .sys .fork
    · subst he
      have hne := hc rfl
      change p ∈ forkQueues k Q .free
      rw [forkQueues, Queues.push_of_ne _ _ (by simp), Function.update_self]
      exact (List.mem_erase_of_ne hne).mpr hold
    · exact mem_stepQueues_free he hold
  · push Not at hc
    obtain ⟨rfl, rfl⟩ := hc
    obtain ⟨hu, -, -, hds, -⟩ := fork_spec h hk
    rw [if_neg (child_ne_first h.placed hu.1)]
    exact hds

/-- **In every state that is reached** the data segment of the caller follows from its pid. -/
theorem based_run (hk : runFrom img es = .ok k) (hu : userMode k) :
    k.current ∈ procs ∧
      segBase (k.tf k.current .ds) = if (k.pcb k.current).pid = 1 then 0 else Child_Data_Offst := by
  have hinv : ∃ Q, Sound k Q ∧ Based k Q := by
    refine runFrom_invariant (P := fun k => ∃ Q, Sound k Q ∧ Based k Q) hk ?_ ?_
    · intro k0 hb
      exact ⟨_, sound_boot hb, based_boot hb⟩
    · rintro k1 k2 e ⟨Q, hs, hb⟩ h2
      exact ⟨_, (sound_step hs h2).1, based_step hs hb h2⟩
  obtain ⟨Q, hs, hb⟩ := hinv
  have hproc := hs.placed.current_mem hu.1
  refine ⟨hproc, ?_⟩
  rw [hb _ hproc (hs.placed.apart .free)]
  obtain ⟨i, -, -, hi⟩ := mem_procs.mp hproc
  have hpid : (k.pcb k.current).pid = i := by
    have hfree := hs.placed.apart .free
    rw [hi] at hproc hfree ⊢
    exact hs.placed.pid i hproc hfree
  rw [hpid, hi]
  simp

/-! ### Whose memory it is -/

/-- The call is of the first process, or it is a `read` or a `write` of the process with pid 2. -/
def ownMemory (k : Kernel) (c : Syscall) : Prop :=
  (k.pcb k.current).pid = 1 ∨ (k.pcb k.current).pid = 2 ∧ c.translates = true

/-- Whether a call uses the caller's memory can be computed. -/
instance (k : Kernel) (c : Syscall) : Decidable (ownMemory k c) := inferInstanceAs (Decidable (_ ∨ _))

/-- A call that uses a byte has a pointer. -/
theorem exists_pointer (h : Touches k j c) : ∃ p, c.pointer = some p := by
  cases c with
  | read fd p len => exact ⟨p, rfl⟩
  | write fd p len => exact ⟨p, rfl⟩
  | openPath p flags => exact ⟨p, rfl⟩
  | remove p => exact ⟨p, rfl⟩
  | ls p => exact ⟨p, rfl⟩
  | cat p => exact ⟨p, rfl⟩
  | _ => exact h.elim

/-- In a state that is reached, a call looks in the caller's memory or it looks elsewhere: which of
the two does not depend on the pointer. -/
theorem kernelAddr_eq_iff (hk : runFrom img es = .ok k) (hu : userMode k) :
    kernelAddr k c p j = dataAddr k.current (p + j) k ↔ ownMemory k c := by
  obtain ⟨-, hbase⟩ := based_run hk hu
  have hoff : Child_Data_Offst = 0x200000 := rfl
  unfold dataAddr ownMemory
  rw [hbase, hoff]
  cases hc : c.translates with
  | false =>
    rw [kernelAddr_untranslated hc]
    split_ifs with h1
    · exact iff_of_true (by rw [Nat.zero_add]) (.inl h1)
    · refine iff_of_false (by omega) ?_
      rintro (h | ⟨-, h⟩)
      · exact h1 h
      · cases h
  | true =>
    rw [kernelAddr_translated hc, userBuf, hoff]
    split_ifs with h2 h1 h1
    · omega
    · exact iff_of_true (by omega) (.inr ⟨h2, rfl⟩)
    · exact iff_of_true (by rw [Nat.zero_add]) (.inl h1)
    · refine iff_of_false (by omega) ?_
      rintro (h | ⟨h, -⟩)
      · exact h1 h
      · exact h2 h

/-- **A call uses the caller's memory** at each byte behind its pointer, in every state that is
reached, exactly if it uses none, the first process makes it, or it is a `read` or a `write` of the
process with pid 2. -/
theorem pointers_resolved_iff (hk : runFrom img es = .ok k) (hu : userMode k) :
    (∀ p j, c.pointer = some p → Touches k j c → kernelAddr k c p j = dataAddr k.current (p + j) k) ↔
      (∀ j, ¬Touches k j c) ∨ ownMemory k c := by
  constructor
  · intro hall
    by_cases huse : ∃ j, Touches k j c
    · obtain ⟨j, hj⟩ := huse
      obtain ⟨p, hp⟩ := exists_pointer hj
      exact .inr ((kernelAddr_eq_iff hk hu).mp (hall p j hp hj))
    · exact .inl fun j hj => huse ⟨j, hj⟩
  · rintro (hno | hown) p j - hj
    · exact absurd hj (hno j)
    · exact (kernelAddr_eq_iff hk hu).mpr hown

/-- The first process, after ten ticks, opens a file. -/
theorem pointers_resolved_iff_open :
    ∃ k, runFrom .blank (.replicate 10 .timer) = .ok k ∧
      ((∀ p j, (Syscall.openPath 0x200300 0).pointer = some p → Touches k j (.openPath 0x200300 0) →
          kernelAddr k (.openPath 0x200300 0) p j = dataAddr k.current (p + j) k) ↔
        (∀ j, ¬Touches k j (.openPath 0x200300 0)) ∨ ownMemory k (.openPath 0x200300 0)) ∧
      ownMemory k (.openPath 0x200300 0) := by
  have hrun : okAnd (runFrom .blank (.replicate 10 .timer)) (fun k => decide (userMode k) &&
      decide (ownMemory k (.openPath 0x200300 0))) = true := by
    decide +kernel
  obtain ⟨k, hk, hp⟩ := okAnd_eq_true.mp hrun
  simp only [Bool.and_eq_true, decide_eq_true_eq] at hp
  exact ⟨k, hk, pointers_resolved_iff hk hp.1, hp.2⟩

/-- **The path of a child** is looked for in the memory of its parent. -/
theorem child_path_astray :
    ¬∀ (img : Image) (es : List Event) (k : Kernel) (c : Syscall) (p j : ℕ),
      runFrom img es = .ok k → userMode k → c.pointer = some p → Touches k j c →
      kernelAddr k c p j = dataAddr k.current (p + j) k := by
  intro hall
  have hrun : okAnd (runFrom .blank (.replicate 10 .timer ++ [.sys .fork] ++ .replicate 10 .timer))
      (fun k => decide (userMode k) && decide (dataAddr k.current 0x200300 k = 0x400300)) = true := by
    decide +kernel
  obtain ⟨k, hk, hp⟩ := okAnd_eq_true.mp hrun
  simp only [Bool.and_eq_true, decide_eq_true_eq] at hp
  have hfirst : Touches k 0 (.openPath 0x200300 0) := fun i hi => absurd hi (Nat.not_lt_zero i)
  have heq := hall _ _ k (.openPath 0x200300 0) _ 0 hk hp.1 rfl hfirst
  rw [kernelAddr_untranslated rfl, Nat.add_zero, hp.2] at heq
  exact absurd heq (by decide)

end OsLab
