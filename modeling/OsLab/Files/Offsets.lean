import OsLab.Files.Bounds

/-!
# The position after a read or a write

`readF` stops at the end of the file; `read_aux` then computes the new position by a rule of its own,
the sum of position and length, cut at the size of the file. The two agree as long as the position is
inside the file and the sum is an `int`. Beyond the end nothing is read and the position is moved
back to the size.

* `InStep`: the condition, for a read and for a write.
* **`offset_moves`**: a call moves the position by what it returns exactly then, and a run of such
  calls by the sum of what they return.
* `read_past_end`: an `lseek` to 5 in an empty file and a read move the position to 0.
-/

namespace OsLab

open OsLab.Lib

variable {k k' : Kernel} {fs : FileSystem} {d : Inode} {o i n s x : ℕ} {c : Syscall} {fd len : ℤ}

/-! ### `readF` at a position that is not negative -/

/-- The loop of `readF` reads up to the end of the file, if that is inside the block. -/
theorem readLoop_cases (h : o + i + n ≤ 2 ^ 32) :
    ((min n (d.filesz.toNat - (o + i)) = 0 ∨ o + i + min n (d.filesz.toNat - (o + i)) ≤ 32768) ∧
      ∃ bytes, readLoop d o n i = .ok bytes ∧ bytes.length = min n (d.filesz.toNat - (o + i))) ∨
    ¬(min n (d.filesz.toNat - (o + i)) = 0 ∨ o + i + min n (d.filesz.toNat - (o + i)) ≤ 32768) ∧
      readLoop d o n i = .error (.wild .datablock) := by
  induction n generalizing i with
  | zero => exact .inl ⟨.inl (Nat.zero_min _), [], rfl, (Nat.zero_min _).symm⟩
  | succ n ih =>
    have hword : (wordOf (i + o)).toNat = i + o := by
      have := toNat_wordOf (x := (i : ℤ) + o) (by omega) (by omega)
      omega
    have hcmp : wordOf (i + o) < d.filesz ↔ i + o < d.filesz.toNat := by
      rw [UInt32.lt_iff_toNat_lt, hword]
    rw [readLoop]
    by_cases hlt : i + o < d.filesz.toNat
    · have hmin : min (n + 1) (d.filesz.toNat - (o + i)) =
          min n (d.filesz.toNat - (o + (i + 1))) + 1 := by omega
      rw [if_pos (hcmp.mpr hlt), hmin]
      dsimp only
      by_cases hin : i + o < 32768
      · have hpos : i32 (i + o) = (i + o : ℕ) := by
          rw [i32_eq_self (by omega) (by omega)]
          omega
        rw [hpos, maxFileSz, if_pos (by omega)]
        rcases ih (i := i + 1) (by omega) with ⟨hfit, bytes, hb, hlength⟩ | ⟨hfit, hb⟩
        · rw [hb, ok_bind]
          exact .inl ⟨.inr (by omega), _, rfl, by rw [List.length_cons, hlength]⟩
        · rw [hb, error_bind]
          exact .inr ⟨by omega, rfl⟩
      · have hout : ¬(0 ≤ i32 (i + o) ∧ i32 (i + o) < MAX_FILE_SZ_KB * 1024) := by
          rw [maxFileSz]
          unfold i32
          omega
        rw [if_neg hout]
        exact .inr ⟨by omega, rfl⟩
    · rw [if_neg (mt hcmp.mp hlt)]
      exact .inl ⟨.inl (by omega), [], rfl, by rw [List.length_nil]; omega⟩

/-- The new position by the rule of `read_aux`, for a file of `F` bytes. -/
def readPosition (F : UInt32) (o len : ℤ) : ℤ :=
  if i32 (o + len) > intOf F then intOf F else i32 (o + len)

/-- The read is from a position inside the file, the sum of position and length is an `int`, and the
bytes read are in the block. -/
def ReadInStep (F : UInt32) (o len : ℤ) : Prop :=
  o ≤ F.toNat ∧ (F.toNat : ℤ) < 2 ^ 31 ∧ o + len < 2 ^ 31 ∧
    (min len (F.toNat - o) = 0 ∨ o + min len (F.toNat - o) ≤ 32768)

/-- Whether a read stays in step can be computed. -/
instance (F : UInt32) (o len : ℤ) : Decidable (ReadInStep F o len) :=
  inferInstanceAs (Decidable (_ ∧ _ ∧ _ ∧ _))

/-- **The two rules of `read_aux`** agree on a read that does not leave the block exactly when it is
in step. -/
theorem readPosition_eq_iff {F : UInt32} {len : ℕ} (ho : (o : ℤ) < 2 ^ 31) (hlen : (len : ℤ) < 2 ^ 31)
    (hblock : min len (F.toNat - o) = 0 ∨ o + min len (F.toNat - o) ≤ 32768) :
    readPosition F o len = o + (min len (F.toNat - o) : ℕ) ↔ ReadInStep F o len := by
  have hF := F.toNat_lt
  unfold readPosition ReadInStep intOf
  by_cases hsmall : F.toNat < 2 ^ 31
  · rw [i32_eq_self (x := (F.toNat : ℤ)) (by omega) (by omega)]
    by_cases hsum : (o : ℤ) + len < 2 ^ 31
    · rw [i32_eq_self (by omega) hsum]
      split_ifs <;> omega
    · have hneg : i32 (o + len) < 0 := by
        unfold i32
        omega
      rw [if_neg (by omega)]
      omega
  · have hneg : i32 (F.toNat : ℤ) < 0 := by
      unfold i32
      omega
    constructor
    · intro h
      split_ifs at h <;> omega
    · omega

/-! ### The calls -/

/-- The descriptor and the length of a call that reads or writes a file. -/
def Syscall.transfer : Syscall → Option (ℤ × ℤ)
  | .read fd _ len => if fd = stdin then none else some (fd, len)
  | .write fd _ len => if fd = stdout then none else some (fd, len)
  | _ => none

/-- What a call through slot `s` should do: a read stores some bytes, a write all of its bytes; it
returns their number, and moves the position by it. -/
def Advances (k : Kernel) (s : ℕ) : Syscall → Prop
  | .read fd buf len => ∃ k' bytes, step k (.sys (.read fd buf len)) = .ok k' ∧
      readF k.fs (k.sysFileTable s).inodeIndex len (k.sysFileTable s).offset = .ok bytes ∧
      k'.mem = storeBytes k.mem (userBuf buf k) bytes ∧
      k'.tf k'.current .eax = wordOf bytes.length ∧
      (k'.sysFileTable s).offset = (k.sysFileTable s).offset + bytes.length
  | .write fd buf len => ∃ k', step k (.sys (.write fd buf len)) = .ok k' ∧
      k'.tf k'.current .eax = wordOf len ∧
      (k'.sysFileTable s).offset = (k.sysFileTable s).offset + len
  | _ => False

/-- When it does: the slot refers to an inode, and the read is in step with the size of the file, or
the write ends below 32768. -/
def InStep (k : Kernel) (s : ℕ) : Syscall → Prop
  | .read _ _ len => ∃ x < NR_INODE, (k.sysFileTable s).inodeIndex = x ∧
      ReadInStep (k.fs.inode x).filesz (k.sysFileTable s).offset len
  | .write _ _ len => (∃ x < NR_INODE, (k.sysFileTable s).inodeIndex = x) ∧
      (k.sysFileTable s).offset + len < MAX_FILE_SZ_KB * 1024
  | _ => False

/-- **`read_aux`** on a slot of inode `x`: it stops where `readF` does, and stores what `readF` read. -/
theorem read_eq (buf : ℕ) (len : ℤ) (hu : userMode k) (hs : slotOf fd k = .ok s) (hin : fd ≠ stdin)
    (hx : x < NR_INODE) (hindex : (k.sysFileTable s).inodeIndex = x) :
    step k (.sys (.read fd buf len)) =
      readF k.fs (k.sysFileTable s).inodeIndex len (k.sysFileTable s).offset >>= fun bytes =>
        .ok (({ k with mem := storeBytes k.mem (userBuf buf k) bytes }.setEax bytes.length).setFile s
          fun f => { f with offset := readPosition (k.fs.inode x).filesz f.offset len }) := by
  rw [step, if_pos hu, doSyscall, readAux, if_neg hin, readFile, hs, ok_bind]
  dsimp only
  rw [hindex]
  refine congrArg _ (funext fun bytes => ?_)
  rw [inodeAt_eq hx, ok_bind]
  rfl

/-- A call on a slot that refers to no inode stops. -/
theorem inode_of_advances (hu : userMode k) (hs : slotOf fd k = .ok s)
    (hc : c.transfer = some (fd, len)) (h : Advances k s c) :
    ∃ x < NR_INODE, (k.sysFileTable s).inodeIndex = x := by
  have hat : ∀ d, k.fs.inodeAt (k.sysFileTable s).inodeIndex = .ok d →
      ∃ x < NR_INODE, (k.sysFileTable s).inodeIndex = x := by
    intro d hd
    obtain ⟨x, hx, hindex, -⟩ := inodeAt_inv hd
    exact ⟨x, hx, hindex⟩
  cases c with
  | read fd' buf len' =>
    obtain ⟨k', bytes, -, hread, -⟩ := h
    obtain ⟨d, hd, -⟩ := bind_eq_ok.mp hread
    exact hat d hd
  | write fd' buf len' =>
    obtain ⟨k', hk, -⟩ := h
    simp only [Syscall.transfer] at hc
    split_ifs at hc with hout
    obtain ⟨rfl, rfl⟩ := Prod.mk.inj (Option.some.inj hc)
    rw [step, if_pos hu, doSyscall, writeAux, if_neg hout, hs, ok_bind] at hk
    obtain ⟨r, hr, -⟩ := bind_eq_ok.mp hk
    obtain ⟨-, -, hr⟩ := bind_eq_ok.mp hr
    obtain ⟨d, hd, -⟩ := bind_eq_ok.mp hr
    exact hat d hd
  | _ => cases hc

/-- **A read** moves the position by its length if and only if it stays in step. -/
theorem advances_read_iff {buf : ℕ} (hu : userMode k) (hs : slotOf fd k = .ok s) (hin : fd ≠ stdin)
    (hx : x < NR_INODE) (hindex : (k.sysFileTable s).inodeIndex = x)
    (ho : 0 ≤ (k.sysFileTable s).offset) (hoi : (k.sysFileTable s).offset < 2 ^ 31) (hlen : 0 ≤ len)
    (hleni : len < 2 ^ 31) :
    Advances k s (.read fd buf len) ↔
      ReadInStep (k.fs.inode x).filesz (k.sysFileTable s).offset len := by
  obtain ⟨o, hof⟩ := Int.eq_ofNat_of_zero_le ho
  obtain ⟨n, rfl⟩ := Int.eq_ofNat_of_zero_le hlen
  have heq := read_eq buf n hu hs hin hx hindex
  rw [hof] at hoi
  have hread : readF k.fs (k.sysFileTable s).inodeIndex n (k.sysFileTable s).offset =
      readLoop (k.fs.inode x) o n 0 := by
    rw [hindex, hof, readF, inodeAt_eq hx, ok_bind, Int.toNat_natCast]
  rw [Advances, hread, heq, hread]
  rcases readLoop_cases (d := k.fs.inode x) (o := o) (i := 0) (n := n) (by omega) with
    ⟨hblock, bytes, hb, hlength⟩ | ⟨hblock, hb⟩
  · rw [hb, ok_bind, hof]
    rw [Nat.add_zero] at hblock hlength
    rw [← readPosition_eq_iff hoi hleni hblock, ← hlength]
    constructor
    · rintro ⟨k', bytes', hk, hb', -, -, hoff⟩
      obtain rfl := Except.ok.inj hk
      obtain rfl := Except.ok.inj hb'
      rw [Kernel.setFile_sysFileTable, Function.update_self] at hoff
      have hpos : readPosition (k.fs.inode x).filesz (k.sysFileTable s).offset n =
          o + bytes.length := hoff
      rwa [hof] at hpos
    · intro hoff
      refine ⟨_, bytes, rfl, rfl, rfl, ?_, ?_⟩
      · refine (setTf_tf _ _ _ _ _ _).trans ?_
        simp
      · have hpos : readPosition (k.fs.inode x).filesz (k.sysFileTable s).offset n =
            o + bytes.length := by rwa [hof]
        rw [Kernel.setFile_sysFileTable, Function.update_self]
        exact hpos
  · rw [hb, error_bind]
    refine iff_of_false ?_ ?_
    · rintro ⟨k', bytes, hk, -⟩
      cases hk
    · rintro ⟨hle, hF, hsum, hfit⟩
      rw [hof] at hfit
      omega

/-- **A write** does if and only if it stays in the block. -/
theorem advances_write_iff {buf : ℕ} (hu : userMode k) (hs : slotOf fd k = .ok s) (hout : fd ≠ stdout)
    (hx : x < NR_INODE) (hindex : (k.sysFileTable s).inodeIndex = x)
    (ho : 0 ≤ (k.sysFileTable s).offset) (hoi : (k.sysFileTable s).offset < 2 ^ 31) (hlen : 0 ≤ len)
    (hleni : len < 2 ^ 31) :
    Advances k s (.write fd buf len) ↔
      (k.sysFileTable s).offset + len < MAX_FILE_SZ_KB * 1024 := by
  have hint : isInt (k.sysFileTable s).offset := ⟨by omega, hoi⟩
  have hleint : isInt len := ⟨by omega, hleni⟩
  rw [Advances, step, if_pos hu, doSyscall, writeAux, if_neg hout, hs, ok_bind]
  dsimp only
  rw [hindex, maxFileSz]
  have hcases := writeF_cases k.fs (bufByte k (userBuf buf k)) len (k.sysFileTable s).offset hx
  rw [maxFileSz] at hcases
  rcases hcases with ⟨hstop, hw⟩ | ⟨hpass, ⟨hleave, hw⟩ | ⟨hin, b, hw⟩⟩
  · rw [hw, error_bind]
    refine iff_of_false (by rintro ⟨k', hk, -⟩; cases hk) ?_
    unfold i32 at hstop
    omega
  · rw [hw, error_bind]
    refine iff_of_false (by rintro ⟨k', hk, -⟩; cases hk) ?_
    intro hlt
    have hsum : i32 (len + (k.sysFileTable s).offset) = len + (k.sysFileTable s).offset :=
      i32_eq_self (by omega) (by omega)
    apply hleave
    intro j h1 h2
    rw [maxFileSz, i32_eq_self (by omega) (by omega)]
    omega
  · rw [hw, ok_bind]
    have hlt : (k.sysFileTable s).offset + len < 32768 := by
      by_cases hpos : 0 < len
      · obtain ⟨hsum, -⟩ := (inBlock_iff hint hleint hpos hpass).mp hin
        unfold i32 at hsum hpass
        omega
      · unfold i32 at hpass
        omega
    refine iff_of_true ⟨_, rfl, ?_, ?_⟩ hlt
    · refine (setTf_tf _ _ _ _ _ _).trans ?_
      simp [Int.toNat_of_nonneg hlen]
    · have hsum : i32 ((k.sysFileTable s).offset + len) = (k.sysFileTable s).offset + len :=
        i32_eq_self (by omega) (by omega)
      rw [Kernel.setFile_sysFileTable, Function.update_self]
      exact hsum

/-- **One call.** -/
theorem advances_iff (hu : userMode k) (hs : slotOf fd k = .ok s) (hc : c.transfer = some (fd, len))
    (ho : 0 ≤ (k.sysFileTable s).offset) (hoi : (k.sysFileTable s).offset < 2 ^ 31) (hlen : 0 ≤ len)
    (hleni : len < 2 ^ 31) : Advances k s c ↔ InStep k s c := by
  by_cases hinode : ∃ x < NR_INODE, (k.sysFileTable s).inodeIndex = x
  · obtain ⟨x, hx, hindex⟩ := hinode
    cases c with
    | read fd' buf len' =>
      simp only [Syscall.transfer] at hc
      split_ifs at hc with hin
      obtain ⟨rfl, rfl⟩ := Prod.mk.inj (Option.some.inj hc)
      rw [advances_read_iff hu hs hin hx hindex ho hoi hlen hleni]
      constructor
      · exact fun h => ⟨x, hx, hindex, h⟩
      · rintro ⟨y, hy, hyindex, h⟩
        obtain rfl : x = y := by omega
        exact h
    | write fd' buf len' =>
      simp only [Syscall.transfer] at hc
      split_ifs at hc with hout
      obtain ⟨rfl, rfl⟩ := Prod.mk.inj (Option.some.inj hc)
      rw [advances_write_iff hu hs hout hx hindex ho hoi hlen hleni]
      exact ⟨fun h => ⟨⟨x, hx, hindex⟩, h⟩, fun h => h.2⟩
    | _ => cases hc
  · refine iff_of_false (fun h => hinode (inode_of_advances hu hs hc h)) ?_
    intro h
    cases c with
    | read fd' buf len' =>
      obtain ⟨x, hx, hindex, -⟩ := h
      exact hinode ⟨x, hx, hindex⟩
    | write fd' buf len' => exact hinode h.1
    | _ => cases hc

/-! ### Runs of reads and writes -/

/-- A call through the descriptor that is in step. -/
def inStep (fd : ℤ) (s : ℕ) (k : Kernel) (e : Event) : Prop :=
  ∃ c len, e = .sys c ∧ c.transfer = some (fd, len) ∧ 0 ≤ len ∧ len < 2 ^ 31 ∧ InStep k s c

/-- The number that a call returns. -/
def returned (_ : Kernel) (_ : Event) (k' : Kernel) : List ℕ := [(k'.tf k'.current .eax).toNat]

/-- Where a run of calls has got to: the position of the slot that descriptor `fd` refers to. -/
structure AtOffset (k : Kernel) (fd : ℤ) (s o : ℕ) : Prop where
  slot : slotOf fd k = .ok s
  offset : (k.sysFileTable s).offset = o
  lt : (o : ℤ) < 2 ^ 31

/-- A call on another position leaves the descriptors. -/
theorem slotOf_of_moved {t : ℕ} (h : SlotMoved k k' t) : slotOf fd k' = slotOf fd k := by
  unfold slotOf
  rw [h.current, h.filepointer]

/-- A call that reads or writes a file is one on an open file. -/
theorem access_of_transfer (hc : c.transfer = some (fd, len)) (hlen : isInt len) :
    ∃ a, c.access k = some (fd, a) ∧ a.ints := by
  cases c with
  | read fd' buf len' =>
    simp only [Syscall.transfer] at hc
    split_ifs at hc with hfd
    obtain ⟨rfl, rfl⟩ := Prod.mk.inj (Option.some.inj hc)
    exact ⟨_, if_neg hfd, hlen⟩
  | write fd' buf len' =>
    simp only [Syscall.transfer] at hc
    split_ifs at hc with hfd
    obtain ⟨rfl, rfl⟩ := Prod.mk.inj (Option.some.inj hc)
    exact ⟨_, if_neg hfd, hlen⟩
  | _ => cases hc

/-- What a call returns that does what it should. -/
theorem returned_of_advances (hc : c.transfer = some (fd, len)) (hlen : 0 ≤ len)
    (h : Advances k s c) (hk : step k (.sys c) = .ok k') :
    ∃ n : ℕ, k'.tf k'.current .eax = wordOf n ∧
      (k'.sysFileTable s).offset = (k.sysFileTable s).offset + n := by
  cases c with
  | read fd' buf len' =>
    obtain ⟨k'', bytes, hk'', -, -, heax, hoff⟩ := h
    obtain rfl := Except.ok.inj (hk.symm.trans hk'')
    exact ⟨bytes.length, heax, hoff⟩
  | write fd' buf len' =>
    obtain ⟨k'', hk'', heax, hoff⟩ := h
    obtain rfl := Except.ok.inj (hk.symm.trans hk'')
    simp only [Syscall.transfer] at hc
    split_ifs at hc with hfd
    obtain ⟨rfl, rfl⟩ := Prod.mk.inj (Option.some.inj hc)
    obtain ⟨n, rfl⟩ := Int.eq_ofNat_of_zero_le hlen
    exact ⟨n, heax, hoff⟩
  | _ => cases hc

/-- **One call in step** moves on by what it returns. -/
theorem atOffset_step {e : Event} (h : AtOffset k fd s o) (he : inStep fd s k e)
    (hk : step k e = .ok k') : AtOffset k' fd s (o + (returned k e k').sum) := by
  obtain ⟨c, len, rfl, hc, h0, hlen, hin⟩ := he
  have hu := userMode_of_call hk
  have hof := h.offset
  have hlt := h.lt
  obtain ⟨a, ha, hints⟩ := access_of_transfer (k := k) hc ⟨by omega, hlen⟩
  obtain ⟨t, ht, hmoved, hpos⟩ := access_of_doSyscall ha (by rwa [step, if_pos hu] at hk)
  obtain rfl := Except.ok.inj (h.slot.symm.trans ht)
  have hint : isInt (k'.sysFileTable s).offset := accessStep_isInt hints hpos
  have hadv := (advances_iff hu h.slot hc (by omega) (by omega) h0 hlen).mpr hin
  obtain ⟨n, heax, hoff⟩ := returned_of_advances hc h0 hadv hk
  have hn : (o : ℤ) + n < 2 ^ 31 := by
    rw [← hof, ← hoff]
    exact hint.2
  have hsum : (returned k (.sys c) k').sum = n := by
    have := toNat_wordOf (x := n) (by omega) (by omega)
    rw [returned, heax, List.sum_singleton]
    omega
  rw [hsum]
  refine ⟨by rw [slotOf_of_moved hmoved, h.slot], ?_, ?_⟩
  · rw [hoff, hof, Int.natCast_add]
  · rw [Int.natCast_add]
    exact hn

/-- **The position moves by what was transferred**, for a call exactly when it is in step, and in a
run of such calls by the sum of what they return. -/
theorem offset_moves (hu : userMode k) (hs : slotOf fd k = .ok s)
    (ho : 0 ≤ (k.sysFileTable s).offset) (hoi : (k.sysFileTable s).offset < 2 ^ 31) :
    (∀ c len, c.transfer = some (fd, len) → 0 ≤ len → len < 2 ^ 31 →
      (Advances k s c ↔ InStep k s c)) ∧
    ∀ es k', Reaches step (inStep fd s) k es k' →
      (k'.sysFileTable s).offset = (k.sysFileTable s).offset + (log step returned k es).sum := by
  refine ⟨fun c len hc h0 hlen => advances_iff hu hs hc ho hoi h0 hlen, ?_⟩
  intro es k' hr
  obtain ⟨o, hof⟩ := Int.eq_ofNat_of_zero_le ho
  have hat : AtOffset k' fd s (o + (log step returned k es).sum) := by
    refine hr.invariant (P := fun es k' => AtOffset k' fd s (o + (log step returned k es).sum)) ?_ ?_
    · rw [log_nil, List.sum_nil, Nat.add_zero]
      exact ⟨hs, hof, by rwa [← hof]⟩
    · intro es k1 k2 e hr h he hk
      have h2 := atOffset_step h he hk
      rw [log_snoc hr.run_eq hk, List.sum_append, ← Nat.add_assoc]
      exact h2
  rw [hat.offset, hof, Int.natCast_add]

/-- The condition on a call through descriptor `fd`, whose slot refers to inode `x`, as a program. -/
def inStepAt (fd : ℤ) (s x : ℕ) (k : Kernel) : Event → Bool
  | .sys (.read fd' _ len) => fd' = fd ∧ fd ≠ stdin ∧ 0 ≤ len ∧ len < 2 ^ 31 ∧
      (k.sysFileTable s).inodeIndex = x ∧ ReadInStep (k.fs.inode x).filesz (k.sysFileTable s).offset len
  | .sys (.write fd' _ len) => fd' = fd ∧ fd ≠ stdout ∧ 0 ≤ len ∧ len < 2 ^ 31 ∧
      (k.sysFileTable s).inodeIndex = x ∧ (k.sysFileTable s).offset + len < MAX_FILE_SZ_KB * 1024
  | _ => false

/-- The condition on one file is the condition on the events. -/
theorem inStep_of_inStepAt {e : Event} (hx : x < NR_INODE) (h : inStepAt fd s x k e) : inStep fd s k e := by
  cases e with
  | sys c =>
    cases c with
    | read fd' buf len =>
      obtain ⟨rfl, hin, h0, hlen, hindex, hstep⟩ := of_decide_eq_true h
      exact ⟨_, len, rfl, if_neg hin, h0, hlen, x, hx, hindex, hstep⟩
    | write fd' buf len =>
      obtain ⟨rfl, hout, h0, hlen, hindex, hstep⟩ := of_decide_eq_true h
      exact ⟨_, len, rfl, if_neg hout, h0, hlen, ⟨x, hx, hindex⟩, hstep⟩
    | _ => cases h
  | _ => cases h

/-- Two reads of a file of three bytes, of which the second one comes to the end, and a write. -/
def readsAndWrite : List Event :=
  [.sys (.read 3 0x200400 2), .sys (.read 3 0x200400 2), .sys (.write 3 0x200300 1)]

/-- They move the position by two, one and one. -/
theorem offset_moves_readsAndWrite :
    ∃ k k', userMode k ∧ slotOf 3 k = .ok 0 ∧ (k.sysFileTable 0).offset = 0 ∧
      Advances k 0 (.read 3 0x200400 2) ∧ run step k readsAndWrite = .ok k' ∧
      (k'.sysFileTable 0).offset = 4 := by
  have hrun : okAnd (runFrom .withPath (List.replicate 10 .timer ++
      [.sys (.openPath 0x200300 0), .sys (.write 3 0x200300 3), .sys (.seek 3 0 0)])) (fun k =>
        decide (userMode k ∧ slotOf 3 k = .ok 0 ∧ (k.sysFileTable 0).offset = 0) &&
        inStepAt 3 0 1 k (.sys (.read 3 0x200400 2)) &&
        (decide ((log step returned k readsAndWrite).sum = 4) &&
          (checkedRun step (fun k e => inStepAt 3 0 1 k e) k readsAndWrite).isSome)) = true := by
    decide +kernel
  obtain ⟨k, -, hp⟩ := okAnd_eq_true.mp hrun
  obtain ⟨hp, hlater⟩ := Bool.and_eq_true_iff.mp hp
  obtain ⟨hstart, hread⟩ := Bool.and_eq_true_iff.mp hp
  obtain ⟨hsum, hsome⟩ := Bool.and_eq_true_iff.mp hlater
  obtain ⟨hu, hs, ho⟩ := of_decide_eq_true hstart
  obtain ⟨k', hk'⟩ := Option.isSome_iff_exists.mp hsome
  have hreach := Reaches.of_checkedRun hk'
  obtain ⟨hcall, hmoves⟩ := offset_moves hu hs (by omega) (by omega)
  obtain ⟨c, len, hc, htransfer, h0, hlen, hstep⟩ := inStep_of_inStepAt (by decide) hread
  obtain rfl := Event.sys.inj hc
  have hoffset := hmoves readsAndWrite k' (hreach.mono fun k e h => inStep_of_inStepAt (by decide) h)
  rw [ho, of_decide_eq_true hsum] at hoffset
  exact ⟨k, k', hu, hs, ho, (hcall _ len htransfer h0 hlen).mpr hstep, hreach.run_eq, hoffset⟩

/-- **A read beyond the end** moves the position back. -/
theorem read_past_end :
    ¬∀ (img : Image) (es : List Event) (k : Kernel) (fd len : ℤ) (s : ℕ) (c : Syscall),
      runFrom img es = .ok k → userMode k → slotOf fd k = .ok s →
      0 ≤ (k.sysFileTable s).offset → (k.sysFileTable s).offset < 2 ^ 31 →
      c.transfer = some (fd, len) → 0 ≤ len → len < 2 ^ 31 → Advances k s c := by
  intro hall
  have hrun : okAnd (runFrom .withPath (List.replicate 10 .timer ++
      [.sys (.openPath 0x200300 0), .sys (.seek 3 5 0)])) (fun k =>
        decide (userMode k) && decide (slotOf 3 k = .ok 0) &&
        decide (k.sysFileTable 0 = ⟨1, 1, 5⟩) && decide ((k.fs.inode 1).filesz.toNat = 0)) = true := by
    decide +kernel
  obtain ⟨k, hk, hp⟩ := okAnd_eq_true.mp hrun
  simp only [Bool.and_eq_true, decide_eq_true_eq] at hp
  obtain ⟨⟨⟨hu, hs⟩, ht⟩, hF⟩ := hp
  have ho : (k.sysFileTable 0).offset = 5 := by rw [ht]
  have hadv := hall _ _ k 3 1 0 (.read 3 0 1) hk hu hs (by omega) (by omega) rfl (by decide) (by decide)
  have hindex : (k.sysFileTable 0).inodeIndex = (1 : ℕ) := by rw [ht]; rfl
  obtain ⟨hle, -⟩ := (advances_read_iff hu hs (by decide) (by decide) hindex (by omega) (by omega)
    (by decide) (by decide)).mp hadv
  rw [ho, hF] at hle
  exact absurd hle (by decide)

end OsLab
