import OsLab.Devices.Transcript
import OsLab.Files.Bounds
import OsLab.Files.NamedFiles
import OsLab.Files.Sequential
import OsLab.Lib.Store
import OsLab.User.Calls

/-!
# The file system calls are a store of named files

`Lib.Store` says what a file system is for. Here the kernel is one: its calls on files, with what they
return in `eax` and in the caller's buffer, are calls of a store whose files are named by absolute
paths. The inodes, the directories, the two tables and their link counts are gone.

* `HasStore`: the kernel has these files, open files and descriptors.
* `stored_read`, `stored_write`, `stored_seek`, `stored_open`, `stored_close` and `stored_fork`: each
  call that returns is the store's call of that name.
-/

namespace OsLab

open OsLab.Lib

variable {k k' k0 : Kernel} {Q : Queues} {e : Event} {es : List Event} {img : Image} {i s n pos : ℕ}
  {p : Node} {fd len : ℤ} {buf : ℕ} {σ σ' : Store Node FilePath UInt8} {f : OpenFile FilePath}
  {b : List UInt8} {c : StoreCall Node FilePath UInt8}

/-! ### The store of a kernel -/

/-- The slot that a descriptor refers to. -/
def heldSlot (k : Kernel) (p : Node) (fd : ℕ) : Option ℕ :=
  if p ∈ procs ∧ fd < MAX_FP_NUM ∧ 0 ≤ (k.pcb p).filepointer fd then
    some ((k.pcb p).filepointer fd).toNat
  else none

/-- The slot behind a descriptor is the one that the process holds. -/
theorem heldSlot_eq_some {fd : ℕ} : heldSlot k p fd = some s ↔ Held k p fd s := by
  unfold heldSlot
  split_ifs with h
  · constructor
    · intro hs
      have hs := Option.some.inj hs
      exact ⟨h.1, h.2.1, by omega⟩
    · intro hs
      have hslot := hs.slot
      congr 1
      omega
  · refine iff_of_false (by simp) ?_
    intro hs
    have hslot := hs.slot
    exact h ⟨hs.mem, hs.lt, by omega⟩

/-- Behind a descriptor that is not open there is none. -/
theorem heldSlot_eq_none {fd : ℕ} (h : fd < MAX_FP_NUM → (k.pcb p).filepointer fd = -1) :
    heldSlot k p fd = none := by
  rw [heldSlot, if_neg]
  rintro ⟨-, hlt, h0⟩
  have := h hlt
  omega

/-- The same descriptors hold the same slots. -/
theorem heldSlot_congr (h : ∀ p, (k'.pcb p).filepointer = (k.pcb p).filepointer) :
    heldSlot k' = heldSlot k := by
  funext p fd
  unfold heldSlot
  rw [h]

/-- One descriptor was set. -/
theorem heldSlot_set {fd : ℕ} {v : ℤ} (h : DescriptorSet k k' p fd v) (q : Node) (j : ℕ) :
    heldSlot k' q j = if q = p ∧ j = fd then (if 0 ≤ v then some v.toNat else none) else heldSlot k q j := by
  unfold heldSlot
  rw [h.filepointer]
  by_cases hq : q = p
  · subst hq
    by_cases hj : j = fd
    · subst hj
      simp [h.mem, h.lt]
    · simp [hj]
  · simp [hq]

/-- Slot `s` is the open file `f`, whose inode is `i`. -/
structure OpenAt (k : Kernel) (s : ℕ) (f : OpenFile FilePath) (i : ℕ) : Prop where
  file : fileAt k.fs f.name.val = some i
  inodeIndex : (k.sysFileTable s).inodeIndex = i
  offset : (k.sysFileTable s).offset = f.pos
  lt : f.pos < 2 ^ 31

/-- The store that has these files, with nothing open. -/
def storeOf (fs : FileSystem) : Store Node FilePath UInt8 := .fresh (filesOf fs)

/-- **The kernel has** the files, open files and descriptors of the store. -/
structure HasStore (k : Kernel) (σ : Store Node FilePath UInt8) : Prop where
  wf : WellFormed k.fs
  clean : CleanFiles k.fs
  sane : σ.Sane
  files : σ.files = filesOf k.fs
  descriptor : σ.descriptor = heldSlot k
  opened : ∀ p fd s f, σ.descriptor p fd = some s → σ.opened s = some f → ∃ i, OpenAt k s f i

/-- At the start nothing is open. -/
theorem stored_boot (hb : boot img = .ok k) (hwf : WellFormed img.fs) (hclean : CleanFiles img.fs) :
    HasStore k (storeOf img.fs) := by
  have hkept := filesKept_boot hb
  have hfs := fs_boot hb
  have hunused : ∀ s < MAX_SYS_FILE_NUM, (k.sysFileTable s).inodeIndex = -1 := by
    obtain ⟨-, nx, rfl⟩ := placed_boot hb
    intro s hs
    exact congrArg SysFile.inodeIndex (if_pos hs)
  have hnone : ∀ p fd, heldSlot k p fd = none := by
    intro p fd
    cases hs : heldSlot k p fd with
    | none => rfl
    | some s =>
      have hheld := heldSlot_eq_some.mp hs
      have hlt := hheld.slot_lt hkept.files
      exact absurd ((hkept.files.inodeIndex s hlt).mp (hunused s hlt)) hheld.refs_ne_zero
  rw [← hfs] at hwf hclean ⊢
  exact {
    wf := hwf
    clean := hclean
    sane := fun _ _ _ hs => nomatch hs
    files := rfl
    descriptor := funext fun p => funext fun fd => (hnone p fd).symm
    opened := fun _ _ _ _ hs => nomatch hs }

/-- The open file behind a descriptor of the caller. -/
theorem HasStore.behind (h : HasStore k σ) (hf : FilesKept k Q) (hu : userMode k) (hs : slotOf fd k = .ok s) :
    ∃ f b i, σ.Behind k.current fd.toNat s f b ∧ OpenAt k s f i ∧ i < NR_INODE ∧ InUse k.fs i ∧
      (k.fs.inode i).type = FL ∧ (k.fs.inode i).file.values = b := by
  obtain ⟨h0, hlt, hslot, -⟩ := slotOf_eq_ok hs
  have hheld : Held k k.current fd.toNat s :=
    ⟨hf.sound.placed.current_mem hu.1, by omega, hslot⟩
  have hd : σ.descriptor k.current fd.toNat = some s := by
    rw [h.descriptor]
    exact heldSlot_eq_some.mpr hheld
  obtain ⟨f, b, hb⟩ := h.sane _ _ _ hd
  obtain ⟨i, hopen⟩ := h.opened _ _ _ _ hd hb.opened
  obtain ⟨hilt, hiu, hty⟩ := h.wf.isFile hopen.file
  refine ⟨f, b, i, hb, hopen, hilt, hiu, hty, ?_⟩
  have hfile := hb.file
  rw [h.files, filesOf, hopen.file] at hfile
  exact Option.some.inj hfile

/-! ### Reads, writes and seeks -/

/-- A call on an open file moves its position, and nothing else of what is open. -/
theorem HasStore.moved (h : HasStore k σ) (hm : SlotMoved k k' s) {fd : ℕ} (hb : σ.Behind p fd s f b)
    (hs : Store.Step 0 σ c σ') (hd : σ'.descriptor = σ.descriptor)
    (ho : σ'.opened = Function.update σ.opened s (some { f with pos })) (hwf : WellFormed k'.fs)
    (hclean : CleanFiles k'.fs) (hfiles : σ'.files = filesOf k'.fs)
    (hat : ∀ q : FilePath, fileAt k'.fs q.val = fileAt k.fs q.val)
    (hpos : (k'.sysFileTable s).offset = pos) (hlt : pos < 2 ^ 31) : HasStore k' σ' where
  wf := hwf
  clean := hclean
  sane := hs.sane h.sane
  files := hfiles
  descriptor := by rw [hd, h.descriptor, heldSlot_congr hm.filepointer]
  opened q j t g hj hg := by
    rw [hd] at hj
    rw [ho] at hg
    by_cases hts : t = s
    · subst hts
      rw [Function.update_self] at hg
      obtain rfl := Option.some.inj hg
      obtain ⟨i, hopen⟩ := h.opened _ _ _ _ hj hb.opened
      exact ⟨i, by rw [hat]; exact hopen.file, hm.inodeIndex.trans hopen.inodeIndex, hpos, hlt⟩
    · rw [Function.update_of_ne hts] at hg
      obtain ⟨i, hopen⟩ := h.opened _ _ _ _ hj hg
      refine ⟨i, by rw [hat]; exact hopen.file, ?_, ?_, hopen.lt⟩
      · rw [hm.others t hts]
        exact hopen.inodeIndex
      · rw [hm.others t hts]
        exact hopen.offset

/-- The value that a call has left in `eax`. -/
def eaxOf (k k' : Kernel) : ℕ := (k'.tf k.current .eax).toNat

/-- **`read_aux`** on a file, at any position. -/
theorem readFile_values {o : ℕ} (ht : slotOf fd k = .ok s) (hi : (k.sysFileTable s).inodeIndex = i)
    (ho : (k.sysFileTable s).offset = o) (hlt : i < NR_INODE) (hclean : (k.fs.inode i).ZeroTail)
    (hfit : o + n < 2 ^ 31) (hk : readFile fd buf n k = .ok k') :
    k'.mem = storeBytes k.mem buf (((k.fs.inode i).file.values.drop o).take n) ∧ k'.fs = k.fs ∧
      k'.tf k.current .eax = wordOf (((k.fs.inode i).file.values.drop o).take n).length ∧
      (k'.sysFileTable s).offset = (min (o + n) (k.fs.inode i).file.values.length : ℕ) := by
  have hsize := hclean.fits
  have hfilesz : intOf (k.fs.inode i).filesz = (k.fs.inode i).filesz.toNat :=
    i32_eq_self (by omega) (by omega)
  simp only [readFile, ht, ok_bind] at hk
  rw [hi, inodeAt_eq hlt, ho, readF_eq hlt hsize (by omega), ok_bind, ok_bind] at hk
  obtain rfl := Except.ok.inj hk
  rw [← ArrayFile.values_read, ArrayFile.length_values]
  refine ⟨rfl, rfl, ?_, ?_⟩
  · refine (setTf_tf _ _ _ _ _ _).trans ?_
    simp [FileSystem.files]
  · rw [Kernel.setFile_sysFileTable, Function.update_self]
    dsimp only
    rw [Kernel.store_sysFileTable, ho, hfilesz, i32_eq_self (by omega) (by omega)]
    change (if (o + n : ℤ) > (k.fs.inode i).file.size then ((k.fs.inode i).file.size : ℤ) else _) = _
    split_ifs <;> omega

/-- **A read** returns what is in the file from the position on. -/
theorem stored_read (h : HasStore k σ) (hf : FilesKept k Q) (hu : userMode k) (hin : fd ≠ stdin)
    (hbuf : buf < 2 ^ 32) (h0 : 0 ≤ len)
    (hfit : ∀ s, slotOf fd k = .ok s → (k.sysFileTable s).offset + len < 2 ^ 31)
    (hk : doSyscall k (.read fd buf len) = .ok k') : ∃ σ', Store.Step 0 σ
      (.read k.current fd.toNat len.toNat (loadBytes k'.mem (userBuf buf k) (eaxOf k k'))) σ' ∧
      HasStore k' σ' := by
  obtain ⟨s, hs, hm, -⟩ := access_of_doSyscall (c := .read fd buf len) (if_neg hin) hk
  obtain ⟨f, b, i, hb, hopen, hi, -, hty, hval⟩ := h.behind hf hu hs
  obtain ⟨n, rfl⟩ := Int.eq_ofNat_of_zero_le h0
  have hfit := hfit s hs
  rw [hopen.offset] at hfit
  have hclean := h.clean.file i hi hty
  rw [doSyscall, readAux, if_neg hin] at hk
  obtain ⟨hmem, hfs, heax, hoff⟩ :=
    readFile_values hs hopen.inodeIndex hopen.offset hi hclean (by omega) hk
  rw [hval] at hmem heax hoff
  have hbufs : userBuf buf k < 2 ^ 32 := by
    unfold userBuf
    split_ifs
    · exact Nat.mod_lt _ (by decide)
    · exact hbuf
  have hlen : b.length ≤ 32768 := by
    rw [← hval, ArrayFile.length_values]
    exact hclean.fits
  have hout : loadBytes k'.mem (userBuf buf k) (eaxOf k k') = (b.drop f.pos).take n := by
    have hlength : ((b.drop f.pos).take n).length ≤ 32768 := by
      rw [List.length_take, List.length_drop]
      omega
    have hword : eaxOf k k' = ((b.drop f.pos).take n).length := by
      have := toNat_wordOf (x := ((b.drop f.pos).take n).length) (by omega) (by omega)
      rw [eaxOf, heax]
      omega
    rw [hword, hmem, loadBytes_storeBytes hbufs (by omega)]
  rw [hout, Int.toNat_natCast]
  have hstep := Store.Step.read (z := (0 : UInt8)) (n := n) hb
  refine ⟨_, hstep, h.moved hm hb hstep rfl rfl ?_ ?_ ?_ ?_ hoff ?_⟩
  · rw [hfs]
    exact h.wf
  · rw [hfs]
    exact h.clean
  · rw [hfs]
    exact h.files
  · intro q
    rw [hfs]
  · omega

/-- A write that ends has stayed within the block. -/
theorem fits_of_writeLoop {o : ℕ} {buf block block' : ℕ → UInt8} (ho : o < 2 ^ 31)
    (h : writeLoop buf o n 0 block = .ok block') : n = 0 ∨ o + n ≤ 32768 := by
  have hin : InBlock o n 0 := by
    by_contra hno
    rw [writeLoop_of_not_inBlock hno] at h
    cases h
  rcases Nat.eq_zero_or_pos n with h0 | hpos
  · exact .inl h0
  -- the first position is in the block, and none of the next is the one behind it
  have hfirst := (hin 0 le_rfl (by omega)).2
  rw [i32_eq_self (by omega) (by omega), maxFileSz] at hfirst
  refine .inr ?_
  by_contra hover
  have hend := (hin (32768 - o) (by omega) (by omega)).2
  rw [i32_eq_self (by omega) (by omega), maxFileSz] at hend
  omega

/-- The answer of a write is its length. -/
theorem eax_write (hout : fd ≠ stdout) (hk : doSyscall k (.write fd buf len) = .ok k') :
    k'.tf k.current .eax = wordOf len.toNat := by
  rw [doSyscall, writeAux, if_neg hout] at hk
  obtain ⟨s, -, hk⟩ := bind_eq_ok.mp hk
  obtain ⟨⟨fs, v⟩, hw, hk⟩ := bind_eq_ok.mp hk
  obtain rfl := Except.ok.inj hk
  obtain ⟨-, -, -, -, -, -, rfl, -⟩ := writeF_inv hw
  exact tf_setEax { k with fs := fs } len.toNat

/-- A write that returns has not gone over the end of the block. -/
theorem write_fits (h : HasStore k σ) (hf : FilesKept k Q) (hu : userMode k) (hout : fd ≠ stdout)
    (h0 : 0 ≤ len) (hs : slotOf fd k = .ok s) (hk : doSyscall k (.write fd buf len) = .ok k') :
    (k.sysFileTable s).offset + len < 32768 := by
  obtain ⟨n, rfl⟩ := Int.eq_ofNat_of_zero_le h0
  obtain ⟨f, b, i, -, hopen, -⟩ := h.behind hf hu hs
  have hlt := hopen.lt
  rw [doSyscall, writeAux, if_neg hout, hs, ok_bind] at hk
  obtain ⟨r, hr, -⟩ := bind_eq_ok.mp hk
  rw [hopen.offset] at hr ⊢
  obtain ⟨x, -, -, block, hblock, hassert, -⟩ := writeF_inv (v := r.2) hr
  rw [Int.toNat_natCast] at hblock
  rw [maxFileSz] at hassert
  rcases fits_of_writeLoop hlt hblock with rfl | hle
  · rw [i32_eq_self (by omega) (by omega)] at hassert
    omega
  · rw [i32_eq_self (by omega) (by omega)] at hassert
    omega

/-- **A write** puts the caller's buffer there. -/
theorem stored_write (h : HasStore k σ) (hf : FilesKept k Q) (hu : userMode k) (hout : fd ≠ stdout)
    (h0 : 0 ≤ len) (hk : doSyscall k (.write fd buf len) = .ok k') : ∃ σ', Store.Step 0 σ
      (.write k.current fd.toNat (slice (bufByte k (userBuf buf k)) 0 len.toNat) (eaxOf k k')) σ' ∧
      HasStore k' σ' := by
  obtain ⟨s, hs, hm, hacc⟩ := access_of_doSyscall (c := .write fd buf len) (if_neg hout) hk
  have hfit := write_fits h hf hu hout h0 hs hk
  obtain ⟨f, b, i, hb, hopen, hi, hiu, hty, hval⟩ := h.behind hf hu hs
  obtain ⟨n, rfl⟩ := Int.eq_ofNat_of_zero_le h0
  set out := bufByte k (userBuf buf k)
  rw [hopen.offset] at hfit
  have hfit : n + f.pos < 32768 := by omega
  have hnew : writeF k.fs i out n f.pos =
      .ok (k.fs.setInode i ((k.fs.inode i).written ((k.fs.inode i).file.write f.pos n out)), n) :=
    writeF_eq hi hfit
  unfold position at hacc
  rw [hopen.inodeIndex, hopen.offset, accessStep, hnew, ok_bind] at hacc
  obtain ⟨hfs, hoff⟩ := Prod.mk.inj (Except.ok.inj hacc)
  have hfs : k'.fs = k.fs.setInode i
      ((k.fs.inode i).written ((k.fs.inode i).file.write f.pos n out)) := hfs.symm
  have hoff : (k'.sysFileTable s).offset = ((f.pos + n : ℕ) : ℤ) := by
    rw [← hoff, i32_eq_self (by omega) (by omega)]
    omega
  have heax : eaxOf k k' = n := by
    have := toNat_wordOf (x := (n : ℤ)) (by omega) (by omega)
    rw [eaxOf, eax_write hout hk, Int.toNat_natCast]
    omega
  rw [Int.toNat_natCast, heax]
  have hstep : Store.Step 0 σ (.write k.current fd.toNat (slice out 0 n) (slice out 0 n).length) _ :=
    .write hb
  rw [length_slice] at hstep
  have htree : SameTree k.fs
      (k.fs.setInode i ((k.fs.inode i).written ((k.fs.inode i).file.write f.pos n out))) :=
    sameTree_written hty
  refine ⟨_, hstep, h.moved hm hb hstep rfl rfl ?_ ?_ ?_ ?_ hoff (by omega)⟩
  · rw [hfs]
    exact htree.wellFormed h.wf
  · rw [hfs]
    exact h.clean.written hi hiu hty hfit
  · rw [hfs, filesOf_written h.wf h.clean hopen.file hfit, hval, ← h.files]
    rfl
  · intro q
    rw [hfs, htree.fileAt_eq h.wf]

/-- What a seek counts from. -/
def whenceOf (whence : ℤ) : Whence := if whence = 0 then .start else if whence = 1 then .here else .fileEnd

/-- The position that a seek is meant to go to. -/
def seekTarget (k : Kernel) (s : ℕ) (offset whence : ℤ) : ℤ :=
  if whence = 0 then offset
  else if whence = 1 then (k.sysFileTable s).offset + offset
  else (k.fs.inode (k.sysFileTable s).inodeIndex.toNat).filesz.toNat + offset

/-- **A seek** goes there. -/
theorem stored_seek {offset whence : ℤ} (h : HasStore k σ) (hf : FilesKept k Q) (hu : userMode k)
    (hto : ∀ s, slotOf fd k = .ok s →
      0 ≤ seekTarget k s offset whence ∧ seekTarget k s offset whence < 2 ^ 31)
    (hk : doSyscall k (.seek fd offset whence) = .ok k') : ∃ σ', Store.Step 0 σ
      (.seek k.current fd.toNat (whenceOf whence) offset) σ' ∧ HasStore k' σ' := by
  obtain ⟨s, hs, hm, hacc⟩ := access_of_doSyscall (c := .seek fd offset whence) rfl hk
  obtain ⟨f, b, i, hb, hopen, hi, hiu, hty, hval⟩ := h.behind hf hu hs
  obtain ⟨h0, hlt⟩ := hto s hs
  have hlen : (b.length : ℤ) = (k.fs.inode i).filesz.toNat := by
    rw [← hval, ArrayFile.length_values]
    rfl
  -- the position that the kernel computes is the one that is meant
  have hmove : k'.fs = k.fs ∧ (k'.sysFileTable s).offset = seekTarget k s offset whence ∧
      Store.base f b (whenceOf whence) + offset = seekTarget k s offset whence := by
    unfold position at hacc
    simp only [accessStep, hopen.inodeIndex, hopen.offset] at hacc
    unfold whenceOf
    unfold seekTarget at h0 hlt ⊢
    simp only [hopen.inodeIndex, hopen.offset, Int.toNat_natCast] at h0 hlt ⊢
    split_ifs at hacc h0 hlt ⊢
    · obtain ⟨hfs, hoff⟩ := Prod.mk.inj (Except.ok.inj hacc)
      exact ⟨hfs.symm, hoff.symm, Int.zero_add offset⟩
    · obtain ⟨hfs, hoff⟩ := Prod.mk.inj (Except.ok.inj hacc)
      rw [i32_eq_self (by omega) (by omega)] at hoff
      exact ⟨hfs.symm, hoff.symm, rfl⟩
    · rw [inodeAt_eq hi, ok_bind] at hacc
      obtain ⟨hfs, hoff⟩ := Prod.mk.inj (Except.ok.inj hacc)
      rw [i32_eq_self (by omega) (by omega)] at hoff
      refine ⟨hfs.symm, ?_, ?_⟩
      · rw [← hoff, Int.add_comm]
      · rw [Store.base, hlen]
  obtain ⟨hfs, hoff, hbase⟩ := hmove
  obtain ⟨pos, hpos⟩ := Int.eq_ofNat_of_zero_le h0
  rw [hpos] at hoff hbase hlt
  have hstep := Store.Step.seek (z := (0 : UInt8)) hb hbase
  refine ⟨_, hstep, h.moved hm hb hstep rfl rfl ?_ ?_ ?_ ?_ hoff (by omega)⟩
  · rw [hfs]
    exact h.wf
  · rw [hfs]
    exact h.clean
  · rw [hfs]
    exact h.files
  · intro q
    rw [hfs]

/-! ### Opening and closing -/

/-- The descriptor that `open_aux` returns is the one that it sets. -/
theorem eax_openSlot {index : ℤ} {fd : ℕ} (h : openSlot index k = .ok k') (ho : Opened k k' index s fd) :
    k'.tf k.current .eax = wordOf fd := by
  simp only [openSlot, bind_eq_ok, assert_eq_ok] at h
  obtain ⟨-, hne, h⟩ := h
  obtain ⟨j, -, -, hj, hunused⟩ := (firstIndex_spec
    (fun i => (k.pcb k.current).filepointer i = -1) (MAX_FP_NUM - 3) 3).resolve_right
    fun hn => hne (.inr hn.1)
  have hj : getAvlFilepointer k = j := hj
  have hset : k'.descriptor (k.current, j) = getAvlSystemFile k := by
    rw [← Except.ok.inj h, hj]
    simp [Kernel.descriptor]
  have hfd : j = fd := by
    by_contra hne
    rw [ho.descriptor, Function.update_of_ne fun hc => hne (Prod.mk.inj hc).2, ho.slot] at hset
    have hneg : k.descriptor (k.current, j) = -1 := hunused
    omega
  rw [← hfd, ← hj, ← Except.ok.inj h]
  exact tf_setEax ((k.setFile (getAvlSystemFile k).toNat fun _ => ⟨index, 1, 0⟩).setFilepointer
    (getAvlFilepointer k).toNat (getAvlSystemFile k)) (getAvlFilepointer k)

/-- **An open** returns a new descriptor of the file. -/
theorem stored_open {path : ℕ} {name : FilePath} (h : HasStore k σ) (hf : FilesKept k Q) (hu : userMode k)
    (hstr : cstring k path = .ok name.val) (hk : openAux path k = .ok k') :
    ∃ σ', Store.Step 0 σ (.openFile k.current name (eaxOf k k')) σ' ∧ HasStore k' σ' := by
  obtain ⟨str, hstr', hk⟩ := bind_eq_ok.mp hk
  obtain rfl : name.val = str := Except.ok.inj (hstr.symm.trans hstr')
  obtain ⟨r, hlook, hslot⟩ := bind_eq_ok.mp hk
  obtain ⟨x, hx, hup⟩ := lookedUp_openLookup h.wf h.clean hlook
  obtain ⟨s, fd, ho⟩ := openSlot_opened hslot
  -- the lookup changes the file system and nothing else
  have hrest := openLookup_rest hlook
  have hcur : r.2.current = k.current := by rw [hrest]
  have hdesc : r.2.descriptor = k.descriptor := by rw [hrest]; rfl
  have hfp : (r.2.pcb r.2.current).filepointer = (k.pcb k.current).filepointer := by rw [hrest]
  have htab : k'.sysFileTable = Function.update k.sysFileTable s ⟨x, 1, 0⟩ := by
    rw [ho.sysFileTable, hx, hrest]
  have hfree : getAvlSystemFile k = s := by
    rw [← ho.slot, hrest]
    rfl
  have hfd : fd < 8 := ho.index
  have heax : eaxOf k k' = fd := by
    have hword := eax_openSlot hslot ho
    rw [hcur] at hword
    have := toNat_wordOf (x := (fd : ℤ)) (by omega) (by omega)
    rw [eaxOf, hword]
    omega
  have hset : DescriptorSet k k' k.current fd s := by
    refine ⟨hf.sound.placed.current_mem hu.1, ho.index, ?_⟩
    rw [ho.descriptor, hdesc, hcur]
  have hunused : (k.pcb k.current).filepointer fd = -1 := by
    rw [← hfp]
    exact ho.unused
  have hnew : ∀ q j, σ.descriptor q j ≠ some s := by
    intro q j hq
    rw [h.descriptor] at hq
    exact (heldSlot_eq_some.mp hq).refs_ne_zero (hf.files.getAvlSystemFile hfree).2
  have hclosed : σ.descriptor k.current fd = none := by
    rw [h.descriptor]
    exact heldSlot_eq_none fun _ => hunused
  have hstep : Store.Step 0 σ (.openFile k.current name fd) _ := .openFile hclosed hnew
  rw [heax]
  have hfs := ho.fs
  refine ⟨_, hstep, by rw [hfs]; exact hup.wf, by rw [hfs]; exact hup.clean, hstep.sane h.sane, ?_, ?_, ?_⟩
  · rw [hfs, hup.files, ← h.files]
    rfl
  · funext q j
    rw [Store.setDescriptor_descriptor, heldSlot_set hset, if_pos (Int.natCast_nonneg s),
      Int.toNat_natCast, ← h.descriptor]
    rfl
  · intro q j t g hj hg
    rw [Store.setDescriptor_descriptor] at hj
    split_ifs at hj with hq
    · obtain rfl := Option.some.inj hj
      obtain rfl := Option.some.inj ((Function.update_self (f := σ.opened) ..).symm.trans hg)
      refine ⟨x, by rw [hfs]; exact hup.file, ?_, ?_, Nat.two_pow_pos 31⟩
      · rw [htab, Function.update_self]
      · rw [htab, Function.update_self]
        rfl
    · have hts : t ≠ s := by
        rintro rfl
        exact hnew q j hj
      have hg : σ.opened t = some g := (Function.update_of_ne hts _ _).symm.trans hg
      obtain ⟨i, hopen⟩ := h.opened q j t g hj hg
      refine ⟨i, by rw [hfs]; exact hup.kept _ _ hopen.file, ?_, ?_, hopen.lt⟩
      · rw [htab, Function.update_of_ne hts]
        exact hopen.inodeIndex
      · rw [htab, Function.update_of_ne hts]
        exact hopen.offset

/-- **A close** takes the descriptor away. What is behind the others stays: a slot that one of them
refers to is not given back. -/
theorem stored_close (h : HasStore k σ) (hf : FilesKept k Q) (hf' : FilesCounted k') (hu : userMode k)
    (hk : closeAux fd k = .ok k') :
    ∃ σ', Store.Step 0 σ (.close k.current fd.toNat) σ' ∧ HasStore k' σ' := by
  obtain ⟨s, hs, -⟩ := bind_eq_ok.mp hk
  have hcl := closeAux_slot hs hk
  have hc := hf.sound.placed.current_mem hu.1
  have hset : DescriptorSet k k' k.current fd.toNat (-1) := ⟨hc, hcl.index, hcl.descriptor⟩
  have hd : σ.descriptor k.current fd.toNat = some s := by
    rw [h.descriptor]
    exact heldSlot_eq_some.mpr ⟨hc, hcl.index, hcl.held⟩
  have hstep := Store.Step.close (z := (0 : UInt8)) hd
  have hdesc : (σ.setDescriptor k.current fd.toNat none).descriptor = heldSlot k' := by
    funext q j
    have hneg : ¬(0 : ℤ) ≤ -1 := by decide
    rw [Store.setDescriptor_descriptor, heldSlot_set hset, if_neg hneg, ← h.descriptor]
  refine ⟨_, hstep, by rw [hcl.fs]; exact h.wf, by rw [hcl.fs]; exact h.clean, hstep.sane h.sane, ?_, hdesc, ?_⟩
  · rw [hcl.fs]
    exact h.files
  · intro q j t g hj hg
    have hheld : Held k' q j t := by
      rw [hdesc] at hj
      exact heldSlot_eq_some.mp hj
    rw [Store.setDescriptor_descriptor] at hj
    split_ifs at hj
    obtain ⟨i, hopen⟩ := h.opened q j t g hj hg
    have hfile : fileAt k'.fs g.name.val = some i := by
      rw [hcl.fs]
      exact hopen.file
    suffices hslot : (k'.sysFileTable t).inodeIndex = (k.sysFileTable t).inodeIndex ∧
        (k'.sysFileTable t).offset = (k.sysFileTable t).offset from
      ⟨i, hfile, hslot.1.trans hopen.inodeIndex, hslot.2.trans hopen.offset, hopen.lt⟩
    by_cases hts : t = s
    · subst hts
      have hin : (k'.sysFileTable t).inodeIndex ≠ -1 := by
        rw [Ne, hf'.inodeIndex t hcl.lt]
        exact hheld.refs_ne_zero
      rw [hcl.sysFileTable, Function.update_self] at hin ⊢
      unfold SysFile.released at hin ⊢
      split_ifs at hin ⊢
      · exact absurd rfl hin
      · exact ⟨rfl, rfl⟩
    · rw [hcl.sysFileTable, Function.update_of_ne hts]
      exact ⟨rfl, rfl⟩

/-- **A fork** hands the descriptors on. -/
theorem stored_fork (h : HasStore k σ) (hf : FilesKept k Q) (hu : userMode k) (hk : forkAux k = .ok k') :
    ∃ σ', Store.Step 0 σ (.fork k.current (.pcb k.pNum)) σ' ∧ HasStore k' σ' := by
  obtain ⟨hnew, -, -, nx, rfl⟩ := forkAux_placed hf.sound.placed hk
  have hchild := hf.sound.placed.lists.procs .free _ hnew
  have hnone : ∀ j, σ.descriptor (.pcb k.pNum) j = none := by
    intro j
    rw [h.descriptor]
    exact heldSlot_eq_none (hf.free _ hnew j)
  have hstep := Store.Step.fork (z := (0 : UInt8)) (p := k.current) hnone
  have hc := hf.sound.placed.current_mem hu.1
  have hdesc : Function.update σ.descriptor (.pcb k.pNum) (σ.descriptor k.current) =
      heldSlot ((forked k).relink nx) := by
    funext q j
    by_cases hq : q = .pcb k.pNum
    · subst hq
      rw [Function.update_self, h.descriptor]
      unfold heldSlot
      rw [Kernel.relink_pcb, forked_pcb, if_pos rfl]
      by_cases hj : j < MAX_FP_NUM
      · simp [childPcb, hchild, hc, hj]
      · simp [hj]
    · rw [Function.update_of_ne hq, h.descriptor]
      unfold heldSlot
      rw [Kernel.relink_pcb, forked_pcb, if_neg hq]
  refine ⟨_, hstep, h.wf, h.clean, hstep.sane h.sane, h.files, hdesc, ?_⟩
  intro q j t g hj hg
  obtain ⟨r, hr⟩ : ∃ r, σ.descriptor r j = some t := by
    by_cases hq : q = .pcb k.pNum
    · subst hq
      exact ⟨k.current, (congrFun (Function.update_self ..) j).symm.trans hj⟩
    · exact ⟨q, (congrFun (Function.update_of_ne hq _ _) j).symm.trans hj⟩
  obtain ⟨i, hopen⟩ := h.opened r j t g hr hg
  obtain ⟨hidx, hoff⟩ := addLinks_rest (k.pcb k.current).filepointer k.sysFileTable MAX_FP_NUM t
  exact ⟨i, hopen.file, hidx.trans hopen.inodeIndex, hoff.trans hopen.offset, hopen.lt⟩

end OsLab
