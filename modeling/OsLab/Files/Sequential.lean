import OsLab.Files.Held
import OsLab.Memory.Buffers

/-!
# Sequential access through a shared slot

A slot of the open-file table is shared by the descriptors that refer to it, in the process that
opened the file and in those that inherited it. The runs here keep the other calls away from the
file and the slot from being given back (`Leaves`); everything else may happen in between. In an
orderly run the slot is not given back while one of its descriptors stays open
(`Held.leaves_close`).

* `shared_writes`: what is written through the slot, by whomever, stands in the file one after
  another from the position where the slot was, and the slot is behind it. The size is the maximum
  of the old one and of that position, if there was a write at all.
* `shared_reads`: what is read through the slot is the file from there on, piece by piece, up to its
  end.
* `shared_access` says both of every state that a run reaches.
* `seek_no_write`: a position behind the end of the file is no write, and does not make the file
  longer.
-/

namespace OsLab

open OsLab.Lib

variable {k k' k0 k1 k2 : Kernel} {Q : Queues} {e : Event} {es es0 : List Event} {p : Node}
  {fd s i o n : ℕ} {img : Image}

/-! ### What the others do -/

/-- No call on files but through slot `s` changes the data of inode `i`, and no close gives the slot
back. -/
def Leaves (s i : ℕ) (k : Kernel) : Event → Prop
  | .sys (.openPath ..) | .sys (.remove _) => False
  | .sys (.close fd) => slotOf fd k = .ok s → i32 ((k.sysFileTable s).linkNum - 1) ≠ 0
  | .sys c => ∀ fd buf len t, c.access k = some (fd, .write buf len) → slotOf fd k = .ok t → t ≠ s →
      (k.sysFileTable t).inodeIndex ≠ i
  | _ => True

/-- In an orderly run, a close of another descriptor is such an event while a process holds one. -/
theorem Held.leaves_close {fd' : ℤ} (hf : FilesKept k Q) (h : Held k p fd s)
    (hc : ¬closes p fd k (.sys (.close fd'))) (hk : step k (.sys (.close fd')) = .ok k') :
    Leaves s i k (.sys (.close fd')) := by
  intro ht
  simp only [step] at hk
  split_ifs at hk with hu
  exact h.linkNum_close hf hu hc ht hk

/-- The slot keeps its inode; its position and the data of that inode stay as they are, unless the
event goes through the slot. -/
theorem leaves_step (h : Sound k Q) (hl : Leaves s i k e) (hk : step k e = .ok k') :
    (k'.sysFileTable s).inodeIndex = (k.sysFileTable s).inodeIndex ∧ (¬through s k e →
      (k'.sysFileTable s).offset = (k.sysFileTable s).offset ∧ k'.fs.inode i = k.fs.inode i) := by
  cases onFiles_of_step h hk with
  | same hsame =>
    rw [hsame.sysFileTable, hsame.fs]
    exact ⟨rfl, fun _ => ⟨rfl, rfl⟩⟩
  | @access c fd' a t hu hacc ht hmoved hstep =>
    by_cases hts : s = t
    · subst hts
      exact ⟨hmoved.inodeIndex, fun hno => absurd ⟨c, fd', a, rfl, hacc, ht⟩ hno⟩
    · rw [hmoved.others s hts]
      refine ⟨rfl, fun _ => ⟨rfl, ?_⟩⟩
      rcases accessStep_fs hstep with hfs | ⟨buf, len, v, rfl, hw⟩
      · exact congrArg (fun fs : FileSystem => fs.inode i) hfs
      · obtain ⟨x, -, hx, block, -, -, -, hfs⟩ := writeF_inv hw
        have hne : (k.sysFileTable t).inodeIndex ≠ i := by
          cases c with
          | write fd buf len => exact hl _ _ _ t hacc ht (Ne.symm hts)
          | read fd buf len =>
            simp only [Syscall.access] at hacc
            split_ifs at hacc
            cases (Prod.mk.inj (Option.some.inj hacc)).2
          | _ => cases hacc
        have hix : i ≠ x := by
          rintro rfl
          exact hne hx
        change (position k' t).1.inode i = _
        rw [hfs, setInode_of_ne hix]
        rfl
  | openFile hu hstr hlook hslot => exact hl.elim
  | @close fd' hu hclose =>
    obtain ⟨t, ht, -⟩ := bind_eq_ok.mp hclose
    have hcl := closeAux_slot ht hclose
    by_cases hts : s = t
    · subst hts
      have htab : k'.sysFileTable s =
          { k.sysFileTable s with linkNum := i32 ((k.sysFileTable s).linkNum - 1) } := by
        rw [hcl.sysFileTable, Function.update_self, SysFile.released, if_neg (hl ht)]
      rw [htab, hcl.fs]
      exact ⟨rfl, fun _ => ⟨rfl, rfl⟩⟩
    · rw [hcl.sysFileTable, Function.update_of_ne hts, hcl.fs]
      exact ⟨rfl, fun _ => ⟨rfl, rfl⟩⟩
  | remove hu hstr hrm heq => exact hl.elim
  | fork hu hfork =>
    obtain ⟨-, -, -, nx, rfl⟩ := forkAux_placed h.placed hfork
    obtain ⟨hidx, hoff⟩ := addLinks_rest (k.pcb k.current).filepointer k.sysFileTable MAX_FP_NUM s
    exact ⟨hidx, fun _ => ⟨hoff, rfl⟩⟩

/-! ### Writes -/

/-- The buffer that the event writes through slot `s`, if it does. -/
def wrote (s : ℕ) (k : Kernel) (e : Event) (_ : Kernel) : List (List UInt8) :=
  match e with
  | .sys c =>
    match c.access k with
    | some (fd, .write buf len) =>
      match slotOf fd k with
      | .ok t => if t = s then [slice buf 0 len.toNat] else []
      | .error _ => []
    | _ => []
  | _ => []

/-- A call through slot `s` is a write of a length that is not negative, and fits. -/
def appends (s : ℕ) (k : Kernel) (e : Event) : Prop :=
  ∀ c fd a, e = .sys c → c.access k = some (fd, a) → slotOf fd k = .ok s →
    ∃ buf len, a = .write buf len ∧ 0 ≤ len ∧ (k.sysFileTable s).offset + len < 32768

/-- What a write through the slot wrote. -/
theorem wrote_of_through {c : Syscall} {fd : ℤ} {buf : ℕ → UInt8} {len : ℤ}
    (hc : c.access k = some (fd, .write buf len)) (hs : slotOf fd k = .ok s) :
    wrote s k (.sys c) k' = [slice buf 0 len.toNat] := by
  simp only [wrote, hc, hs, if_true]

/-- An event that does not go through the slot wrote nothing through it. -/
theorem wrote_of_not_through (h : ¬through s k e) : wrote s k e k' = [] := by
  unfold wrote
  split
  · next c =>
    split
    · next fd buf len hc =>
      split
      · next t ht =>
        rw [if_neg]
        rintro rfl
        exact h ⟨c, fd, _, rfl, hc, ht⟩
      · rfl
    · rfl
  · rfl

/-- `bufs` have been written from position `o` on to inode `i`, which was `d` before. -/
structure Appended (k : Kernel) (s i o : ℕ) (d : Inode) (bufs : List (List UInt8)) : Prop where
  inodeIndex : (k.sysFileTable s).inodeIndex = i
  offset : (k.sysFileTable s).offset = (o + bufs.flatten.length : ℕ)
  bytes : slice (k.fs.inode i).block o bufs.flatten.length = bufs.flatten
  others : ∀ a, a < o ∨ o + bufs.flatten.length ≤ a → (k.fs.inode i).block a = d.block a
  size : (k.fs.inode i).filesz.toNat =
    if bufs = [] then d.filesz.toNat else max d.filesz.toNat (o + bufs.flatten.length)

/-- **One more write** goes behind the others. -/
theorem Appended.write {d : Inode} {bufs : List (List UInt8)} {buf : ℕ → UInt8} {len : ℤ}
    (h : Appended k s i o d bufs) (hlen : 0 ≤ len) (hfit : (k.sysFileTable s).offset + len < 32768)
    (hidx : (k'.sysFileTable s).inodeIndex = (k.sysFileTable s).inodeIndex)
    (hstep : accessStep (k.sysFileTable s).inodeIndex (position k s) (.write buf len) =
      .ok (position k' s)) : Appended k' s i o d (bufs ++ [slice buf 0 len.toNat]) := by
  obtain ⟨n, rfl⟩ := Int.eq_ofNat_of_zero_le hlen
  rw [h.offset] at hfit
  rw [h.inodeIndex] at hstep hidx
  unfold position at hstep
  rw [h.offset] at hstep
  set m := bufs.flatten.length with hm
  have hfit' : n + (o + m) < MAX_FILE_SZ_KB * 1024 := by
    have : n + (o + m) < 32768 := by omega
    exact this
  obtain ⟨r, hr, hstep⟩ := bind_eq_ok.mp hstep
  obtain ⟨x, hx, hix, -⟩ := writeF_inv (v := r.2) hr
  obtain rfl : i = x := by exact_mod_cast hix
  have hnew : k'.fs = k.fs.setInode i
      ((k.fs.inode i).written ((k.fs.inode i).file.write (o + m) n buf)) := by
    obtain ⟨hfs, -⟩ := Prod.mk.inj (Except.ok.inj hstep)
    rw [← hfs, ← (Prod.mk.inj (Except.ok.inj ((writeF_eq hx hfit').symm.trans hr))).1]
  have hoff : (k'.sysFileTable s).offset = ((o + m + n : ℕ) : ℤ) := by
    obtain ⟨-, hoff⟩ := Prod.mk.inj (Except.ok.inj hstep)
    rw [← hoff, i32_eq_self (by omega) (by omega)]
    omega
  have hfile : (k'.fs.inode i).file = (k.fs.inode i).file.write (o + m) n buf := by
    rw [hnew, setInode_self, Inode.written_file (Inode.write_size_lt hfit')]
  have hblock : (k'.fs.inode i).block = ((k.fs.inode i).file.write (o + m) n buf).byte :=
    congrArg ArrayFile.byte hfile
  have hsize : (k'.fs.inode i).filesz.toNat = max (k.fs.inode i).filesz.toNat (o + m + n) :=
    congrArg ArrayFile.size hfile
  have hflat : (bufs ++ [slice buf 0 n]).flatten = bufs.flatten ++ slice buf 0 n := by simp
  have hlength : (bufs ++ [slice buf 0 n]).flatten.length = m + n := by
    rw [hflat, List.length_append, length_slice]
  refine ⟨hidx, ?_, ?_, ?_, ?_⟩
  · rw [hoff, Int.toNat_natCast, hlength, Nat.add_assoc]
  · rw [Int.toNat_natCast, hlength, hflat, slice_append, hblock,
      ArrayFile.slice_write_of_le (Nat.le_refl _), ArrayFile.slice_write]
    exact congrArg (· ++ slice buf 0 n) h.bytes
  · intro a ha
    rw [Int.toNat_natCast, hlength] at ha
    rw [hblock, ArrayFile.write_byte_outside (by omega)]
    exact h.others a (by omega)
  · rw [Int.toNat_natCast, hlength, if_neg (by simp), hsize, h.size]
    split_ifs with hnil
    · have hm0 : m = 0 := by rw [hm, hnil]; rfl
      rw [hm0, Nat.add_zero, Nat.zero_add]
    · omega

/-- **Writes through one slot** stand one after another. -/
theorem shared_writes (hs : Sound k1 Q) (hi : (k1.sysFileTable s).inodeIndex = i)
    (ho : (k1.sysFileTable s).offset = o)
    (hr : Reaches step (fun k e => Leaves s i k e ∧ appends s k e) k1 es k2) :
    Appended k2 s i o (k1.fs.inode i) (log step (wrote s) k1 es) := by
  have hstart : Appended k1 s i o (k1.fs.inode i) [] := by
    refine ⟨hi, ?_, rfl, fun _ _ => rfl, rfl⟩
    rw [List.flatten_nil, List.length_nil, Nat.add_zero]
    exact ho
  have hrun := hr.invariant (P := fun es k => ∃ Q, Sound k Q ∧
    Appended k s i o (k1.fs.inode i) (log step (wrote s) k1 es)) ⟨Q, hs, hstart⟩ ?_
  · obtain ⟨-, -, happ⟩ := hrun
    exact happ
  intro es k k' e hr ⟨Q, hs, happ⟩ ⟨hl, ha⟩ hk
  refine ⟨_, (sound_step hs hk).1, ?_⟩
  obtain ⟨hidx, hrest⟩ := leaves_step hs hl hk
  rw [log_snoc hr.run_eq hk]
  by_cases hthrough : through s k e
  · obtain ⟨c, fd, a, rfl, hc, ht⟩ := hthrough
    obtain ⟨buf, len, rfl, hlen, hfit⟩ := ha c fd a rfl hc ht
    rw [wrote_of_through hc ht]
    refine happ.write hlen hfit hidx ?_
    simp only [step] at hk
    split_ifs at hk with hu
    obtain ⟨t, ht', -, hstep⟩ := access_of_doSyscall hc hk
    obtain rfl : s = t := Except.ok.inj (ht.symm.trans ht')
    exact hstep
  · obtain ⟨hoff, hinode⟩ := hrest hthrough
    rw [wrote_of_not_through hthrough, List.append_nil]
    exact ⟨hidx.trans happ.inodeIndex, hoff.trans happ.offset, by rw [hinode]; exact happ.bytes,
      by rw [hinode]; exact happ.others, by rw [hinode]; exact happ.size⟩

/-! ### Reads -/

/-- The length that the event asks for through slot `s`, and what it returns: `eax` bytes in the
buffer. -/
def received (s : ℕ) (k : Kernel) (e : Event) (k' : Kernel) : List (ℕ × List UInt8) :=
  match e with
  | .sys (.read fd buf len) =>
    if fd = stdin then [] else
      match slotOf fd k with
      | .ok t =>
        if t = s then
          [(len.toNat, loadBytes k'.mem (userBuf buf k) (k'.tf k.current .eax).toNat)]
        else []
      | .error _ => []
  | _ => []

/-- A call through slot `s` is a read of at most 2^30 bytes, to an address. -/
def fetches (s : ℕ) (k : Kernel) (e : Event) : Prop :=
  ∀ c fd a, e = .sys c → c.access k = some (fd, a) → slotOf fd k = .ok s →
    ∃ buf len, c = .read fd buf len ∧ buf < 2 ^ 32 ∧ 0 ≤ len ∧ len ≤ 2 ^ 30

/-- An event that does not go through the slot received nothing through it. -/
theorem received_of_not_through (h : ¬through s k e) : received s k e k' = [] := by
  unfold received
  split
  · next fd buf len =>
    split_ifs with hin
    · rfl
    · split
      · next t ht =>
        rw [if_neg]
        rintro rfl
        exact h ⟨_, fd, .read len, rfl, if_neg hin, ht⟩
      · rfl
  · rfl

/-- The pieces `ps` have been read from position `o` on of inode `i`, which is `d`: together they
are the file from there on, as far as was asked for or to its end. -/
structure Fetched (k : Kernel) (s i o : ℕ) (d : Inode) (ps : List (ℕ × List UInt8)) : Prop where
  inodeIndex : (k.sysFileTable s).inodeIndex = i
  offset : (k.sysFileTable s).offset =
    (o + min (ps.map Prod.fst).sum (d.filesz.toNat - o) : ℕ)
  bytes : (ps.map Prod.snd).flatten = d.file.read o (ps.map Prod.fst).sum
  inode : k.fs.inode i = d

/-- **`read_aux`** on a file returns what is there and goes behind it, at most to the end of the
file. -/
theorem readFile_eq {fd : ℤ} {buf : ℕ} (ht : slotOf fd k = .ok s)
    (hi : (k.sysFileTable s).inodeIndex = i) (ho : (k.sysFileTable s).offset = o) (hlt : i < NR_INODE)
    (hsize : (k.fs.inode i).filesz.toNat ≤ 32768) (hle : o ≤ (k.fs.inode i).filesz.toNat)
    (hn : n ≤ 2 ^ 30) :
    readFile fd buf n k = .ok (({ k with
      mem := storeBytes k.mem buf ((k.fs.inode i).file.read o n) }.setEax
        ((k.fs.inode i).file.read o n).length).setFile s fun f =>
          { f with offset := (o + min n ((k.fs.inode i).filesz.toNat - o) : ℕ) }) := by
  have hfilesz : intOf (k.fs.inode i).filesz = (k.fs.inode i).filesz.toNat :=
    i32_eq_self (by omega) (by omega)
  have hoff : (if i32 ((k.sysFileTable s).offset + n) > intOf (k.fs.inode i).filesz then
      intOf (k.fs.inode i).filesz else i32 ((k.sysFileTable s).offset + n)) =
      (o + min n ((k.fs.inode i).filesz.toNat - o) : ℕ) := by
    rw [ho, hfilesz, i32_eq_self (by omega) (by omega)]
    split_ifs <;> omega
  simp only [readFile, ht, ok_bind]
  rw [hi, inodeAt_eq hlt, ho, readF_eq hlt hsize (by omega), ok_bind, ok_bind]
  simp only [Kernel.setFile, Kernel.store_sysFileTable]
  rw [hoff]
  rfl

/-- **One more read** returns the next piece. -/
theorem Fetched.read {d : Inode} {ps : List (ℕ × List UInt8)} {fd : ℤ} {buf : ℕ} {len : ℤ}
    (h : Fetched k s i o d ps) (ho : o ≤ d.filesz.toNat) (hsize : d.filesz.toNat ≤ 32768)
    (hin : fd ≠ stdin) (ht : slotOf fd k = .ok s) (hbuf : buf < 2 ^ 32) (h0 : 0 ≤ len) (hlen : len ≤ 2 ^ 30)
    (hk : doSyscall k (.read fd buf len) = .ok k') :
    Fetched k' s i o d (ps ++ received s k (.sys (.read fd buf len)) k') := by
  obtain ⟨n, rfl⟩ := Int.eq_ofNat_of_zero_le h0
  set m := (ps.map Prod.fst).sum with hm
  rw [doSyscall, readAux, if_neg hin] at hk
  have hlt : i < NR_INODE := by
    have hk := hk
    simp only [readFile, ht, ok_bind] at hk
    obtain ⟨bytes, hread, -⟩ := bind_eq_ok.mp hk
    obtain ⟨x, hx, -⟩ := bind_eq_ok.mp hread
    obtain ⟨j, hj, hij, -⟩ := inodeAt_inv hx
    rw [h.inodeIndex] at hij
    omega
  have hbufs : userBuf buf k < 2 ^ 32 := by
    unfold userBuf
    split_ifs
    · exact Nat.mod_lt _ (by decide)
    · exact hbuf
  have hread : readFile fd (userBuf buf k) n k = _ := readFile_eq ht h.inodeIndex h.offset hlt
    (by rw [h.inode]; exact hsize) (by rw [h.inode]; omega) (by omega)
  rw [h.inode] at hread
  set piece := d.file.read (o + min m (d.filesz.toNat - o)) n with hpiece
  have hlength : piece.length = min n (d.filesz.toNat - (o + min m (d.filesz.toNat - o))) :=
    ArrayFile.length_read
  obtain rfl := Except.ok.inj (hread.symm.trans hk)
  have heax : (wordOf piece.length).toNat = piece.length := by
    have := toNat_wordOf (x := piece.length) (by omega) (by omega)
    omega
  have hreceived : ∀ k'', k''.mem = storeBytes k.mem (userBuf buf k) piece →
      k''.tf k.current .eax = wordOf piece.length →
      received s k (.sys (.read fd buf n)) k'' = [(n, piece)] := by
    intro k'' hmem htf
    simp only [received, if_neg hin, ht, if_true, hmem, htf, heax, Int.toNat_natCast]
    rw [loadBytes_storeBytes hbufs (by omega)]
  have hflat : ((ps ++ [(n, piece)]).map Prod.snd).flatten = (ps.map Prod.snd).flatten ++ piece := by
    simp
  have hsum : ((ps ++ [(n, piece)]).map Prod.fst).sum = m + n := by
    simp [hm]
  rw [hreceived]
  · refine ⟨?_, ?_, ?_, h.inode⟩
    · simpa using h.inodeIndex
    · rw [hsum, Kernel.setFile_sysFileTable, Function.update_self]
      exact congrArg Int.ofNat (by omega)
    · rw [hflat, hsum, h.bytes, hpiece]
      exact ArrayFile.read_append
  · rfl
  · refine (setTf_tf _ _ _ _ _ _).trans ?_
    simp

/-- **Reads through one slot** return the file piece by piece. -/
theorem shared_reads (hs : Sound k1 Q) (hi : (k1.sysFileTable s).inodeIndex = i)
    (ho : (k1.sysFileTable s).offset = o) (hle : o ≤ (k1.fs.inode i).filesz.toNat)
    (hsize : (k1.fs.inode i).filesz.toNat ≤ 32768)
    (hr : Reaches step (fun k e => Leaves s i k e ∧ fetches s k e) k1 es k2) :
    Fetched k2 s i o (k1.fs.inode i) (log step (received s) k1 es) := by
  have hstart : Fetched k1 s i o (k1.fs.inode i) [] := by
    refine ⟨hi, ?_, rfl, rfl⟩
    rw [List.map_nil, List.sum_nil, Nat.zero_min, Nat.add_zero]
    exact ho
  have hrun := hr.invariant (P := fun es k => ∃ Q, Sound k Q ∧
    Fetched k s i o (k1.fs.inode i) (log step (received s) k1 es)) ⟨Q, hs, hstart⟩ ?_
  · obtain ⟨-, -, hfetched⟩ := hrun
    exact hfetched
  intro es k k' e hr ⟨Q, hs, hfetched⟩ ⟨hl, hf⟩ hk
  refine ⟨_, (sound_step hs hk).1, ?_⟩
  obtain ⟨hidx, hrest⟩ := leaves_step hs hl hk
  rw [log_snoc hr.run_eq hk]
  by_cases hthrough : through s k e
  · obtain ⟨c, fd, a, rfl, hc, ht⟩ := hthrough
    obtain ⟨buf, len, rfl, hbuf, h0, hlen⟩ := hf c fd a rfl hc ht
    simp only [Syscall.access] at hc
    split_ifs at hc with hin
    simp only [step] at hk
    split_ifs at hk with hu
    exact hfetched.read hle hsize hin ht hbuf h0 hlen hk
  · obtain ⟨hoff, hinode⟩ := hrest hthrough
    rw [received_of_not_through hthrough, List.append_nil]
    exact ⟨hidx.trans hfetched.inodeIndex, hoff.trans hfetched.offset, hfetched.bytes,
      hinode.trans hfetched.inode⟩

/-! ### Both -/

/-- **Shared sequential access**: in every state that a run reaches, writes through a slot stand in
the file one after another, and reads return it piece by piece. -/
theorem shared_access (hb : boot img = .ok k0) (hr : run step k0 es0 = .ok k1)
    (hi : (k1.sysFileTable s).inodeIndex = i) (ho : (k1.sysFileTable s).offset = o) :
    (∀ es k2, Reaches step (fun k e => Leaves s i k e ∧ appends s k e) k1 es k2 →
      Appended k2 s i o (k1.fs.inode i) (log step (wrote s) k1 es)) ∧
    (o ≤ (k1.fs.inode i).filesz.toNat → (k1.fs.inode i).filesz.toNat ≤ 32768 →
      ∀ es k2, Reaches step (fun k e => Leaves s i k e ∧ fetches s k e) k1 es k2 →
        Fetched k2 s i o (k1.fs.inode i) (log step (received s) k1 es)) := by
  have hrun : runFrom img es0 = .ok k1 := bind_eq_ok.mpr ⟨k0, hb, hr⟩
  obtain ⟨Q, hs⟩ := sound_run hrun
  constructor
  · intro es k2 h
    exact shared_writes hs hi ho h
  · intro hle hsize es k2 h
    exact shared_reads hs hi ho hle hsize h

/-- A write through the slot that fits is one of those that share it. -/
theorem write_shares {buf : ℕ} {len fd : ℤ} (ht : slotOf fd k = .ok s) (h0 : 0 ≤ len)
    (hfit : (k.sysFileTable s).offset + len < 32768) :
    Leaves s i k (.sys (.write fd buf len)) ∧ appends s k (.sys (.write fd buf len)) := by
  constructor
  · intro fd' buf' len' t hc ht' hts
    simp only [Syscall.access] at hc
    split_ifs at hc
    obtain rfl := (Prod.mk.inj (Option.some.inj hc)).1
    exact absurd (Except.ok.inj (ht'.symm.trans ht)) hts
  · intro c fd' a he hc ht'
    obtain rfl := Event.sys.inj he
    simp only [Syscall.access] at hc
    split_ifs at hc
    obtain ⟨rfl, rfl⟩ := Prod.mk.inj (Option.some.inj hc)
    exact ⟨_, len, rfl, h0, hfit⟩

/-- So is a read. -/
theorem read_shares {buf : ℕ} {len fd : ℤ} (hbuf : buf < 2 ^ 32) (h0 : 0 ≤ len) (hlen : len ≤ 2 ^ 30) :
    Leaves s i k (.sys (.read fd buf len)) ∧ fetches s k (.sys (.read fd buf len)) := by
  constructor
  · intro fd' buf' len' t hc ht' hts
    simp only [Syscall.access] at hc
    split_ifs at hc
    cases (Prod.mk.inj (Option.some.inj hc)).2
  · intro c fd' a he hc ht'
    obtain rfl := Event.sys.inj he
    simp only [Syscall.access] at hc
    split_ifs at hc
    obtain ⟨rfl, -⟩ := Prod.mk.inj (Option.some.inj hc)
    exact ⟨buf, len, rfl, hbuf, h0, hlen⟩

/-! ### Two processes at one slot -/

/-- The event does not go through slot `s` and leaves inode `i` alone: it schedules, forks, closes a
descriptor that is not the last one of the slot, or writes another file. -/
def besides (s i : ℕ) (k : Kernel) : Event → Bool
  | .timer | .sys .fork | .sys (.sleep _) => true
  | .sys (.close fd) => slotOf fd k = .ok s → i32 ((k.sysFileTable s).linkNum - 1) ≠ 0
  | .sys (.write fd _ _) =>
    match slotOf fd k with
    | .ok t => t ≠ s ∧ (k.sysFileTable t).inodeIndex ≠ i
    | .error _ => false
  | _ => false

/-- An event besides the slot leaves the file and the position. -/
theorem leaves_of_besides (h : besides s i k e) : Leaves s i k e := by
  cases e with
  | timer => trivial
  | key c => cases h
  | store a b => cases h
  | sys c =>
    cases c with
    | fork => exact fun _ _ _ _ hc => nomatch hc
    | sleep n => exact fun _ _ _ _ hc => nomatch hc
    | close fd =>
      have hkept : slotOf fd k = .ok s → i32 ((k.sysFileTable s).linkNum - 1) ≠ 0 :=
        of_decide_eq_true h
      exact hkept
    | write fd buf len =>
      intro fd' buf' len' t hc ht _
      simp only [Syscall.access] at hc
      split_ifs at hc
      obtain rfl := (Prod.mk.inj (Option.some.inj hc)).1
      simp only [besides, ht] at h
      exact (of_decide_eq_true h).2
    | _ => cases h

/-- And it does not go through the slot. -/
theorem not_through_of_besides (h : besides s i k e) : ¬through s k e := by
  rintro ⟨c, fd, a, rfl, hc, ht⟩
  cases c with
  | write fd' buf len =>
    simp only [Syscall.access] at hc
    split_ifs at hc
    obtain rfl := (Prod.mk.inj (Option.some.inj hc)).1
    simp only [besides, ht] at h
    exact (of_decide_eq_true h).1 rfl
  | read fd' buf len => cases h
  | seek fd' offset whence => cases h
  | _ => cases hc

/-- Such an event, or a write through the slot that fits. -/
def sharesWrites (s i : ℕ) (k : Kernel) (e : Event) : Bool :=
  besides s i k e ||
    match e with
    | .sys (.write fd _ len) => slotOf fd k = .ok s ∧ 0 ≤ len ∧ (k.sysFileTable s).offset + len < 32768
    | _ => false

/-- Such an event, or a read through the slot. -/
def sharesReads (s i : ℕ) (k : Kernel) (e : Event) : Bool :=
  besides s i k e ||
    match e with
    | .sys (.read _ buf len) => buf < 2 ^ 32 ∧ 0 ≤ len ∧ len ≤ 2 ^ 30
    | _ => false

/-- The conditions on the events of writers are enough. -/
theorem shares_of_sharesWrites (h : sharesWrites s i k e) : Leaves s i k e ∧ appends s k e := by
  rcases Bool.or_eq_true_iff.mp h with h | h
  · exact ⟨leaves_of_besides h, fun c fd a he hc ht => absurd ⟨c, fd, a, he, hc, ht⟩
      (not_through_of_besides h)⟩
  · split at h
    · obtain ⟨ht, h0, hfit⟩ := of_decide_eq_true h
      exact write_shares ht h0 hfit
    · cases h

/-- So are those on the events of readers. -/
theorem shares_of_sharesReads (h : sharesReads s i k e) : Leaves s i k e ∧ fetches s k e := by
  rcases Bool.or_eq_true_iff.mp h with h | h
  · exact ⟨leaves_of_besides h, fun c fd a he hc ht => absurd ⟨c, fd, a, he, hc, ht⟩
      (not_through_of_besides h)⟩
  · split at h
    · obtain ⟨hbuf, h0, hlen⟩ := of_decide_eq_true h
      exact read_shares hbuf h0 hlen
    · cases h

/-- Two bytes are written to a file, and the position goes back to its begin. -/
def twoBytes : List Event := List.replicate 10 .timer ++
  [.sys (.openPath 0x200300 0), .sys (.write 3 0x200300 2), .sys (.seek 3 0 0)]

/-- The first process calls `c`, forks and sleeps for a tick. The child calls `c'` through the
descriptor that it has inherited, closes it and sleeps, and the first process calls `c''`. -/
def inTurns (c c' c'' : Syscall) : List Event :=
  [.sys c, .sys .fork, .sys (.sleep 1), .sys c', .sys (.close 3), .timer, .sys (.sleep 5), .sys c'']

/-- The two write one byte, two bytes and one byte. -/
def writesInTurns : List Event :=
  inTurns (.write 3 0x200300 1) (.write 3 0x300 2) (.write 3 0x200300 1)

/-- They read one byte, another one, and at most five. -/
def readsInTurns : List Event :=
  inTurns (.read 3 0x200400 1) (.read 3 0x400 1) (.read 3 0x200400 5)

/-- So the file gets four bytes, one behind the other, or is read to its end. -/
theorem shared_access_twoHolders : ∃ k1, runFrom .withPath twoBytes = .ok k1 ∧
    (∃ k2, run step k1 writesInTurns = .ok k2 ∧
      Appended k2 0 1 0 (k1.fs.inode 1) (log step (wrote 0) k1 writesInTurns) ∧
      (log step (wrote 0) k1 writesInTurns).map List.length = [1, 2, 1]) ∧
    ∃ k2, run step k1 readsInTurns = .ok k2 ∧
      ((log step (received 0) k1 readsInTurns).map Prod.snd).flatten = [47, 97] := by
  have hrun : okAnd (runFrom .withPath twoBytes) (fun k =>
      decide (k.sysFileTable 0 = ⟨1, 1, 0⟩ ∧ (k.fs.inode 1).filesz.toNat = 2 ∧
        (k.fs.inode 1).file.read 0 7 = [47, 97]) &&
      (decide ((log step (wrote 0) k writesInTurns).map List.length = [1, 2, 1]) &&
        (checkedRun step (fun k e => sharesWrites 0 1 k e) k writesInTurns).isSome) &&
      (decide (((log step (received 0) k readsInTurns).map Prod.fst).sum = 7) &&
        (checkedRun step (fun k e => sharesReads 0 1 k e) k readsInTurns).isSome)) = true := by
    decide +kernel
  obtain ⟨k1, hk1, hp⟩ := okAnd_eq_true.mp hrun
  obtain ⟨hp, hp2⟩ := Bool.and_eq_true_iff.mp hp
  obtain ⟨hstart, hp1⟩ := Bool.and_eq_true_iff.mp hp
  obtain ⟨hlengths, hwrites⟩ := Bool.and_eq_true_iff.mp hp1
  obtain ⟨hsum, hreads⟩ := Bool.and_eq_true_iff.mp hp2
  obtain ⟨htab, hsize, hfile⟩ := of_decide_eq_true hstart
  obtain ⟨kw, hkw⟩ := Option.isSome_iff_exists.mp hwrites
  obtain ⟨kr, hkr⟩ := Option.isSome_iff_exists.mp hreads
  have hw := Reaches.of_checkedRun hkw
  have hr := Reaches.of_checkedRun hkr
  obtain ⟨k0, hb, hes⟩ := bind_eq_ok.mp hk1
  obtain ⟨happ, hfetch⟩ := shared_access (s := 0) (i := 1) (o := 0) hb hes (by rw [htab]; rfl)
    (by rw [htab]; rfl)
  have hread := hfetch (Nat.zero_le _) (by omega) _ _ (hr.mono fun k e h => shares_of_sharesReads h)
  have hsum := of_decide_eq_true hsum
  exact ⟨k1, hk1, ⟨kw, hw.run_eq, happ _ _ (hw.mono fun k e h => shares_of_sharesWrites h),
    of_decide_eq_true hlengths⟩, kr, hr.run_eq,
    hread.bytes.trans ((congrArg ((k1.fs.inode 1).file.read 0) hsum).trans hfile)⟩

/-- **A position is no write**: behind the end of the file, with nothing written, it does not make
the file longer. -/
theorem seek_no_write : ¬∀ (img : Image) (k0 k1 k2 : Kernel) (es0 es : List Event) (s i o : ℕ),
    boot img = .ok k0 → run step k0 es0 = .ok k1 → (k1.sysFileTable s).inodeIndex = i →
    (k1.sysFileTable s).offset = o →
    Reaches step (fun k e => Leaves s i k e ∧ appends s k e) k1 es k2 →
    (k2.fs.inode i).filesz.toNat = max (k1.fs.inode i).filesz.toNat
      (o + (log step (wrote s) k1 es).flatten.length) := by
  intro hall
  have hrun : okAnd (runFrom .withPath (twoBytes ++ [.sys (.seek 3 5 0)])) (fun k =>
      decide (k.sysFileTable 0 = ⟨1, 1, 5⟩ ∧ (k.fs.inode 1).filesz.toNat = 2)) = true := by
    decide +kernel
  obtain ⟨k1, hk1, hp⟩ := okAnd_eq_true.mp hrun
  obtain ⟨htab, hsize⟩ := of_decide_eq_true hp
  obtain ⟨k0, hb, hes⟩ := bind_eq_ok.mp hk1
  have hmax := hall _ k0 k1 k1 _ [] 0 1 5 hb hes (by rw [htab]; rfl) (by rw [htab]; rfl) .nil
  rw [hsize, log_nil] at hmax
  exact absurd hmax (by decide)

end OsLab
