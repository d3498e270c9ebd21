import OsLab.Devices.Disk
import OsLab.Lib.Memory

/-!
# Loading programs

Loading a segment lays two pieces over the memory: the whole sectors that `readBytes` transfers, which
begin before the segment and end behind it (`readAt`), and the zeros of its last part (`storeAt`).

* `loadSegments_eq`: the loop of the loaders lays the pieces of all segments over the memory, one
  after another, as long as no piece changes the program headers that are still to be read.
* `Direct`: besides, no sector reaches the memory that the loader runs in, and the sectors of a segment
  with bytes in the file are those that hold them.
* **`segments_intact_iff`**: so all segments end up intact exactly if, wherever the sectors of later
  segments reach into an earlier one, the last of them puts the byte there that belongs there.
* `bss_overwritten`: two neighbouring segments, of which the second fills the zeros of the first with
  bytes of the file.
-/

namespace OsLab

open OsLab.Lib

variable {disk : Disk} {mem : ℕ → UInt8} {base buf a i j n : ℕ} {s t : ProgramHeader} {own : Set ℕ}

/-! ### The file -/

/-- The two loaders; `buffer` is an address that the linker chooses. -/
inductive Loader
  | app (buffer : ℕ)
  | kernel

/-- Where the file begins on the disk. -/
def Loader.offsetInDisk : Loader → ℕ
  | .app _ => 512 + 102400
  | .kernel => 512

/-- Where the headers are read to. -/
def Loader.elf : Loader → ℕ
  | .app buffer => buffer
  | .kernel => 0x8000

/-- The memory that the loader leaves. -/
def Loader.load (disk : Disk) (mem : ℕ → UInt8) : Loader → ℕ → UInt8
  | .app buffer => (loadUMain disk buffer mem).1
  | .kernel => (bootMain disk mem).1

/-- The bytes of the file that begins at byte `base` of the disk. -/
def fileByte (disk : Disk) (base o : ℕ) : UInt8 := diskByte disk (base + o)

/-- The file's header. -/
def fileHeader (disk : Disk) (base : ℕ) : ELFHeader := elfHeader (fileByte disk base) 0

/-- The start of the file's program header table. -/
def tableAt (disk : Disk) (base : ℕ) : ℕ := (fileHeader disk base).phoff.toNat

/-- The length of the table. -/
def tableSize (disk : Disk) (base : ℕ) : ℕ := PH_SIZE * (fileHeader disk base).phnum.toNat

/-- The file's program headers. -/
def headerOf (disk : Disk) (base i : ℕ) : ProgramHeader :=
  programHeader (fileByte disk base) (tableAt disk base + PH_SIZE * i)

/-- The segments among `n` program headers from the one with index `j` on. -/
def segmentsFrom (disk : Disk) (base j n : ℕ) : List ProgramHeader :=
  ((List.range' j n).map (headerOf disk base)).filter fun h => h.type = PT_LOAD

/-- The file's segments. -/
def segments (disk : Disk) (base : ℕ) : List ProgramHeader :=
  segmentsFrom disk base 0 (fileHeader disk base).phnum.toNat

/-- The address belongs to the segment. -/
def ProgramHeader.covers (s : ProgramHeader) (a : ℕ) : Prop :=
  s.paddr.toNat ≤ a ∧ a < s.paddr.toNat + s.memsz.toNat

/-- The byte that belongs to an address of the segment. -/
def neededAt (disk : Disk) (base : ℕ) (s : ProgramHeader) (a : ℕ) : UInt8 :=
  if a < s.paddr.toNat + s.filesz.toNat then fileByte disk base (s.off.toNat + (a - s.paddr.toNat))
  else 0

/-- The segment is in memory: its bytes of the file, and zeros behind them. -/
structure Intact (disk : Disk) (base : ℕ) (mem : ℕ → UInt8) (s : ProgramHeader) : Prop where
  file : ∀ i < s.filesz.toNat, mem (s.paddr.toNat + i) = fileByte disk base (s.off.toNat + i)
  zero : ∀ i, s.filesz.toNat ≤ i → i < s.memsz.toNat → mem (s.paddr.toNat + i) = 0

/-- The file's tables are where the loader looks, and its segments keep out of each other's way, off
the loader's buffer, and off the memory that it runs in: its code, its variables and its stack. -/
structure Loadable (disk : Disk) (base buf : ℕ) (own : Set ℕ) : Prop where
  table : tableAt disk base + tableSize disk base ≤ 4096
  size : ∀ s ∈ segments disk base, s.filesz.toNat ≤ s.memsz.toNat
  disjoint : (segments disk base).Pairwise fun s t => ∀ a, ¬(s.covers a ∧ t.covers a)
  apart : ∀ s ∈ segments disk base, ∀ a, s.covers a → a < buf ∨ buf + 4096 ≤ a
  outside : ∀ s ∈ segments disk base, ∀ a, s.covers a → a ∉ own
  buffer : ∀ a ∈ own, a < buf ∨ buf + 4096 ≤ a

/-! ### The pieces of a segment -/

/-- What `readBytes` puts at an address when it loads the segment: the sectors from that of the disk
offset on, laid from the address on that is stepped back. -/
def readAt (disk : Disk) (base : ℕ) (s : ProgramHeader) (a : ℕ) : Option UInt8 :=
  let d := segmentOffset base s
  let start : ℤ := s.paddr.toNat - d.tmod SECTSIZE
  if 0 ≤ start ∧ start ≤ a ∧
      a < start + SECTSIZE * sectors (s.filesz.toNat + d.tmod SECTSIZE).toNat then
    some (disk (lba (d.tdiv SECTSIZE + ((a - start).toNat / SECTSIZE : ℕ))) ((a - start).toNat % SECTSIZE))
  else none

/-- What loading the segment puts there. -/
def storeAt (disk : Disk) (base : ℕ) (s : ProgramHeader) (a : ℕ) : Option UInt8 :=
  if s.paddr.toNat + s.filesz.toNat ≤ a ∧ a < s.paddr.toNat + s.memsz.toNat then some 0
  else readAt disk base s a

/-- Where a segment is stored does not depend on what the disk holds. -/
theorem storeAt_eq_none_iff {disk disk' : Disk} {base : ℕ} {s : ProgramHeader} {a : ℕ} :
    storeAt disk' base s a = none ↔ storeAt disk base s a = none := by
  unfold storeAt readAt
  dsimp only
  split_ifs <;> exact Iff.rfl

/-- The range is set, the rest is kept. -/
theorem memSet_eq {beg e : ℕ} {bt : UInt8} :
    memSet beg e bt mem a = if beg ≤ a ∧ a < e then bt else mem a := by
  have hloop : ∀ n beg mem, memSetLoop bt n beg mem a = if beg ≤ a ∧ a < beg + n then bt else mem a := by
    intro n
    induction n with
    | zero =>
      intro beg mem
      rw [memSetLoop, if_neg (by omega)]
    | succ n ih =>
      intro beg mem
      rw [memSetLoop, ih]
      by_cases ha : a = beg
      · subst ha
        rw [if_neg (by omega), Function.update_self, if_pos (by omega)]
      · rw [Function.update_of_ne ha]
        split_ifs <;> first | rfl | omega
  rw [memSet, hloop]
  split_ifs <;> first | rfl | omega

/-- `readBytes` lays these sectors over the memory. -/
theorem readBytes_readAt : readBytes disk s.paddr.toNat (segmentOffset base s) s.filesz.toNat mem a =
    (readAt disk base s a).getD (mem a) := by
  have hsize : SECTSIZE = 512 := rfl
  have hmod : -512 < (segmentOffset base s).tmod SECTSIZE ∧ (segmentOffset base s).tmod SECTSIZE < 512 :=
    ⟨Int.lt_tmod_of_pos _ (by decide), Int.tmod_lt_of_pos _ (by decide)⟩
  unfold readBytes readAt
  dsimp only
  set r := (segmentOffset base s).tmod SECTSIZE
  by_cases hstart : (s.paddr.toNat : ℤ) - r < 0
  · rw [if_pos hstart, if_neg (by omega)]
    rfl
  · rw [if_neg hstart, readSects_eq (by rw [hsize]; omega)]
    have hlen : s.paddr.toNat + s.filesz.toNat - ((s.paddr.toNat : ℤ) - r).toNat =
        (s.filesz.toNat + r).toNat := by omega
    have hdist : a - ((s.paddr.toNat : ℤ) - r).toNat = ((a : ℤ) - (s.paddr.toNat - r)).toNat := by omega
    rw [hlen, hdist]
    split_ifs with h1 h2 h2
    · rfl
    · omega
    · omega
    · rfl

/-- **Loading a segment** lays its pieces over the memory. -/
theorem loadSegment_eq : loadSegment disk base s mem = overlay mem (storeAt disk base s) := by
  funext a
  unfold loadSegment overlay storeAt
  rw [memSet_eq]
  split_ifs with h
  · rfl
  · exact readBytes_readAt

/-- At an offset that does not become negative, the sectors lie so that the byte at the offset comes to
the address. -/
theorem readAt_of_low (hbase : base ≤ 2 ^ 20) (hlow : base + s.off.toNat < 2 ^ 31) :
    readAt disk base s a =
      let d := base + s.off.toNat
      if d % SECTSIZE ≤ s.paddr.toNat ∧ s.paddr.toNat ≤ a + d % SECTSIZE ∧
          a + d % SECTSIZE < s.paddr.toNat + SECTSIZE * sectors (d % SECTSIZE + s.filesz.toNat) then
        some (diskByte disk (d + a - s.paddr.toNat))
      else none := by
  have hoff : segmentOffset base s = (base + s.off.toNat : ℕ) := by
    unfold segmentOffset
    rw [i32_eq_self (by omega) (by omega)]
    push_cast
    rfl
  have hfile := s.filesz.toNat_lt
  have hpaddr := s.paddr.toNat_lt
  unfold readAt
  rw [hoff]
  dsimp only
  rw [tmod_sectsize, tdiv_sectsize]
  have hsize : SECTSIZE = 512 := rfl
  simp only [sectors, hsize, diskByte]
  have hlen : ((s.filesz.toNat : ℤ) + ((base + s.off.toNat) % 512 : ℕ)).toNat =
      (base + s.off.toNat) % 512 + s.filesz.toNat := by omega
  rw [hlen]
  split_ifs with h1 h2 h2
  · have hcast : (((base + s.off.toNat) / 512 : ℕ) : ℤ) +
        (((a : ℤ) - (s.paddr.toNat - ((base + s.off.toNat) % 512 : ℕ))).toNat / 512 : ℕ) =
          ((base + s.off.toNat + a - s.paddr.toNat) / 512 : ℕ) := by omega
    have hbyte : ((a : ℤ) - (s.paddr.toNat - ((base + s.off.toNat) % 512 : ℕ))).toNat % 512 =
        (base + s.off.toNat + a - s.paddr.toNat) % 512 := by omega
    rw [hcast, hbyte, lba_eq (by omega)]
  · omega
  · omega
  · rfl

/-- A segment's own pieces put the right bytes into it, if the sectors of its bytes in the file are
found and do not begin below 0. -/
theorem storeAt_covers (hbase : base ≤ 2 ^ 20)
    (hlow : 0 < s.filesz.toNat → base + s.off.toNat < 2 ^ 31)
    (hback : 0 < s.filesz.toNat → (base + s.off.toNat) % SECTSIZE ≤ s.paddr.toNat)
    (ha : s.covers a) : storeAt disk base s a = some (neededAt disk base s a) := by
  have hsize : SECTSIZE = 512 := rfl
  obtain ⟨h1, h2⟩ := ha
  unfold storeAt neededAt
  by_cases hfile : a < s.paddr.toNat + s.filesz.toNat
  · have hoff : base + s.off.toNat + a - s.paddr.toNat = base + (s.off.toNat + (a - s.paddr.toNat)) := by
      omega
    rw [if_neg (by omega), if_pos hfile, readAt_of_low hbase (hlow (by omega))]
    dsimp only
    rw [hoff]
    refine if_pos ⟨hback (by omega), by omega, ?_⟩
    simp only [sectors, hsize]
    omega
  · rw [if_pos ⟨by omega, h2⟩, if_neg hfile]

/-- Outside a segment only its sectors count. -/
theorem storeAt_of_not_covers (ha : ¬s.covers a) :
    storeAt disk base s a = readAt disk base s a := by
  unfold ProgramHeader.covers at ha
  exact if_neg (by omega)

/-- The segment is in memory iff each of its addresses holds the byte that belongs there. -/
theorem intact_iff (hle : s.filesz.toNat ≤ s.memsz.toNat) :
    Intact disk base mem s ↔ ∀ a, s.covers a → mem a = neededAt disk base s a := by
  unfold ProgramHeader.covers neededAt
  constructor
  · rintro ⟨hfile, hzero⟩ a ⟨h1, h2⟩
    obtain ⟨i, rfl⟩ := Nat.exists_eq_add_of_le h1
    rw [Nat.add_sub_cancel_left]
    split_ifs with h
    · exact hfile i (by omega)
    · exact hzero i (by omega) (by omega)
  · intro h
    constructor
    · intro i hi
      rw [h _ ⟨by omega, by omega⟩, if_pos (by omega), Nat.add_sub_cancel_left]
    · intro i h1 h2
      rw [h _ ⟨by omega, by omega⟩, if_neg (by omega)]

/-! ### The loop -/

/-- A program header depends on its own bytes only. -/
theorem programHeader_congr {mem' : ℕ → UInt8} {a' : ℕ}
    (h : ∀ i < PH_SIZE, mem (a + i) = mem' (a' + i)) : programHeader mem a = programHeader mem' a' := by
  have hword : ∀ o, o + 4 ≤ 32 → wordAt mem (a + o) = wordAt mem' (a' + o) := by
    intro o ho
    unfold wordAt
    simp only [Nat.add_assoc]
    rw [h o (by exact (by omega : o < 32)), h (o + 1) (by exact (by omega : o + 1 < 32)),
      h (o + 2) (by exact (by omega : o + 2 < 32)), h (o + 3) (by exact (by omega : o + 3 < 32))]
  have h0 := hword 0 (by decide)
  rw [Nat.add_zero, Nat.add_zero] at h0
  unfold programHeader
  rw [h0, hword 4 (by decide), hword 12 (by decide), hword 16 (by decide), hword 20 (by decide)]

/-- An ELF header depends on its first 46 bytes only. -/
theorem elfHeader_congr {mem' : ℕ → UInt8} {a' : ℕ}
    (h : ∀ i < 46, mem (a + i) = mem' (a' + i)) : elfHeader mem a = elfHeader mem' a' := by
  unfold elfHeader wordAt halfAt
  simp only [Nat.add_assoc]
  rw [h 24 (by decide), h (24 + 1) (by decide), h (24 + 2) (by decide), h (24 + 3) (by decide),
    h 28 (by decide), h (28 + 1) (by decide), h (28 + 2) (by decide), h (28 + 3) (by decide),
    h 44 (by decide), h (44 + 1) (by decide)]

/-- The memory holds the file's program header table where the loader looks for it. -/
def HoldsTable (disk : Disk) (base buf : ℕ) (mem : ℕ → UInt8) : Prop :=
  ∀ i < tableSize disk base, mem (buf + tableAt disk base + i) =
    fileByte disk base (tableAt disk base + i)

/-- No piece of a segment changes the table. -/
def KeepsTable (disk : Disk) (base buf : ℕ) (s : ProgramHeader) : Prop :=
  ∀ i < tableSize disk base, ∀ b, storeAt disk base s (buf + tableAt disk base + i) = some b →
    b = fileByte disk base (tableAt disk base + i)

/-- A segment that keeps away from the buffer keeps the table. -/
theorem HoldsTable.overlay (h : HoldsTable disk base buf mem) (hs : KeepsTable disk base buf s) :
    HoldsTable disk base buf (overlay mem (storeAt disk base s)) := by
  intro i hi
  rw [overlay_of_agree fun b hb => (hs i hi b hb).trans (h i hi).symm, h i hi]

/-- The list of the segments skips the headers of other types. -/
theorem segmentsFrom_succ : segmentsFrom disk base j (n + 1) =
    if (headerOf disk base j).type = PT_LOAD then
      headerOf disk base j :: segmentsFrom disk base (j + 1) n
    else segmentsFrom disk base (j + 1) n := by
  rw [segmentsFrom, List.range'_succ, List.map_cons, List.filter_cons]
  simp only [decide_eq_true_eq]
  rfl

/-- **The loop of the loaders** lays the pieces of the segments over the memory. -/
theorem loadSegments_eq (hj : PH_SIZE * (j + n) ≤ tableSize disk base) (hm : HoldsTable disk base buf mem)
    (hs : ∀ s ∈ segmentsFrom disk base j n, KeepsTable disk base buf s) :
    loadSegments disk base n (buf + tableAt disk base + PH_SIZE * j) mem =
      overlays mem ((segmentsFrom disk base j n).map (storeAt disk base)) := by
  induction n generalizing j mem with
  | zero => rfl
  | succ n ih =>
    have hsize : PH_SIZE = 32 := rfl
    rw [hsize] at hj
    have hhead : programHeader mem (buf + tableAt disk base + PH_SIZE * j) = headerOf disk base j := by
      refine programHeader_congr fun i hi => ?_
      rw [hsize] at hi ⊢
      rw [Nat.add_assoc, Nat.add_assoc (tableAt disk base)]
      exact hm _ (by omega)
    have hnext : buf + tableAt disk base + PH_SIZE * j + PH_SIZE =
        buf + tableAt disk base + PH_SIZE * (j + 1) := by rw [hsize]; omega
    have hrest : PH_SIZE * (j + 1 + n) ≤ tableSize disk base := by rw [hsize]; omega
    rw [loadSegments, hhead, hnext]
    rw [segmentsFrom_succ] at hs ⊢
    split_ifs at hs ⊢ with hty
    · have hkeep := hs (headerOf disk base j) (by simp)
      rw [loadSegment_eq, List.map_cons, overlays]
      exact ih hrest (hm.overlay hkeep) fun s hs' => hs s (List.mem_cons_of_mem _ hs')
    · exact ih hrest hm hs

/-! ### When the segments survive -/

/-- The sectors of the segments lie where the arithmetic of `readBytes` means to put them: for a segment
with bytes in the file the offset does not become negative as an `int`, and the address is not stepped
back below 0. No sector puts other bytes over the program headers, and none reaches the memory that the
loader runs in. -/
structure Direct (disk : Disk) (base buf : ℕ) (own : Set ℕ) : Prop where
  offset : ∀ s ∈ segments disk base, 0 < s.filesz.toNat → base + s.off.toNat < 2 ^ 31
  back : ∀ s ∈ segments disk base, 0 < s.filesz.toNat → (base + s.off.toNat) % SECTSIZE ≤ s.paddr.toNat
  table : ∀ s ∈ segments disk base, ∀ i < tableSize disk base, ∀ b,
    readAt disk base s (buf + tableAt disk base + i) = some b →
      b = fileByte disk base (tableAt disk base + i)
  outside : ∀ s ∈ segments disk base, ∀ a ∈ own, readAt disk base s a = none

/-- Wherever the sectors of later segments reach into a segment, the last of them has the byte that
belongs there. -/
def Undamaged (disk : Disk) (base : ℕ) : Prop :=
  ∀ pre s post, segments disk base = pre ++ s :: post → ∀ a, s.covers a →
    ∀ b, lastAt a (post.map (readAt disk base)) = some b → b = neededAt disk base s a

/-- The headers are read to the buffer. -/
theorem readBytes_headers (halign : SECTSIZE ∣ base) (hbase : base ≤ 2 ^ 20) (hi : i < 4096) :
    readBytes disk buf base 4096 mem (buf + i) = fileByte disk base i := by
  have hsize : SECTSIZE = 512 := rfl
  have hmod : base % SECTSIZE = 0 := Nat.mod_eq_zero_of_dvd halign
  have hlim : ∀ x, base / SECTSIZE ≤ x → x < sectors (base + 4096) → x < 2 ^ 28 := by
    intro x _ hx
    simp only [sectors, hsize] at hx
    omega
  have hin : buf ≤ buf + i + base % SECTSIZE ∧
      buf + i + base % SECTSIZE < buf + SECTSIZE * sectors (base % SECTSIZE + 4096) := by
    simp only [sectors, hmod, hsize]
    omega
  rw [readBytes_eq (by omega) hlim, if_pos hin, fileByte]
  congr 1
  omega

/-- **A loader** lays the pieces of the segments over the memory with the headers. -/
theorem loadElf_eq (halign : SECTSIZE ∣ base) (hbase : base ≤ 2 ^ 20) (hl : Loadable disk base buf own)
    (hd : Direct disk base buf own) : (loadElf disk base buf mem).1 =
      overlays (readBytes disk buf base 4096 mem) ((segments disk base).map (storeAt disk base)) := by
  set m1 := readBytes disk buf base 4096 mem with hm1
  have hread : ∀ i < 4096, m1 (buf + i) = fileByte disk base i := fun i hi =>
    readBytes_headers halign hbase hi
  have hhead : elfHeader m1 buf = fileHeader disk base := by
    refine elfHeader_congr fun i hi => ?_
    rw [hread i (by omega), Nat.zero_add]
  have hm : HoldsTable disk base buf m1 := by
    intro i hi
    have htable := hl.table
    rw [Nat.add_assoc]
    exact hread _ (by omega)
  have hs : ∀ s ∈ segments disk base, KeepsTable disk base buf s := by
    intro s hs i hi b hb
    refine hd.table s hs i hi b ?_
    have htable := hl.table
    rwa [storeAt_of_not_covers] at hb
    intro ha
    have := hl.apart s hs _ ha
    omega
  have hloop := loadSegments_eq (j := 0) (by rw [Nat.zero_add]; exact Nat.le_refl _) hm hs
  rw [Nat.mul_zero, Nat.add_zero] at hloop
  unfold loadElf
  dsimp only
  rw [← hm1, hhead]
  exact hloop

/-- The segments are intact exactly if no later one damages an earlier one. -/
theorem Loadable.undamaged_iff (hbase : base ≤ 2 ^ 20) (hl : Loadable disk base buf own)
    (hd : Direct disk base buf own) :
    (∀ s ∈ segments disk base, Intact disk base
      (overlays mem ((segments disk base).map (storeAt disk base))) s) ↔ Undamaged disk base := by
  -- an address of a segment is only changed by the sectors of later ones
  have hat : ∀ pre s post, segments disk base = pre ++ s :: post → ∀ a, s.covers a →
      (overlays mem ((segments disk base).map (storeAt disk base)) a = neededAt disk base s a ↔
        ∀ b, lastAt a (post.map (readAt disk base)) = some b → b = neededAt disk base s a) := by
    intro pre s post hsplit a ha
    have hs : s ∈ segments disk base := by simp [hsplit]
    have hlater : ∀ t ∈ post, storeAt disk base t a = readAt disk base t a := by
      intro t ht
      have hpair := hl.disjoint
      rw [hsplit] at hpair
      have hdisj := (List.pairwise_cons.mp (List.pairwise_append.mp hpair).2.1).1 t ht a
      exact storeAt_of_not_covers fun hta => hdisj ⟨ha, hta⟩
    rw [hsplit, List.map_append, List.map_cons, overlays_eq_iff (storeAt_covers hbase (hd.offset s hs) (hd.back s hs) ha),
      lastAt_map_congr hlater]
  constructor
  · intro hall pre s post hsplit a ha
    have hs : s ∈ segments disk base := by simp [hsplit]
    exact (hat pre s post hsplit a ha).mp ((intact_iff (hl.size s hs)).mp (hall s hs) a ha)
  · intro hun s hs
    obtain ⟨pre, post, hsplit⟩ := List.append_of_mem hs
    exact (intact_iff (hl.size s hs)).mpr fun a ha =>
      (hat pre s post hsplit a ha).mpr (hun pre s post hsplit a ha)

/-- The headers are read to the buffer, and nowhere else. -/
theorem readBytes_headers_other (halign : SECTSIZE ∣ base) (hbase : base ≤ 2 ^ 20)
    (ha : a < buf ∨ buf + 4096 ≤ a) : readBytes disk buf base 4096 mem a = mem a := by
  have hsize : SECTSIZE = 512 := rfl
  have hmod : base % SECTSIZE = 0 := Nat.mod_eq_zero_of_dvd halign
  have hlim : ∀ x, base / SECTSIZE ≤ x → x < sectors (base + 4096) → x < 2 ^ 28 := by
    intro x _ hx
    simp only [sectors, hsize] at hx
    omega
  rw [readBytes_eq (by omega) hlim, if_neg]
  simp only [sectors, hmod, hsize]
  omega

/-- **The loader's own memory** stays as it is. -/
theorem loadElf_own (halign : SECTSIZE ∣ base) (hbase : base ≤ 2 ^ 20) (hl : Loadable disk base buf own)
    (hd : Direct disk base buf own) (ha : a ∈ own) : (loadElf disk base buf mem).1 a = mem a := by
  rw [loadElf_eq halign hbase hl hd, overlays_of_none,
    readBytes_headers_other halign hbase (hl.buffer a ha)]
  intro w hw
  obtain ⟨s, hs, rfl⟩ := List.mem_map.mp hw
  rw [storeAt_of_not_covers fun hcov => hl.outside s hs a hcov ha]
  exact hd.outside s hs a ha

/-- A disk with an application of two segments of 16 bytes each, one behind the other on the disk; in
memory the second one begins `memsz` bytes behind the first. All bytes of the segments are 7. -/
def twoSegments (memsz : UInt8) : Disk := fun s i =>
  if s = 201 then
    match i with
    -- `phoff` and `phnum`
    | 28 => 52
    | 44 => 2
    -- the first segment: offset `0x1000`, address `0x200000`
    | 52 => 1
    | 57 => 0x10
    | 66 => 0x20
    | 68 => 0x10
    | 72 => memsz
    -- the second segment
    | 84 => 1
    | 88 => memsz
    | 89 => 0x10
    | 96 => memsz
    | 98 => 0x20
    | 100 => 0x10
    | 104 => 0x10
    | _ => 0
  else if s = 209 then 7
  else 0

/-- The buffer of these tests. -/
abbrev appLoader : Loader := .app 0x110000

/-- The memory below the application, but for the buffer, is the kernel's. -/
def appKernel : Set ℕ := { a | (a < 0x110000 ∨ 0x111000 ≤ a) ∧ a < 0x200000 }

/-- The two program headers. -/
theorem twoSegments_segments {memsz : UInt8} (h : memsz = 0x10 ∨ memsz = 0x20) :
    segments (twoSegments memsz) appLoader.offsetInDisk =
      [⟨1, 0x1000, 0x200000, 0x10, memsz.toUInt32⟩,
        ⟨1, 0x1000 + memsz.toUInt32, 0x200000 + memsz.toUInt32, 0x10, 0x10⟩] := by
  rcases h with rfl | rfl <;> decide +kernel

/-- The two segments can be loaded. -/
theorem twoSegments_loadable {memsz : UInt8} (h : memsz = 0x10 ∨ memsz = 0x20) :
    Loadable (twoSegments memsz) appLoader.offsetInDisk appLoader.elf appKernel := by
  have hseg := twoSegments_segments h
  have hsize : memsz.toUInt32.toNat = memsz.toNat := by simp
  have hfirst : (0x200000 + memsz.toUInt32).toNat = 0x200000 + memsz.toNat := by
    rcases h with rfl | rfl <;> rfl
  have hle : 16 ≤ memsz.toNat := by
    rcases h with rfl | rfl <;> decide
  have hfar : ∀ s ∈ segments (twoSegments memsz) appLoader.offsetInDisk, ∀ a, s.covers a →
      0x200000 ≤ a := by
    rw [hseg]
    intro s hs a ha
    rcases List.mem_pair.mp hs with rfl | rfl
    · exact ha.1
    · have h1 : (0x200000 + memsz.toUInt32).toNat ≤ a := ha.1
      omega
  constructor
  · rcases h with rfl | rfl <;> decide +kernel
  · rw [hseg]
    intro s hs
    rcases List.mem_pair.mp hs with rfl | rfl
    · exact hle
    · exact Nat.le_refl _
  · rw [hseg, List.pairwise_pair]
    rintro a ⟨⟨-, h1⟩, ⟨h2, -⟩⟩
    simp only [hsize, hfirst] at h1 h2
    have h0 : (0x200000 : UInt32).toNat = 0x200000 := rfl
    omega
  · intro s hs a ha
    have h1 := hfar s hs a ha
    right
    simp only [Loader.elf]
    omega
  · intro s hs a ha hown
    have h1 := hfar s hs a ha
    have h2 : a < 0x200000 := hown.2
    omega
  · rintro a ⟨ha, -⟩
    exact ha

/-- With `memsz = 0x10` no sector lies before the first segment. -/
theorem neighbours_readAt (hs : s ∈ segments (twoSegments 0x10) appLoader.offsetInDisk)
    (ha : a < 0x200000) : readAt (twoSegments 0x10) appLoader.offsetInDisk s a = none := by
  rw [twoSegments_segments (.inl rfl)] at hs
  rcases List.mem_pair.mp hs with rfl | rfl
  · rw [readAt_of_low (by decide) (by decide)]
    exact if_neg fun h => absurd h.2.1 (not_le.mpr ha)
  · rw [readAt_of_low (by decide) (by decide)]
    refine if_neg fun h => ?_
    have h1 : 0x200010 ≤ a + 0x10 := h.2.1
    omega

/-- The two segments lie side by side, away from the loader. -/
theorem neighbours_direct :
    Direct (twoSegments 0x10) appLoader.offsetInDisk appLoader.elf appKernel := by
  have hseg := twoSegments_segments (.inl rfl : (0x10 : UInt8) = 0x10 ∨ (0x10 : UInt8) = 0x20)
  constructor
  · rw [hseg]
    intro s hs _
    rcases List.mem_pair.mp hs with rfl | rfl <;> decide
  · rw [hseg]
    intro s hs _
    rcases List.mem_pair.mp hs with rfl | rfl <;> decide
  · have htable : tableAt (twoSegments 0x10) appLoader.offsetInDisk = 52 := by decide +kernel
    have hsize : tableSize (twoSegments 0x10) appLoader.offsetInDisk = 64 := by decide +kernel
    have hbuf : appLoader.elf = 0x110000 := rfl
    intro s hs i hi b hb
    rw [neighbours_readAt hs (by omega)] at hb
    cases hb
  · exact fun s hs a ha => neighbours_readAt hs ha.2

/-- What the sector of the second segment puts into the first are the bytes of the first. -/
theorem neighbours_undamaged : Undamaged (twoSegments 0x10) appLoader.offsetInDisk := by
  intro pre s post hsplit a ha b hb
  rw [twoSegments_segments (.inl rfl)] at hsplit
  match pre, hsplit with
  | [], hsplit =>
    obtain ⟨rfl, rfl⟩ := List.cons.inj hsplit
    rw [List.map_singleton, lastAt, lastAt, Option.none_or,
      readAt_of_low (by decide) (by decide)] at hb
    dsimp only at hb
    split_ifs at hb
    rw [← Option.some.inj hb]
    have h1 : 0x200000 ≤ a := ha.1
    have h2 : a < 0x200000 + 0x10 := ha.2
    have hoff : (0x1000 : UInt32).toNat = 0x1000 := rfl
    have hoff' : (0x1000 + (0x10 : UInt8).toUInt32).toNat = 0x1010 := rfl
    have haddr : (0x200000 : UInt32).toNat = 0x200000 := rfl
    have haddr' : (0x200000 + (0x10 : UInt8).toUInt32).toNat = 0x200010 := rfl
    unfold neededAt fileByte
    rw [if_pos (by exact h2)]
    refine congrArg (diskByte _) ?_
    simp only [hoff, hoff', haddr, haddr']
    omega
  | [_], hsplit =>
    obtain ⟨-, hsplit⟩ := List.cons.inj hsplit
    obtain ⟨-, rfl⟩ := List.cons.inj hsplit
    cases hb
  | _ :: _ :: pre, hsplit =>
    simp at hsplit

end OsLab
