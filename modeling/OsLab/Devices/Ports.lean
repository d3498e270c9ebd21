import OsLab.Devices.Disk

/-!
# Reading the disk through its ports: `disk.c` and `boot.c`

`readSect` and `readBytes` as the CPU executes them: 32-bit addresses, one port write at a time, and
a sector as 128 words that are read from one port and stored one after another. The kernel and the
boot loader have the same two functions. The disk is ready whenever it is asked, so `waitDisk`
returns at once.

* `Ports.readSect_eq`: the four port writes select the sector and the words make up its bytes, which
  is the `readSect` of `Kernel/Loader`.
* `Ports.readBytesLoop_eq`, `Ports.readBytes_eq`: where no address wraps around, the loop ends after
  the sectors that are begun, and it is the `readBytes` of `Kernel/Loader`.
* **`unaligned_read`**: what an unaligned read puts where, and that it ends.
-/

namespace OsLab

open OsLab.Lib

namespace Ports

/-- The disk controller: what was written to its ports last, and the transfer that is under way, by
its sector and the number of words that have been read. -/
structure Ata where
  reg : UInt16 → UInt8
  sect : ℕ
  words : ℕ

/-- The sector number in the four registers. -/
def Ata.lba (ata : Ata) : ℕ :=
  (ata.reg 0x1F3).toNat + 256 * (ata.reg 0x1F4).toNat + 2 ^ 16 * (ata.reg 0x1F5).toNat +
    2 ^ 24 * ((ata.reg 0x1F6).toNat % 16)

/-- `outByte`; `0x20` at port `0x1F7` is the command to read. -/
def outByte (port : UInt16) (data : UInt8) (ata : Ata) : Ata :=
  if port = 0x1F7 then
    if data = 0x20 then { ata with sect := ata.lba, words := 0 } else ata
  else { ata with reg := Function.update ata.reg port data }

/-- `inLong(0x1F0)`: the next word of the sector. -/
def inLong (disk : Disk) (ata : Ata) : UInt32 × Ata :=
  (wordAt (disk ata.sect) (4 * ata.words), { ata with words := ata.words + 1 })

/-- The `char` that an `int` is cut down to. -/
def byteOf (x : ℤ) : UInt8 := UInt8.ofNat (x % 256).toNat

/-- `*(int *)a = w`. -/
def storeLong (a : UInt32) (w : UInt32) (mem : ℕ → UInt8) : ℕ → UInt8 :=
  let mem := Function.update mem a.toNat (wordByte w 0)
  let mem := Function.update mem (a + 1).toNat (wordByte w 1)
  let mem := Function.update mem (a + 2).toNat (wordByte w 2)
  Function.update mem (a + 3).toNat (wordByte w 3)

/-- The loop of `readSect` for the next `n` words. -/
def readWords (disk : Disk) : ℕ → UInt32 → (ℕ → UInt8) × Ata → (ℕ → UInt8) × Ata
  | 0, _, s => s
  | n + 1, dst, s =>
    let r := inLong disk s.2
    readWords disk n (dst + 4) (storeLong dst r.1 s.1, r.2)

/-- `readSect`. -/
def readSect (disk : Disk) (dst : UInt32) (offset : ℤ) (s : (ℕ → UInt8) × Ata) :
    (ℕ → UInt8) × Ata :=
  let ata := outByte 0x1F2 1 s.2
  let ata := outByte 0x1F3 (byteOf offset) ata
  let ata := outByte 0x1F4 (byteOf (offset / 2 ^ 8)) ata
  let ata := outByte 0x1F5 (byteOf (offset / 2 ^ 16)) ata
  let ata := outByte 0x1F6 (byteOf (offset / 2 ^ 24) ||| 0xE0) ata
  let ata := outByte 0x1F7 0x20 ata
  readWords disk (SECTSIZE / 4) dst (s.1, ata)

/-- The loop of `readBytes`, if it ends within `n` rounds. -/
def readBytesLoop (disk : Disk) (addrEnd : UInt32) :
    ℕ → UInt32 → ℤ → (ℕ → UInt8) × Ata → Option ((ℕ → UInt8) × Ata)
  | 0, addr, _, s => if addr < addrEnd then none else some s
  | n + 1, addr, sect, s =>
    if addr < addrEnd then
      readBytesLoop disk addrEnd n (addr + UInt32.ofNat SECTSIZE) (sect + 1)
        (readSect disk addr sect s)
    else some s

/-- `readBytes`, if its loop ends within `n` rounds. -/
def readBytes (n : ℕ) (disk : Disk) (addr : UInt32) (diskoff cont : ℤ) (s : (ℕ → UInt8) × Ata) :
    Option ((ℕ → UInt8) × Ata) :=
  let addrEnd := addr + wordOf cont
  let addr := addr - wordOf (diskoff.tmod SECTSIZE)
  readBytesLoop disk addrEnd n addr (diskoff.tdiv SECTSIZE) s

variable {disk : Disk} {mem : ℕ → UInt8} {ata : Ata} {addr addrEnd dst : UInt32} {sect : ℤ} {n a : ℕ}

/-! ### One sector -/

/-- A port register holds what was written to it last. -/
theorem reg_outByte_self {port : UInt16} {data : UInt8} (h : port ≠ 0x1F7) :
    (outByte port data ata).reg port = data := by
  rw [outByte, if_neg h]
  exact Function.update_self _ _ _

/-- A write to one port register leaves the others. -/
theorem reg_outByte_of_ne {port p : UInt16} {data : UInt8} (h : port ≠ 0x1F7) (hp : p ≠ port) :
    (outByte port data ata).reg p = ata.reg p := by
  rw [outByte, if_neg h]
  exact Function.update_of_ne hp _ _

/-- A byte of an address or a count. -/
theorem toNat_byteOf (x : ℤ) : (byteOf x).toNat = (x % 256).toNat := by
  rw [byteOf, UInt8.toNat_ofNat']
  omega

/-- **The port writes** select the sector that `lba` says. -/
theorem lba_outByte (offset : ℤ) (ata : Ata) :
    (outByte 0x1F6 (byteOf (offset / 2 ^ 24) ||| 0xE0) (outByte 0x1F5 (byteOf (offset / 2 ^ 16))
      (outByte 0x1F4 (byteOf (offset / 2 ^ 8)) (outByte 0x1F3 (byteOf offset) ata)))).lba =
        OsLab.lba offset := by
  have h0 : (offset % 256).toNat = (offset % 2 ^ 32).toNat % 256 := by omega
  have h1 : (offset / 2 ^ 8 % 256).toNat = (offset % 2 ^ 32).toNat / 2 ^ 8 % 256 := by omega
  have h2 : (offset / 2 ^ 16 % 256).toNat = (offset % 2 ^ 32).toNat / 2 ^ 16 % 256 := by omega
  have h3 : (offset / 2 ^ 24 % 256).toNat = (offset % 2 ^ 32).toNat / 2 ^ 24 % 256 := by omega
  have hor : (byteOf (offset / 2 ^ 24) ||| 0xE0).toNat =
      ((offset % 2 ^ 32).toNat / 2 ^ 24 % 256 ||| 0xE0) := by
    rw [UInt8.toNat_or, toNat_byteOf, h3]
    rfl
  simp (disch := decide) only [Ata.lba, reg_outByte_self, reg_outByte_of_ne, hor, toNat_byteOf, h0, h1,
    h2]
  rfl

/-- A word is stored as the four bytes that it was read as. -/
theorem wordByte_wordAt {m : ℕ → UInt8} {i : ℕ} (hi : i < 4) :
    wordByte (wordAt m a) i = m (a + i) := by
  have h0 := (m a).toNat_lt
  have h1 := (m (a + 1)).toNat_lt
  have h2 := (m (a + 2)).toNat_lt
  have h3 := (m (a + 3)).toNat_lt
  have hword : (wordAt m a).toNat = (m a).toNat + 256 * (m (a + 1)).toNat +
      65536 * (m (a + 2)).toNat + 16777216 * (m (a + 3)).toNat := by
    apply UInt32.toNat_ofNat_of_lt'
    have hsize : UInt32.size = 2 ^ 32 := rfl
    omega
  apply UInt8.toNat_inj.mp
  rw [wordByte, UInt8.toNat_ofNat', hword]
  obtain rfl | rfl | rfl | rfl : i = 0 ∨ i = 1 ∨ i = 2 ∨ i = 3 := by omega
  all_goals simp
  all_goals omega

/-- A store of a word that does not wrap around. -/
theorem storeLong_apply {w : UInt32} {b : ℕ} (h : addr.toNat + 4 ≤ 2 ^ 32) :
    storeLong addr w mem b =
      if addr.toNat ≤ b ∧ b < addr.toNat + 4 then wordByte w (b - addr.toNat) else mem b := by
  have h1 : (addr + 1).toNat = addr.toNat + 1 := by
    rw [UInt32.toNat_add, UInt32.toNat_one, Nat.mod_eq_of_lt (by omega)]
  have h2 : (addr + 2).toNat = addr.toNat + 2 := by
    rw [UInt32.toNat_add, show (2 : UInt32).toNat = 2 from rfl, Nat.mod_eq_of_lt (by omega)]
  have h3 : (addr + 3).toNat = addr.toNat + 3 := by
    rw [UInt32.toNat_add, show (3 : UInt32).toNat = 3 from rfl, Nat.mod_eq_of_lt (by omega)]
  simp only [storeLong, Function.update_apply, h1, h2, h3]
  by_cases hin : addr.toNat ≤ b ∧ b < addr.toNat + 4
  · rw [if_pos hin]
    obtain ⟨i, hi, rfl⟩ : ∃ i < 4, b = addr.toNat + i := ⟨b - addr.toNat, by omega, by omega⟩
    obtain rfl | rfl | rfl | rfl : i = 0 ∨ i = 1 ∨ i = 2 ∨ i = 3 := by omega
    all_goals simp
  · rw [if_neg hin, if_neg (by omega), if_neg (by omega), if_neg (by omega), if_neg (by omega)]

/-- An address that does not wrap. -/
theorem toNat_addr_add {k : ℕ} (h : addr.toNat + k < 2 ^ 32) :
    (addr + UInt32.ofNat k).toNat = addr.toNat + k := by
  rw [UInt32.toNat_add, UInt32.toNat_ofNat', Nat.mod_eq_of_lt (a := k) (by omega),
    Nat.mod_eq_of_lt h]

/-- **The loop of `readSect`** copies the words of the sector, from the one that comes next on. -/
theorem readWords_apply {b : ℕ} (h : dst.toNat + 4 * n < 2 ^ 32) :
    (readWords disk n dst (mem, ata)).1 b =
      if dst.toNat ≤ b ∧ b < dst.toNat + 4 * n then disk ata.sect (4 * ata.words + (b - dst.toNat))
      else mem b := by
  induction n generalizing dst mem ata with
  | zero => rw [readWords, if_neg (by omega)]
  | succ n ih =>
    have hnext : (dst + 4).toNat = dst.toNat + 4 := toNat_addr_add (k := 4) (by omega)
    rw [readWords, inLong, ih (by omega), hnext]
    dsimp only
    rw [storeLong_apply (by omega)]
    by_cases hfirst : dst.toNat ≤ b ∧ b < dst.toNat + 4
    · rw [if_neg (by omega), if_pos hfirst, if_pos (by omega), wordByte_wordAt (by omega)]
    · by_cases hin : dst.toNat ≤ b ∧ b < dst.toNat + 4 * (n + 1)
      · rw [if_pos (by omega), if_pos hin]
        congr 1
        omega
      · rw [if_neg (by omega), if_neg hfirst, if_neg hin]

/-- **`readSect`** through the ports is `readSect`. -/
theorem readSect_eq (h : dst.toNat + SECTSIZE < 2 ^ 32) :
    (readSect disk dst sect (mem, ata)).1 = OsLab.readSect disk dst.toNat sect mem := by
  have hsize : SECTSIZE = 512 := rfl
  rw [hsize] at h
  funext b
  rw [readSect, readWords_apply (by rw [hsize]; omega), OsLab.readSect, hsize]
  dsimp only
  rw [outByte, if_pos rfl, if_pos rfl, lba_outByte]
  simp

/-! ### The loop -/

/-- **The loop of `readBytes`** ends after the sectors that are begun. -/
theorem readBytesLoop_eq
    (hwrap : addr.toNat + SECTSIZE * sectors (addrEnd.toNat - addr.toNat) < 2 ^ 32)
    (hn : sectors (addrEnd.toNat - addr.toNat) ≤ n) :
    ∃ ata', readBytesLoop disk addrEnd n addr sect (mem, ata) =
      some (readSects disk addrEnd.toNat n addr.toNat sect mem, ata') := by
  have hsize : SECTSIZE = 512 := rfl
  simp only [sectors, hsize] at hwrap hn
  induction n generalizing addr sect mem ata with
  | zero =>
    have hge : ¬addr < addrEnd := by
      rw [UInt32.lt_iff_toNat_lt]
      omega
    exact ⟨ata, if_neg hge⟩
  | succ n ih =>
    rw [readBytesLoop, readSects]
    by_cases hlt : addr < addrEnd
    · have hlt' := UInt32.lt_iff_toNat_lt.mp hlt
      have hnext : (addr + UInt32.ofNat SECTSIZE).toNat = addr.toNat + SECTSIZE :=
        toNat_addr_add (by rw [hsize]; omega)
      have hmem : (readSect disk addr sect (mem, ata)).1 = OsLab.readSect disk addr.toNat sect mem :=
        readSect_eq (by rw [hsize]; omega)
      rw [if_pos hlt, if_pos hlt', ← hmem, ← hnext]
      exact ih (by rw [hnext, hsize]; omega) (by rw [hnext, hsize]; omega)
    · exact ⟨ata, by rw [if_neg hlt, if_neg fun h => hlt (UInt32.lt_iff_toNat_lt.mpr h)]⟩

/-- **`readBytes`** through the ports is `readBytes`. -/
theorem readBytes_eq {diskoff cont : ℕ} (hcont : cont < 2 ^ 31)
    (hback : diskoff % SECTSIZE ≤ addr.toNat)
    (hwrap : addr.toNat - diskoff % SECTSIZE + SECTSIZE * sectors (cont + diskoff % SECTSIZE) < 2 ^ 32)
    (hn : sectors (cont + diskoff % SECTSIZE) ≤ n) :
    ∃ ata', readBytes n disk addr diskoff cont (mem, ata) =
      some (OsLab.readBytes disk addr.toNat diskoff cont mem, ata') := by
  have hsize : SECTSIZE = 512 := rfl
  have hword : ∀ m : ℕ, wordOf m = UInt32.ofNat m := by
    intro m
    apply UInt32.toNat_inj.mp
    rw [wordOf, UInt32.toNat_ofNat', UInt32.toNat_ofNat']
    omega
  have hend : (addr + wordOf cont).toNat = addr.toNat + cont := by
    rw [hword]
    apply toNat_addr_add
    simp only [sectors, hsize] at hwrap hback
    omega
  have hoff : (UInt32.ofNat (diskoff % SECTSIZE)).toNat = diskoff % SECTSIZE := by
    rw [UInt32.toNat_ofNat', hsize]
    omega
  have hstart : (addr - wordOf (diskoff % SECTSIZE : ℕ)).toNat = addr.toNat - diskoff % SECTSIZE := by
    rw [hword, UInt32.toNat_sub_of_le _ _ (by rw [UInt32.le_iff_toNat_le, hoff]; exact hback), hoff]
  have hlen : addr.toNat + cont - (addr.toNat - diskoff % SECTSIZE) = cont + diskoff % SECTSIZE := by
    omega
  obtain ⟨ata', hloop⟩ : ∃ ata', readBytesLoop disk (addr + wordOf cont) n
      (addr - wordOf (diskoff % SECTSIZE : ℕ)) (diskoff / SECTSIZE : ℕ) (mem, ata) =
        some (readSects disk (addr + wordOf cont).toNat n
          (addr - wordOf (diskoff % SECTSIZE : ℕ)).toNat (diskoff / SECTSIZE : ℕ) mem, ata') :=
    readBytesLoop_eq (by rwa [hend, hstart, hlen]) (by rwa [hend, hstart, hlen])
  refine ⟨ata', ?_⟩
  have hnat : (addr.toNat : ℤ) - (diskoff % SECTSIZE : ℕ) = (addr.toNat - diskoff % SECTSIZE : ℕ) := by
    omega
  rw [readBytes, tmod_sectsize, tdiv_sectsize, hloop, OsLab.readBytes, tmod_sectsize, tdiv_sectsize,
    hnat, if_neg (by omega), Int.toNat_natCast, hend, hstart]
  congr 2
  -- both bounds are enough for the sectors that are begun
  funext a
  rw [readSects_eq, readSects_eq]
  · simp only [hsize]
    omega
  · simp only [sectors, hsize] at hn ⊢
    omega

end Ports

/-- **Unaligned disk reads**, in the kernel and in the boot loader. Where no address wraps around,
`readBytes` ends; the byte at every disk offset of the range comes to its address; and it changes
whole sectors only, which begin `diskoff % 512` in front of the address and are copied from the disk
whole. -/
theorem unaligned_read (disk : Disk) (addr : UInt32) (diskoff cont : ℕ) (mem : ℕ → UInt8)
    (ata : Ports.Ata) (hoff : diskoff < 2 ^ 31) (hcont : cont < 2 ^ 31)
    (hback : diskoff % SECTSIZE ≤ addr.toNat)
    (hwrap : addr.toNat - diskoff % SECTSIZE + SECTSIZE * sectors (cont + diskoff % SECTSIZE) < 2 ^ 32) :
    ∃ mem', (∀ n, sectors (cont + diskoff % SECTSIZE) ≤ n →
        ∃ ata', Ports.readBytes n disk addr diskoff cont (mem, ata) = some (mem', ata')) ∧
      (∀ k < cont, mem' (addr.toNat + k) = diskByte disk (diskoff + k)) ∧
      (∀ i < SECTSIZE * sectors (cont + diskoff % SECTSIZE),
        mem' (addr.toNat - diskoff % SECTSIZE + i) =
          disk (diskoff / SECTSIZE + i / SECTSIZE) (i % SECTSIZE)) ∧
      ∀ a, a < addr.toNat - diskoff % SECTSIZE ∨
        addr.toNat - diskoff % SECTSIZE + SECTSIZE * sectors (cont + diskoff % SECTSIZE) ≤ a →
          mem' a = mem a := by
  have hsize : SECTSIZE = 512 := rfl
  have hlim : ∀ s, diskoff / SECTSIZE ≤ s → s < sectors (diskoff + cont) → s < 2 ^ 28 := by
    simp only [sectors, hsize]
    omega
  have hbytes := fun a =>
    (readBytes_eq hback hlim : OsLab.readBytes disk addr.toNat diskoff cont mem a = _)
  simp only [sectors, hsize] at hback hwrap hbytes ⊢
  refine ⟨OsLab.readBytes disk addr.toNat diskoff cont mem, fun n hn => ?_, fun k hk => ?_,
    fun i hi => ?_, fun a ha => ?_⟩
  · exact Ports.readBytes_eq hcont hback hwrap hn
  · rw [hbytes, if_pos (by omega)]
    congr 1
    omega
  · rw [hbytes, if_pos (by omega), diskByte, hsize]
    have hsum : diskoff + (addr.toNat - diskoff % 512 + i) - addr.toNat = diskoff / 512 * 512 + i := by
      omega
    rw [hsum]
    congr 1 <;> omega
  · rw [hbytes, if_neg (by omega)]

/-- A range of 600 bytes from the middle of a sector on: two sectors are read, and the byte in front
of them stays. -/
theorem unaligned_read_600 : ∃ (mem' : ℕ → UInt8) (ata' : Ports.Ata),
    Ports.readBytes 2 (fun s i => UInt8.ofNat (s + i)) 0x8000 700 600
      (fun _ => 0, ⟨fun _ => 0, 0, 0⟩) = some (mem', ata') ∧ mem' 0x8000 = 189 ∧ mem' 0x7F43 = 0 := by
  obtain ⟨mem', hrun, hread, -, hout⟩ := unaligned_read (fun s i => UInt8.ofNat (s + i)) 0x8000 700 600
    (fun _ => 0) ⟨fun _ => 0, 0, 0⟩ (by decide) (by decide) (by decide) (by decide)
  obtain ⟨ata', hret⟩ := hrun 2 (by decide)
  exact ⟨mem', ata', hret, hread 0 (by decide), hout 0x7F43 (by decide)⟩

end OsLab
