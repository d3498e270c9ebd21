import OsLab.Kernel.FileSystem
import OsLab.Lib.Counting

/-!
# Directory slots

A directory's 32 KiB are 1024 slots of an inode number and a name. This file says what a write to
one slot does to all of them, so that nothing above it looks at bytes again.

* `cstr_strcpy`: a string copied into a buffer is read back, if it fits.
* `slotName_entry` and `slotNo_entry`: the two stores that make an entry change the slot they name,
  and no other.
* `scanDir_eq`: a scan bounded by `filenum` is a search of all slots, if `filenum` is the number of
  the slots in use (`Counted`).
-/

namespace OsLab

open OsLab.Lib

variable {buf buf' : ℕ → UInt8} {s : List UInt8} {d : Inode} {i j n a : ℕ} {no : UInt32}

/-! ### Strings in buffers -/

/-- The first byte of a name is not the NUL. -/
theorem headD_ne_zero (h0 : 0 ∉ s) (hne : s ≠ []) : s.headD 0 ≠ 0 := by
  cases s with
  | nil => exact absurd rfl hne
  | cons c t =>
    rintro rfl
    exact h0 (by simp)

/-- `strcpy` writes to its bytes only. -/
theorem strcpy_of_outside (h : a < i ∨ i + s.length < a) : strcpy buf i s a = buf a := by
  induction s generalizing buf i with
  | nil =>
    have hne : a ≠ i := by
      simp only [List.length_nil] at h
      omega
    exact Function.update_of_ne hne _ _
  | cons c s ih =>
    rw [List.length_cons] at h
    have hne : a ≠ i := by omega
    rw [strcpy, ih (by omega), Function.update_of_ne hne]

/-- The first byte of the copy. -/
theorem strcpy_head : strcpy buf i s i = s.headD 0 := by
  cases s with
  | nil => exact Function.update_self ..
  | cons c s =>
    rw [strcpy, strcpy_of_outside (by omega), Function.update_self]
    rfl

/-- The copy ends with a NUL. -/
theorem strcpy_end : strcpy buf i s (i + s.length) = 0 := by
  induction s generalizing buf i with
  | nil => exact Function.update_self ..
  | cons c s ih =>
    rw [strcpy, List.length_cons, show i + (s.length + 1) = i + 1 + s.length by omega]
    exact ih

/-- A string is read where there is a NUL. -/
theorem cstr_ne_none {buf : ℕ → UInt8} : cstr buf i n ≠ none ↔ ∃ a, i ≤ a ∧ a < i + n ∧ buf a = 0 := by
  induction n generalizing i with
  | zero =>
    simp only [cstr, ne_eq, not_true_eq_false, false_iff, not_exists]
    rintro a ⟨h1, h2, -⟩
    omega
  | succ n ih =>
    rw [cstr]
    split_ifs with hb
    · exact iff_of_true (by simp) ⟨i, Nat.le_refl i, by omega, hb⟩
    · rw [Ne, Option.map_eq_none_iff, ← Ne, ih]
      constructor
      · rintro ⟨a, h1, h2, ha⟩
        exact ⟨a, by omega, by omega, ha⟩
      · rintro ⟨a, h1, h2, ha⟩
        have hne : a ≠ i := by
          rintro rfl
          exact hb ha
        exact ⟨a, by omega, by omega, ha⟩

/-- A string depends on the bytes of its field only. -/
theorem cstr_congr (h : ∀ a, i ≤ a → a < i + n → buf a = buf' a) : cstr buf i n = cstr buf' i n := by
  induction n generalizing i with
  | zero => rfl
  | succ n ih =>
    rw [cstr, cstr, h i (by omega) (by omega), ih fun a h1 h2 => h a (by omega) (by omega)]

/-- **A copied string** is read back. -/
theorem cstr_strcpy (h0 : 0 ∉ s) (hn : s.length < n) : cstr (strcpy buf i s) i n = some s := by
  induction s generalizing buf i n with
  | nil =>
    cases n with
    | zero => simp at hn
    | succ n => exact cstr_eq_nil.mpr strcpy_head
  | cons c s ih =>
    cases n with
    | zero => simp at hn
    | succ n =>
      obtain ⟨hc, hs⟩ : (0 : UInt8) ≠ c ∧ 0 ∉ s := by simpa using h0
      have hhead : strcpy buf i (c :: s) i = c := strcpy_head
      rw [cstr, hhead, if_neg hc.symm, strcpy, ih hs (by simpa using hn)]
      rfl

/-- A string that is read has no NUL and fits. -/
theorem cstr_spec (h : cstr buf i n = some s) : 0 ∉ s ∧ s.length < n := by
  induction n generalizing i s with
  | zero => cases h
  | succ n ih =>
    rw [cstr] at h
    split_ifs at h with hb
    · obtain rfl := Option.some.inj h
      exact ⟨by simp, by simp⟩
    · obtain ⟨t, ht, rfl⟩ := Option.map_eq_some_iff.mp h
      obtain ⟨h0, hlt⟩ := ih ht
      exact ⟨by simpa using ⟨Ne.symm hb, h0⟩, by simpa using hlt⟩

/-! ### Slots -/

namespace Inode

/-- The slot has a name. -/
def Used (d : Inode) (i : ℕ) : Prop := d.block (32 * i + 4) ≠ 0

/-- Whether a slot is in use can be computed. -/
instance (d : Inode) (i : ℕ) : Decidable (d.Used i) := inferInstanceAs (Decidable (_ ≠ _))

/-- The name in a slot; nothing where no name ends in it. -/
def nameAt (d : Inode) (i : ℕ) : List UInt8 := (cstr d.block (32 * i + 4) MAX_FILENAME_LEN).getD []

/-- Every name ends within its 28 bytes. -/
def Readable (d : Inode) : Prop := ∀ i < NR_DIRDATA, d.slotName i = .ok (d.nameAt i)

/-- The string in a slot is the one in its field. -/
theorem slotName_eq_ok : d.slotName i = .ok s ↔ cstr d.block (32 * i + 4) MAX_FILENAME_LEN = some s := by
  unfold slotName
  cases cstr d.block (32 * i + 4) MAX_FILENAME_LEN with
  | none => simp
  | some t => simp

/-- The name of a slot that is not in use. -/
theorem slotName_of_not_used (h : ¬d.Used i) : d.slotName i = .ok [] :=
  slotName_eq_ok.mpr (cstr_eq_nil.mpr (not_not.mp h))

/-- The only way for a field not to hold a string. -/
theorem slotName_eq_error {x : Stop} (h : d.slotName i = .error x) : x = .wild .name := by
  unfold slotName at h
  split at h
  · cases h
  · exact (Except.error.inj h).symm

/-- The name is that string. -/
theorem nameAt_of_slotName (h : d.slotName i = .ok s) : d.nameAt i = s := by
  rw [nameAt, slotName_eq_ok.mp h]
  rfl

/-- A readable slot is in use iff its name is not empty. -/
theorem slotName_used (h : d.slotName i = .ok s) : d.Used i ↔ s ≠ [] :=
  not_congr (cstr_head (slotName_eq_ok.mp h)).symm

/-- A slot is in use if its name is not empty. -/
theorem Readable.used_iff (h : d.Readable) (hi : i < NR_DIRDATA) : d.Used i ↔ d.nameAt i ≠ [] :=
  slotName_used (h i hi)

/-- The two stores that make an entry. -/
abbrev entry (d : Inode) (i : ℕ) (no : UInt32) (s : List UInt8) : Inode :=
  (d.setSlotNo i no).setSlotName i s

/-- The number of a slot is its first four bytes. -/
theorem setSlotNo_block (h : a < 32 * i ∨ 32 * i + 4 ≤ a) : (d.setSlotNo i no).block a = d.block a := by
  unfold setSlotNo
  dsimp only
  rw [if_neg (by omega), if_neg (by omega), if_neg (by omega), if_neg (by omega)]

/-- Outside the slot no byte changes. -/
theorem entry_block (hs : s.length < MAX_FILENAME_LEN) (h : a < 32 * i ∨ 32 * i + 32 ≤ a) :
    (d.entry i no s).block a = d.block a := by
  have hs : s.length < 28 := hs
  have hout : a < 32 * i + 4 ∨ 32 * i + 4 + s.length < a := by omega
  exact (strcpy_of_outside hout).trans (setSlotNo_block (by omega))

/-- The string in a slot depends on its 32 bytes only. -/
theorem slotName_congr {d' : Inode} (h : ∀ a, 32 * i ≤ a → a < 32 * i + 32 → d.block a = d'.block a) :
    d.slotName i = d'.slotName i := by
  unfold slotName
  rw [cstr_congr fun a h1 h2 => h a (by omega) (by exact (by omega : a < 32 * i + 32))]

/-- **The names** after an entry was made. -/
theorem slotName_entry (hs : s.length < MAX_FILENAME_LEN) (h0 : 0 ∉ s) (j : ℕ) :
    (d.entry i no s).slotName j = if j = i then .ok s else d.slotName j := by
  split_ifs with hj
  · subst hj
    exact slotName_eq_ok.mpr (cstr_strcpy h0 hs)
  · refine slotName_congr fun a h1 h2 => entry_block hs ?_
    omega

/-- The first byte of a name says whether the slot is in use. -/
theorem entry_head (hs : s.length < MAX_FILENAME_LEN) (j : ℕ) :
    (d.entry i no s).block (32 * j + 4) = if j = i then s.headD 0 else d.block (32 * j + 4) := by
  split_ifs with hj
  · subst hj
    exact strcpy_head
  · exact entry_block hs (by omega)

/-- The name in a slot depends on the string there only. -/
theorem nameAt_congr {d' : Inode} (h : d.slotName i = d'.slotName i) : d.nameAt i = d'.nameAt i := by
  unfold slotName at h
  unfold nameAt
  cases hc : cstr d.block (32 * i + 4) MAX_FILENAME_LEN <;>
    cases hc' : cstr d'.block (32 * i + 4) MAX_FILENAME_LEN <;> simp_all

/-- A new entry is in use, and what was in use stays so. -/
theorem used_entry (hs : s.length < MAX_FILENAME_LEN) (hne : s.headD 0 ≠ 0) (j : ℕ) :
    (d.entry i no s).Used j ↔ j = i ∨ d.Used j := by
  unfold Used
  rw [entry_head hs j]
  split_ifs with hj
  · exact iff_of_true hne (.inl hj)
  · exact (or_iff_right hj).symm

/-- An entry is cleared: the others stay. -/
theorem used_clear (i j : ℕ) : (d.entry i no []).Used j ↔ j ≠ i ∧ d.Used j := by
  unfold Used
  rw [entry_head (by decide)]
  split_ifs with hj
  · simp [hj]
  · simp [hj]

/-- The number is put together again from its bytes. -/
theorem ofBytes_toBytes (no : UInt32) :
    UInt32.ofNat (no.toUInt8.toNat + 256 * (no >>> 8).toUInt8.toNat +
      65536 * (no >>> 16).toUInt8.toNat + 16777216 * (no >>> 24).toUInt8.toNat) = no := by
  have hlt := no.toNat_lt
  have h8 : (no >>> 8).toUInt8.toNat = no.toNat / 2 ^ 8 % 256 := by
    simp [UInt32.toNat_shiftRight, Nat.shiftRight_eq_div_pow]
  have h16 : (no >>> 16).toUInt8.toNat = no.toNat / 2 ^ 16 % 256 := by
    simp [UInt32.toNat_shiftRight, Nat.shiftRight_eq_div_pow]
  have h24 : (no >>> 24).toUInt8.toNat = no.toNat / 2 ^ 24 % 256 := by
    simp [UInt32.toNat_shiftRight, Nat.shiftRight_eq_div_pow]
  have h0 : no.toUInt8.toNat = no.toNat % 256 := by simp
  rw [h0, h8, h16, h24]
  apply UInt32.toNat_inj.mp
  rw [UInt32.toNat_ofNat']
  omega

/-- **The inode numbers** after an entry was made. -/
theorem slotNo_entry (hs : s.length < MAX_FILENAME_LEN) (j : ℕ) :
    (d.entry i no s).slotNo j = if j = i then no else d.slotNo j := by
  have hs : s.length < 28 := hs
  split_ifs with hj
  · subst hj
    have hblock : ∀ m < 4, (d.entry j no s).block (32 * j + m) = (d.setSlotNo j no).block (32 * j + m) :=
      fun m hm => strcpy_of_outside (by omega)
    have h0 := hblock 0 (by decide)
    rw [Nat.add_zero] at h0
    rw [slotNo, h0, hblock 1 (by decide), hblock 2 (by decide), hblock 3 (by decide)]
    have h1 : (d.setSlotNo j no).block (32 * j) = no.toUInt8 := by simp [setSlotNo]
    have h2 : (d.setSlotNo j no).block (32 * j + 1) = (no >>> 8).toUInt8 := by simp [setSlotNo]
    have h3 : (d.setSlotNo j no).block (32 * j + 2) = (no >>> 16).toUInt8 := by simp [setSlotNo]
    have h4 : (d.setSlotNo j no).block (32 * j + 3) = (no >>> 24).toUInt8 := by simp [setSlotNo]
    rw [h1, h2, h3, h4]
    exact ofBytes_toBytes no
  · have hblock : ∀ m < 4, (d.entry i no s).block (32 * j + m) = d.block (32 * j + m) :=
      fun m hm => entry_block hs (by omega)
    have h0 := hblock 0 (by decide)
    rw [Nat.add_zero] at h0
    rw [slotNo, slotNo, h0, hblock 1 (by decide), hblock 2 (by decide), hblock 3 (by decide)]

/-! ### Slots in use -/

/-- The number of slots in use below `n`. -/
def usedBelow (d : Inode) (n : ℕ) : ℕ :=
  countOf (fun c : UInt8 => c ≠ 0) (fun i => d.block (32 * i + 4)) (Finset.range n)

/-- `filenum` is the number of slots in use. -/
def Counted (d : Inode) : Prop := d.filenum.toNat = d.usedBelow NR_DIRDATA

/-- Below the first slot there is none. -/
@[simp] theorem usedBelow_zero : d.usedBelow 0 = 0 := rfl

/-- One slot more is counted. -/
theorem usedBelow_succ : d.usedBelow (n + 1) = d.usedBelow n + if d.Used n then 1 else 0 :=
  countOf_range_succ _

/-- Below a higher place there are more. -/
theorem usedBelow_mono {m : ℕ} (h : n ≤ m) : d.usedBelow n ≤ d.usedBelow m :=
  countOf_mono _ (Finset.range_subset_range.mpr h)

/-- Slots that are not in use do not count. -/
theorem usedBelow_eq {m : ℕ} (hmn : n ≤ m) (h : ∀ j, n ≤ j → j < m → ¬d.Used j) :
    d.usedBelow m = d.usedBelow n := by
  induction m, hmn using Nat.le_induction with
  | base => rfl
  | succ m hm ih =>
    rw [usedBelow_succ, if_neg (h m hm (by omega)), Nat.add_zero]
    exact ih fun j h1 h2 => h j h1 (by omega)

/-- Where the number does not grow no slot is in use. -/
theorem not_used_of_usedBelow {m : ℕ} (h : d.usedBelow m ≤ d.usedBelow n) (hn : n ≤ j) (hm : j < m) :
    ¬d.Used j := by
  intro hu
  have hlt : d.usedBelow n < d.usedBelow m :=
    countOf_lt _ (Finset.range_subset_range.mpr (by omega)) (Finset.mem_range.mpr hm)
      (by rw [Finset.mem_range]; omega) hu
  omega

/-- **An entry in a free slot** counts one more. -/
theorem usedBelow_entry (hs : s.length < MAX_FILENAME_LEN) (hne : s.headD 0 ≠ 0) (hi : i < n)
    (hfree : ¬d.Used i) : (d.entry i no s).usedBelow n = d.usedBelow n + 1 := by
  have hbytes : (fun j => (d.entry i no s).block (32 * j + 4)) =
      Function.update (fun j => d.block (32 * j + 4)) i (s.headD 0) := by
    funext j
    rw [entry_head hs]
    by_cases hj : j = i
    · subst hj
      rw [if_pos rfl, Function.update_self]
    · rw [if_neg hj, Function.update_of_ne hj]
  unfold usedBelow
  rw [hbytes]
  exact countOf_update_add _ (Finset.mem_range.mpr hi) hfree hne

/-- Below its own slot an entry does not count. -/
theorem usedBelow_entry_self (hs : s.length < MAX_FILENAME_LEN) :
    (d.entry i no s).usedBelow i = d.usedBelow i := by
  refine countOf_congr _ fun j hj => ?_
  rw [entry_head hs, if_neg (Nat.ne_of_lt (Finset.mem_range.mp hj))]

/-- Below any slot it counts one more at most. -/
theorem usedBelow_entry_le (hs : s.length < MAX_FILENAME_LEN) :
    (d.entry i no s).usedBelow n ≤ d.usedBelow n + 1 := by
  induction n with
  | zero => simp
  | succ n ih =>
    rw [usedBelow_succ, usedBelow_succ]
    by_cases hn : n = i
    · subst hn
      rw [usedBelow_entry_self hs]
      split_ifs <;> omega
    · have hused : (d.entry i no s).Used n ↔ d.Used n := by
        unfold Used
        rw [entry_head hs, if_neg hn]
      simp only [hused]
      omega

/-- If all are in use, all are counted. -/
theorem usedBelow_of_used (h : ∀ j < n, d.Used j) : d.usedBelow n = n := by
  induction n with
  | zero => rfl
  | succ n ih =>
    rw [usedBelow_succ, if_pos (h n (Nat.lt_succ_self n)), ih fun j hj => h j (by omega)]

/-- A directory keeps its count when it gets an entry. -/
theorem Counted.entry (h : d.Counted) (hs : s.length < MAX_FILENAME_LEN) (hne : s.headD 0 ≠ 0)
    (hi : i < NR_DIRDATA) (hfree : ¬d.Used i) :
    ({ d.entry i no s with size := d.size + 1 } : Inode).Counted := by
  have hold : d.size.toNat = d.usedBelow NR_DIRDATA := h
  have hle : d.usedBelow NR_DIRDATA ≤ 1024 :=
    (countOf_le _ _ _).trans (by rw [Finset.card_range])
  change (d.size + 1).toNat = (d.entry i no s).usedBelow NR_DIRDATA
  rw [usedBelow_entry hs hne hi hfree, UInt32.toNat_add, hold, UInt32.toNat_one,
    Nat.mod_eq_of_lt (by omega)]

/-- ... and its names can be read. -/
theorem Readable.entry {size : UInt32} (h : d.Readable) (hs : s.length < MAX_FILENAME_LEN) (h0 : 0 ∉ s) :
    ({ d.entry i no s with size := size } : Inode).Readable := by
  intro j hj
  have hslot : ({ d.entry i no s with size := size } : Inode).slotName j =
      if j = i then .ok s else d.slotName j := slotName_entry hs h0 j
  rw [hslot]
  split_ifs at hslot ⊢ with hji
  · rw [nameAt_of_slotName hslot]
  · rw [nameAt_congr hslot]
    exact h j hj

end Inode

/-! ### Inodes -/

/-- An inode in the table can be looked up. -/
theorem inodeAt_eq {fs : FileSystem} {d : ℕ} (hd : d < NR_INODE) : fs.inodeAt d = .ok (fs.inode d) := by
  rw [FileSystem.inodeAt, if_pos (by constructor <;> omega), Int.toNat_natCast]

/-- An inode that was looked up is in the table. -/
theorem inodeAt_inv {fs : FileSystem} {v : ℤ} {dir : Inode} (h : fs.inodeAt v = .ok dir) :
    ∃ d < NR_INODE, v = d ∧ dir = fs.inode d := by
  unfold FileSystem.inodeAt at h
  split_ifs at h with hv
  obtain ⟨d, rfl⟩ := Int.eq_ofNat_of_zero_le hv.1
  exact ⟨d, by exact_mod_cast hv.2, rfl, (Except.ok.inj h).symm⟩

/-! ### Scans -/

section Scan

variable {β : Type} {body : ℕ → List UInt8 → β → Except Stop (Bool × β)} {cont : ℕ} {acc : β}

/-- **A scan** stays inside the directory if there are as many slots in use ahead of it as it looks
for. -/
theorem scanDir_inside (hbody : ∀ i s acc, body i s acc ≠ .error (.wild .dirdata))
    (h : d.filenum.toNat + d.usedBelow i ≤ cont + d.usedBelow (i + n)) :
    scanDir d body n i cont acc ≠ .error (.wild .dirdata) := by
  induction n generalizing i cont acc with
  | zero =>
    rw [scanDir, if_neg (by rw [Nat.add_zero] at h; omega)]
    simp
  | succ n ih =>
    have hsucc : i + 1 + n = i + (n + 1) := by omega
    have hstep := d.usedBelow_succ (n := i)
    rw [scanDir]
    split_ifs with hc
    · cases hs : d.slotName i with
      | error x =>
        rw [error_bind]
        rw [Inode.slotName_eq_error hs]
        simp
      | ok s =>
        rw [ok_bind]
        split_ifs with hname
        · have hused : d.Used i := (Inode.slotName_used hs).mpr (mt strcmp_eq_zero.mpr hname)
          cases hb : body i s acc with
          | error x =>
            rw [error_bind]
            intro hx
            obtain rfl := Except.error.inj hx
            exact hbody i s acc hb
          | ok r =>
            rw [ok_bind]
            split_ifs
            · simp
            · refine ih ?_
              rw [hsucc]
              rw [if_pos hused] at hstep
              omega
        · have hfree : ¬d.Used i := fun hu =>
            hname fun hz => (Inode.slotName_used hs).mp hu (strcmp_eq_zero.mp hz)
          refine ih ?_
          rw [hsucc]
          rw [if_neg hfree] at hstep
          omega
    · simp

/-- **What a scan returns** has every property that its start value has and its body keeps. -/
theorem scanDir_inv {P : β → Prop} {r : β} (h : scanDir d body n i cont acc = .ok r) (h0 : P acc)
    (hbody : ∀ j s a q, i ≤ j → j < i + n → d.slotName j = .ok s → s ≠ [] → P a →
      body j s a = .ok q → P q.2) : P r := by
  induction n generalizing i cont acc with
  | zero =>
    rw [scanDir] at h
    split_ifs at h
    obtain rfl := Except.ok.inj h
    exact h0
  | succ n ih =>
    rw [scanDir] at h
    split_ifs at h
    · obtain ⟨s, hs, h⟩ := bind_eq_ok.mp h
      split_ifs at h with hname
      · obtain ⟨q, hq, h⟩ := bind_eq_ok.mp h
        have hkeep := hbody i s acc q (Nat.le_refl i) (by omega) hs (mt strcmp_eq_zero.mpr hname) h0 hq
        split_ifs at h
        · obtain rfl := Except.ok.inj h
          exact hkeep
        · exact ih h hkeep fun j s a q h1 h2 => hbody j s a q (by omega) (by omega)
      · exact ih h h0 fun j s a q h1 h2 => hbody j s a q (by omega) (by omega)
    · obtain rfl := Except.ok.inj h
      exact h0

/-- **A search comes to slot `j`** if its body passes the slots in use before and there are fewer of
them than it looks at. -/
theorem scanDir_comesTo {s : List UInt8} (hij : i ≤ j) (hj : j < i + n)
    (hcont : cont + d.usedBelow j < d.filenum.toNat + d.usedBelow i)
    (hpass : ∀ l, i ≤ l → l < j → ∃ t, d.slotName l = .ok t ∧ (t = [] ∨ body l t acc = .ok (false, acc)))
    (hne : s ≠ []) (hs : d.slotName j = .ok s) :
    ∃ m c, scanDir d body n i cont acc =
      body j s acc >>= fun r => if r.1 then .ok r.2 else scanDir d body m (j + 1) c r.2 := by
  induction n generalizing i cont with
  | zero => omega
  | succ n ih =>
    have hmono := d.usedBelow_mono hij
    have hstep := d.usedBelow_succ (n := i)
    rw [scanDir, if_pos (by omega)]
    rcases Nat.eq_or_lt_of_le hij with rfl | hlt
    · refine ⟨n, cont + 1, ?_⟩
      rw [hs, ok_bind, if_pos (mt strcmp_eq_zero.mp hne)]
    · obtain ⟨t, ht, hcase⟩ := hpass i (Nat.le_refl i) hlt
      have hrest : ∀ c, c + d.usedBelow j < d.filenum.toNat + d.usedBelow (i + 1) →
          ∃ m c', scanDir d body n (i + 1) c acc =
            body j s acc >>= fun r => if r.1 then .ok r.2 else scanDir d body m (j + 1) c' r.2 :=
        fun c hc => ih hlt (by omega) hc fun l h1 h2 => hpass l (by omega) h2
      rw [ht, ok_bind]
      by_cases hnil : t = []
      · rw [if_neg (not_not.mpr (strcmp_eq_zero.mpr hnil))]
        rw [if_neg fun hu => (Inode.slotName_used ht).mp hu hnil] at hstep
        exact hrest _ (by omega)
      · rw [if_pos (mt strcmp_eq_zero.mp hnil), hcase.resolve_left hnil, ok_bind]
        rw [if_pos ((Inode.slotName_used ht).mpr hnil)] at hstep
        exact hrest _ (by omega)

/-- There it ends, if the body finds something or fails. -/
theorem scanDir_stops {x : Except Stop β} (hij : i ≤ j) (hj : j < i + n)
    (hcont : cont + d.usedBelow j < d.filenum.toNat + d.usedBelow i)
    (hpass : ∀ l, i ≤ l → l < j → ∃ t, d.slotName l = .ok t ∧ (t = [] ∨ body l t acc = .ok (false, acc)))
    (hat : ∃ t ≠ [], d.slotName j = .ok t ∧ body j t acc = x.map (Prod.mk true)) :
    scanDir d body n i cont acc = x := by
  obtain ⟨t, hne, ht, hbody⟩ := hat
  obtain ⟨m, c, hscan⟩ := scanDir_comesTo hij hj hcont hpass hne ht
  rw [hscan, hbody]
  cases x with
  | error e => rfl
  | ok r => rfl

/-- A search that passes all slots it comes to is like one for nothing. -/
theorem scanDir_passes
    (hpass : ∀ j s, i ≤ j → j < i + n → cont + d.usedBelow j < d.filenum.toNat + d.usedBelow i →
      (∀ l, i ≤ l → l < j → ∃ t, d.slotName l = .ok t) → d.slotName j = .ok s → s ≠ [] →
      body j s acc = .ok (false, acc)) :
    scanDir d body n i cont acc = scanDir d (fun _ _ a => .ok (false, a)) n i cont acc := by
  induction n generalizing i cont with
  | zero => rfl
  | succ n ih =>
    have hstep := d.usedBelow_succ (n := i)
    rw [scanDir, scanDir]
    split_ifs with hcont
    · cases hs : d.slotName i with
      | error x => rfl
      | ok s =>
        have hrest : ∀ c, c + d.usedBelow i = cont + d.usedBelow (i + 1) →
            scanDir d body n (i + 1) c acc =
              scanDir d (fun _ _ a => .ok (false, a)) n (i + 1) c acc := by
          intro c hc
          refine ih fun j s' h1 h2 h3 hbefore => ?_
          refine hpass j s' (by omega) (by omega) (by omega) ?_
          intro l h4 h5
          rcases Nat.eq_or_lt_of_le h4 with rfl | h4
          · exact ⟨s, hs⟩
          · exact hbefore l h4 h5
        rw [ok_bind, ok_bind]
        split_ifs with hname
        · have hne : s ≠ [] := mt strcmp_eq_zero.mpr hname
          have hat := hpass i s (Nat.le_refl i) (by omega) (by omega) (fun l h1 h2 => by omega) hs hne
          rw [hat, ok_bind, ok_bind]
          rw [if_pos ((Inode.slotName_used hs).mpr hne)] at hstep
          exact hrest _ (by omega)
        · have hnil : s = [] := strcmp_eq_zero.mp (not_not.mp hname)
          rw [if_neg fun hu => (Inode.slotName_used hs).mp hu hnil] at hstep
          exact hrest _ (by omega)
    · rfl

/-- Where a search ends that does not come to its end. -/
theorem scanDir_stopped {r : β}
    (hbody : ∀ j s q, body j s acc = .ok q → q = (false, acc) ∨ q = (true, q.2))
    (h : scanDir d body n i cont acc = .ok r) :
    r = acc ∨ ∃ j, i ≤ j ∧ j < i + n ∧ cont + d.usedBelow j < d.filenum.toNat + d.usedBelow i ∧
      (∀ l, i ≤ l → l < j → ∃ t, d.slotName l = .ok t ∧ (t = [] ∨ body l t acc = .ok (false, acc))) ∧
      ∃ t ≠ [], d.slotName j = .ok t ∧ body j t acc = .ok (true, r) := by
  induction n generalizing i cont with
  | zero =>
    rw [scanDir] at h
    split_ifs at h
    exact .inl (Except.ok.inj h).symm
  | succ n ih =>
    have hstep := d.usedBelow_succ (n := i)
    rw [scanDir] at h
    split_ifs at h with hcont
    · obtain ⟨s, hs, h⟩ := bind_eq_ok.mp h
      -- the slot is passed by, and something is found behind it
      have hnext : ∀ c, c + d.usedBelow i = cont + d.usedBelow (i + 1) →
          (s = [] ∨ body i s acc = .ok (false, acc)) → scanDir d body n (i + 1) c acc = .ok r →
          r = acc ∨ ∃ j, i ≤ j ∧ j < i + (n + 1) ∧
            cont + d.usedBelow j < d.filenum.toNat + d.usedBelow i ∧
            (∀ l, i ≤ l → l < j →
              ∃ t, d.slotName l = .ok t ∧ (t = [] ∨ body l t acc = .ok (false, acc))) ∧
            ∃ t ≠ [], d.slotName j = .ok t ∧ body j t acc = .ok (true, r) := by
        intro c hc hpass h
        refine (ih h).imp id ?_
        rintro ⟨j, h1, h2, h3, hbefore, hat⟩
        refine ⟨j, by omega, by omega, by omega, ?_, hat⟩
        intro l h4 h5
        rcases Nat.eq_or_lt_of_le h4 with rfl | h4
        · exact ⟨s, hs, hpass⟩
        · exact hbefore l h4 h5
      split_ifs at h with hname
      · have hne : s ≠ [] := mt strcmp_eq_zero.mpr hname
        rw [if_pos ((Inode.slotName_used hs).mpr hne)] at hstep
        obtain ⟨q, hq, h⟩ := bind_eq_ok.mp h
        rcases hbody i s q hq with rfl | htrue
        · exact hnext _ (by omega) (.inr hq) h
        · rw [htrue] at hq h
          obtain rfl := Except.ok.inj h
          exact .inr ⟨i, Nat.le_refl i, by omega, by omega, fun l h1 h2 => by omega, s, hne, hs, hq⟩
      · have hnil : s = [] := strcmp_eq_zero.mp (not_not.mp hname)
        rw [if_neg fun hu => (Inode.slotName_used hs).mp hu hnil] at hstep
        exact hnext _ (by omega) (.inl hnil) h
    · exact .inl (Except.ok.inj h).symm

/-- **What a search finds**, in any directory, is the first slot that it is for: all slots before
were read. -/
theorem scanDir_first {H : ℕ → List UInt8 → Prop} {val : ℕ → β} {r : β}
    (hbody : ∀ j s q, body j s acc = .ok q →
      q = (false, acc) ∧ ¬H j s ∨ q = (true, val j) ∧ H j s)
    (h : scanDir d body n i cont acc = .ok r) :
    r = acc ∨ ∃ j s, i ≤ j ∧ j < i + n ∧ d.slotName j = .ok s ∧ s ≠ [] ∧ H j s ∧ r = val j ∧
      ∀ l, i ≤ l → l < j → ∃ t, d.slotName l = .ok t ∧ (t = [] ∨ ¬H l t) := by
  refine (scanDir_stopped ?_ h).imp id ?_
  · intro j s q hq
    rcases hbody j s q hq with ⟨heq, -⟩ | ⟨rfl, -⟩
    · exact .inl heq
    · exact .inr rfl
  · rintro ⟨j, h1, h2, -, hbefore, s, hne, hs, hat⟩
    obtain ⟨heq, hH⟩ := (hbody j s _ hat).resolve_left (by simp)
    refine ⟨j, s, h1, h2, hs, hne, hH, (Prod.mk.inj heq).2, ?_⟩
    intro l h3 h4
    obtain ⟨t, ht, hpass⟩ := hbefore l h3 h4
    refine ⟨t, ht, hpass.imp id fun hb => ?_⟩
    rcases hbody l t _ hb with ⟨-, hno⟩ | ⟨heq, -⟩
    · exact hno
    · cases heq

/-- A scan fails where its body does, at a name that does not end, or behind the last slot. -/
theorem scanDir_error {x : Stop} (h : scanDir d body n i cont acc = .error x) :
    x = .wild .dirdata ∨ (∃ j, i ≤ j ∧ j < i + n ∧ d.slotName j = .error x) ∨
      ∃ j s a, s ≠ [] ∧ body j s a = .error x := by
  induction n generalizing i cont acc with
  | zero =>
    rw [scanDir] at h
    split_ifs at h
    exact .inl (Except.error.inj h).symm
  | succ n ih =>
    have hrest : ∀ c a, scanDir d body n (i + 1) c a = .error x →
        x = .wild .dirdata ∨ (∃ j, i ≤ j ∧ j < i + (n + 1) ∧ d.slotName j = .error x) ∨
          ∃ j s a, s ≠ [] ∧ body j s a = .error x := by
      intro c a h
      refine (ih h).imp id (Or.imp ?_ id)
      rintro ⟨j, h1, h2, hj⟩
      exact ⟨j, by omega, by omega, hj⟩
    rw [scanDir] at h
    split_ifs at h
    rcases bind_eq_error.mp h with hname | ⟨s, -, h⟩
    · exact .inr (.inl ⟨i, Nat.le_refl i, by omega, hname⟩)
    · split_ifs at h with hne
      · rcases bind_eq_error.mp h with hb | ⟨q, -, h⟩
        · exact .inr (.inr ⟨i, s, acc, mt strcmp_eq_zero.mpr hne, hb⟩)
        · split_ifs at h
          exact hrest _ _ h
      · exact hrest _ _ h

/-- The rest of a scan is a search of the slots that are left. -/
theorem scanLoop_eq {hit : ℕ → Bool} {val : ℕ → β}
    (hread : ∀ j, i ≤ j → j < i + n → d.slotName j = .ok (d.nameAt j))
    (hcount : d.filenum.toNat = d.usedBelow (i + n)) (hcont : cont = d.usedBelow i)
    (hbody : ∀ j, i ≤ j → j < i + n → d.Used j →
      body j (d.nameAt j) acc = .ok (hit j, if hit j then val j else acc)) :
    scanDir d body n i cont acc =
      .ok (((List.range' i n).find? fun j => d.Used j && hit j).elim acc val) := by
  induction n generalizing i cont with
  | zero =>
    rw [scanDir, if_neg (by rw [hcount, hcont, Nat.add_zero]; omega)]
    rfl
  | succ n ih =>
    have hsucc : i + 1 + n = i + (n + 1) := by omega
    have hstep := d.usedBelow_succ (n := i)
    have hrest : ∀ c, c = d.usedBelow (i + 1) → scanDir d body n (i + 1) c acc =
        .ok (((List.range' (i + 1) n).find? fun j => d.Used j && hit j).elim acc val) := fun c hc =>
      ih (fun j h1 h2 => hread j (by omega) (by omega)) (by rw [hsucc]; exact hcount) hc
        fun j h1 h2 => hbody j (by omega) (by omega)
    rw [scanDir, List.range'_succ, List.find?_cons]
    split_ifs with hc
    · have hname := hread i (Nat.le_refl i) (by omega)
      have hiff := Inode.slotName_used hname
      rw [hname, ok_bind]
      by_cases hu : d.Used i
      · rw [if_pos (mt strcmp_eq_zero.mp (hiff.mp hu)), hbody i (Nat.le_refl i) (by omega) hu, ok_bind]
        cases hh : hit i with
        | true => simp [hu]
        | false =>
          simp only [Bool.false_eq_true, if_false, Bool.and_false]
          rw [if_pos hu] at hstep
          exact hrest _ (by omega)
      · have hnil : d.nameAt i = [] := by_contra fun hx => hu (hiff.mpr hx)
        rw [if_neg (by rw [hnil]; simp)]
        simp only [hu, decide_false, Bool.false_and]
        rw [if_neg hu] at hstep
        exact hrest _ (by omega)
    · -- no slot in use is left
      have hnone : ∀ j, i ≤ j → j < i + (n + 1) → ¬d.Used j := fun j h1 h2 =>
        Inode.not_used_of_usedBelow (by omega) h1 h2
      have hfind : (List.range' (i + 1) n).find? (fun j => d.Used j && hit j) = none := by
        rw [List.find?_eq_none]
        intro j hj
        have hmem := List.mem_range'_1.mp hj
        simp [hnone j (by omega) (by omega)]
      simp [hnone i (Nat.le_refl i) (by omega), hfind]

/-- **A scan of a whole directory** finds the first slot in use that the body stops at. -/
theorem scanDir_eq {p : ℕ → Bool} {f : ℕ → β} (hread : d.Readable) (hcount : d.Counted)
    (hbody : ∀ j < NR_DIRDATA, d.Used j →
      body j (d.nameAt j) acc = .ok (p j, if p j then f j else acc)) :
    scanDir d body NR_DIRDATA 0 0 acc =
      .ok (((List.range NR_DIRDATA).find? fun j => d.Used j && p j).elim acc f) := by
  rw [List.range_eq_range']
  refine scanLoop_eq (fun j _ hj => hread j ?_) ?_ rfl fun j _ hj => hbody j ?_
  · rwa [Nat.zero_add] at hj
  · rw [Nat.zero_add]
    exact hcount
  · rwa [Nat.zero_add] at hj

end Scan

end OsLab
