import OsLab.Lib.MachineInt
import OsLab.Lib.Runs
import Mathlib.Logic.Function.Basic

/-!
# How the kernel stops, and C strings

`Stop` lists the ways a run of the kernel can end: an `assert` that fails (`abort` prints a message
and halts with interrupts off), a loop that never ends, an access outside the object that the code
means to access, and, for the step function of `Step`, an event that cannot happen in the state.
C gives an access outside its object no meaning, so the model stops there and promises nothing
about what follows.

Three functions of the kernel look for a free slot in a table; they are instances of `firstIndex`.

The second half is `kernel/lib.c` on strings. A string is the list of its characters before the
terminating NUL; `char` is signed on this target, which only `strcmp` can see.
-/

namespace OsLab

/-- The objects an access can miss. -/
inductive Access
  /-- `fs_inodepointer[index]` with `index` outside `0..31`. -/
  | inode
  /-- `dirdata[i]` with `i ≥ 1024`. -/
  | dirdata
  /-- `datablock[i]` with `i` outside `0..32767`. -/
  | datablock
  /-- A 28-byte name buffer: a write past its end, or a read that finds no NUL in it. -/
  | name
  /-- `filepointer[fd]` with `fd` outside `0..7`. -/
  | filepointer
  /-- `sysFileTable[i]` with `i` outside `0..511`. -/
  | sysFileTable
  /-- `BUF[i]` with `i` outside `0..1023`. -/
  | keyBuffer
  /-- A screen cell at or past the kernel's own memory. -/
  | video
  /-- A null or unset pointer, or a string pointer moved past the end of its string. -/
  | pointer
  deriving DecidableEq, Repr

/-- Why a run of the kernel ended. -/
inductive Stop
  /-- An `assert` failed. -/
  | abort
  /-- A loop does not end. -/
  | hang
  /-- An access outside its object. -/
  | wild (a : Access)
  /-- The event cannot happen in this state. -/
  | disabled
  deriving DecidableEq, Repr

/-- `assert(cond)`: `common/assert.h`. -/
def assert (cond : Prop) [Decidable cond] : Except Stop Unit :=
  if cond then .ok () else .error .abort

/-- An assertion lets go on exactly if its condition holds. -/
@[simp] theorem assert_eq_ok {cond : Prop} [Decidable cond] {u : Unit} :
    assert cond = .ok u ↔ cond := by
  unfold assert
  by_cases h : cond <;> simp [h]

/-! ### Free slots -/

/-- `for (i = …; i < …; i++) if (p(i)) return i; return -1`, over the `n` indices from `i` on. -/
def firstIndex (p : ℕ → Prop) [DecidablePred p] : ℕ → ℕ → ℤ
  | 0, _ => -1
  | n + 1, i => if p i then i else firstIndex p n (i + 1)

/-- The search finds an index with the property, or there is none. -/
theorem firstIndex_spec (p : ℕ → Prop) [DecidablePred p] (n i : ℕ) :
    (∃ j, i ≤ j ∧ j < i + n ∧ firstIndex p n i = j ∧ p j) ∨
      firstIndex p n i = -1 ∧ ∀ j, i ≤ j → j < i + n → ¬p j := by
  induction n generalizing i with
  | zero => exact .inr ⟨rfl, fun j h1 h2 => by omega⟩
  | succ n ih =>
    unfold firstIndex
    by_cases hi : p i
    · exact .inl ⟨i, le_refl i, by omega, if_pos hi, hi⟩
    · rw [if_neg hi]
      rcases ih (i + 1) with ⟨j, h1, h2, h3⟩ | ⟨h, hnone⟩
      · exact .inl ⟨j, by omega, by omega, h3⟩
      · refine .inr ⟨h, ?_⟩
        intro j h1 h2
        rcases Nat.eq_or_lt_of_le h1 with rfl | h1
        · exact hi
        · exact hnone j h1 (by omega)

/-! ### `kernel/lib.c`: strings -/

/-- The value of a `char`. -/
def charVal (c : UInt8) : ℤ := if c.toNat < 128 then c.toNat else c.toNat - 256

/-- A `char` tells its byte. -/
theorem charVal_inj {a b : UInt8} (h : charVal a = charVal b) : a = b := by
  have ha := a.toNat_lt
  have hb := b.toNat_lt
  apply UInt8.toNat_inj.mp
  unfold charVal at h
  split_ifs at h <;> omega

/-- The loop of `strcpy` and the NUL behind it: `src` is stored from index `i` on. -/
def strcpy (dst : ℕ → UInt8) (i : ℕ) : List UInt8 → ℕ → UInt8
  | [] => Function.update dst i 0
  | c :: src => strcpy (Function.update dst i c) (i + 1) src

/-- The loop of `strcmp` over the shorter length: the verdict of the first difference, if any. -/
def strcmpLoop : List UInt8 → List UInt8 → Option ℤ
  | a :: dst, b :: src =>
    if charVal a > charVal b then some 1
    else if charVal a < charVal b then some (-1)
    else strcmpLoop dst src
  | _, _ => none

/-- `strcmp`. -/
def strcmp (dst src : List UInt8) : ℤ :=
  match strcmpLoop dst src with
  | some r => r
  | none => if dst.length = src.length then 0 else if dst.length > src.length then 1 else -1

/-- A string does not differ from itself. -/
theorem strcmpLoop_self (a : List UInt8) : strcmpLoop a a = none := by
  induction a with
  | nil => rfl
  | cons c a ih => simp [strcmpLoop, ih]

/-- Where two strings differ, the sign is not 0. -/
theorem strcmpLoop_ne_zero (a b : List UInt8) : strcmpLoop a b ≠ some 0 := by
  induction a generalizing b with
  | nil => simp [strcmpLoop]
  | cons x a ih =>
    cases b with
    | nil => simp [strcmpLoop]
    | cons y b =>
      simp only [strcmpLoop]
      split_ifs
      · simp
      · simp
      · exact ih b

/-- Strings of one length that do not differ are equal. -/
theorem eq_of_strcmpLoop_eq_none {a b : List UInt8} (h : strcmpLoop a b = none)
    (hlen : a.length = b.length) : a = b := by
  induction a generalizing b with
  | nil => exact (List.length_eq_zero_iff.mp hlen.symm).symm
  | cons x a ih =>
    cases b with
    | nil => simp at hlen
    | cons y b =>
      simp only [strcmpLoop] at h
      split_ifs at h with h1 h2
      have hxy : charVal x = charVal y := by omega
      rw [charVal_inj hxy, ih h (by simpa using hlen)]

/-- `strcmp` returns 0 exactly on equal strings. -/
@[simp] theorem strcmp_eq_zero {a b : List UInt8} : strcmp a b = 0 ↔ a = b := by
  constructor
  · intro h
    unfold strcmp at h
    cases hl : strcmpLoop a b with
    | some r =>
      simp only [hl] at h
      exact absurd (h ▸ hl) (strcmpLoop_ne_zero a b)
    | none =>
      simp only [hl] at h
      by_cases h1 : a.length = b.length
      · exact eq_of_strcmpLoop_eq_none hl h1
      · rw [if_neg h1] at h
        split_ifs at h
        simp at h
  · rintro rfl
    simp [strcmp, strcmpLoop_self]

/-- The string at index `i` of a buffer with `n` bytes left: the bytes up to the first NUL. -/
def cstr (buf : ℕ → UInt8) (i : ℕ) : ℕ → Option (List UInt8)
  | 0 => none
  | n + 1 => if buf i = 0 then some [] else (cstr buf (i + 1) n).map (buf i :: ·)

/-- A buffer holds the empty string iff its first byte is NUL. -/
theorem cstr_eq_nil {buf : ℕ → UInt8} {i n : ℕ} : cstr buf i (n + 1) = some [] ↔ buf i = 0 := by
  unfold cstr
  split_ifs with h <;> simp [h]

/-- The string is empty exactly if its first byte is the NUL. -/
theorem cstr_head {buf : ℕ → UInt8} {i n : ℕ} {s : List UInt8} (h : cstr buf i n = some s) :
    s = [] ↔ buf i = 0 := by
  cases n with
  | zero => simp [cstr] at h
  | succ n =>
    constructor
    · rintro rfl; exact cstr_eq_nil.mp h
    · intro h0
      rw [cstr_eq_nil.mpr h0] at h
      exact (Option.some.inj h).symm

end OsLab
