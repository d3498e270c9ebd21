import OsLab.Lib.Memory

/-!
# Arrays that are written in pieces

A file is an array with a length (`ArrayFile`). A write puts `n` values from position `o` on and
makes the file as long as it has to be; a read returns the values from a position on, as far as the
file goes.

* `writeAll_byte`: after any writes to any files, a position holds the value that was written there
  last (`lastWritten`), or what it held before.
* `writeAll_size`: and a file is as long as it was, or as far as it was written.
* `read_append`: two reads, the second where the first ended, are one read of both.
-/

namespace OsLab.Lib

/-- An array and the number of its values that count. -/
structure ArrayFile (α : Type) where
  byte : ℕ → α
  size : ℕ

variable {ι α : Type} {o n a x : ℕ} {buf : ℕ → α}

namespace ArrayFile

variable {f : ArrayFile α}

/-- The `n` values `buf 0, …` written from position `o` on. -/
def write (f : ArrayFile α) (o n : ℕ) (buf : ℕ → α) : ArrayFile α where
  byte a := if o ≤ a ∧ a < o + n then buf (a - o) else f.byte a
  size := max f.size (o + n)

/-- What a read of `n` values from position `o` on returns. -/
def read (f : ArrayFile α) (o n : ℕ) : List α := slice f.byte o (min n (f.size - o))

/-- Files with the same bytes and the same size are equal. -/
@[ext] theorem ext {f g : ArrayFile α} (h1 : ∀ a, f.byte a = g.byte a) (h2 : f.size = g.size) : f = g := by
  cases f
  cases g
  simp_all [funext_iff]

/-- A write puts its buffer at its offset. -/
theorem write_byte_inside (h1 : o ≤ a) (h2 : a < o + n) : (f.write o n buf).byte a = buf (a - o) :=
  if_pos ⟨h1, h2⟩

/-- Outside the bytes that are written nothing changes. -/
theorem write_byte_outside (h : a < o ∨ o + n ≤ a) : (f.write o n buf).byte a = f.byte a :=
  if_neg (by omega)

/-- A write makes the file as long as it needs. -/
@[simp] theorem write_size : (f.write o n buf).size = max f.size (o + n) := rfl

/-- What was written is there. -/
theorem slice_write : slice (f.write o n buf).byte o n = slice buf 0 n := by
  apply List.map_congr_left
  intro j hj
  have hlt := List.mem_range.mp hj
  rw [write_byte_inside (by omega) (by omega)]
  congr 1
  omega

/-- What is in front of it stays. -/
theorem slice_write_of_le {m : ℕ} (h : x + m ≤ o) :
    slice (f.write o n buf).byte x m = slice f.byte x m :=
  slice_congr fun _ _ hj => write_byte_outside (by omega)

/-- A read is cut off at the end of the file. -/
@[simp] theorem length_read : (f.read o n).length = min n (f.size - o) := length_slice

/-- The bytes of a read are those from its offset on. -/
theorem getElem?_read {j : ℕ} (h : j < (f.read o n).length) : (f.read o n)[j]? = some (f.byte (o + j)) := by
  rw [length_read] at h
  simp [read, slice, h]

/-- **Two reads**, the second where the first ended, are one read of both. -/
theorem read_append {m : ℕ} : f.read o n ++ f.read (o + min n (f.size - o)) m = f.read o (n + m) := by
  unfold read
  rw [← slice_append]
  congr 1
  omega

/-! As a list. -/

/-- The values that count. -/
def values (f : ArrayFile α) : List α := slice f.byte 0 f.size

/-- A file has as many values as its size says. -/
@[simp] theorem length_values : f.values.length = f.size := length_slice

/-- The list `l` with `buf` written over it from position `o` on; `z` fills a gap. -/
def overwrite (z : α) (l : List α) (o : ℕ) (buf : List α) : List α :=
  (l.rightpad o z).take o ++ buf ++ l.drop (o + buf.length)

/-- The values after a write: the old ones, filled up to the offset, then the buffer, then the old
ones. -/
theorem getElem?_overwrite {z : α} {l buf : List α} : (overwrite z l o buf)[a]? =
    if a < o then some (l[a]?.getD z) else if a < o + buf.length then buf[a - o]? else l[a]? := by
  have hpad : ((l.rightpad o z).take o).length = o := by
    simp [List.rightpad]
    omega
  rw [overwrite, List.append_assoc, List.getElem?_append, hpad]
  split_ifs with h1 h2
  · rw [List.getElem?_take, if_pos h1, List.rightpad, List.getElem?_append]
    split_ifs with hlt
    · rw [List.getElem?_eq_getElem hlt]
      rfl
    · rw [List.getElem?_replicate, if_pos (by omega), List.getElem?_eq_none (by omega)]
      rfl
  · rw [List.getElem?_append_left (by omega)]
  · rw [List.getElem?_append_right (by omega), List.getElem?_drop]
    congr 1
    omega

/-- **A read of an array** is a read of the list. -/
theorem values_read : f.read o n = (f.values.drop o).take n := by
  apply List.ext_getElem?
  intro j
  rw [read, getElem?_slice, List.getElem?_take, List.getElem?_drop, values, getElem?_slice]
  split_ifs with h1 h2 h3
  · rw [Nat.zero_add]
  · omega
  · omega
  · omega
  · rfl
  · rfl

/-- **A write to an array** is a write over the list, if what is in the gap is `z`. -/
theorem values_write {z : α} (hz : ∀ x, f.size ≤ x → x < o → f.byte x = z) :
    (f.write o n buf).values = overwrite z f.values o (slice buf 0 n) := by
  apply List.ext_getElem?
  intro x
  rw [getElem?_overwrite, length_slice, values, getElem?_slice, getElem?_slice, values, getElem?_slice,
    Nat.zero_add, Nat.zero_add, write_size]
  by_cases h1 : x < o
  · rw [if_pos (by omega), if_pos h1, write_byte_outside (.inl h1)]
    by_cases h2 : x < f.size
    · rw [if_pos h2, Option.getD_some]
    · rw [if_neg h2, Option.getD_none, hz x (by omega) h1]
  · by_cases h2 : x < o + n
    · rw [if_pos (by omega), if_neg h1, if_pos h2, if_pos (by omega),
        write_byte_inside (by omega) h2]
    · rw [if_neg h1, if_neg h2, write_byte_outside (by omega)]
      congr 1
      rw [eq_iff_iff]
      omega

/-- What was written over a list is there. -/
theorem read_overwrite {z : α} {l buf : List α} : ((overwrite z l o buf).drop o).take buf.length = buf := by
  apply List.ext_getElem?
  intro j
  rw [List.getElem?_take, List.getElem?_drop, getElem?_overwrite]
  split_ifs with h1 h2 h3
  · omega
  · congr 1
    omega
  · omega
  · rw [List.getElem?_eq_none (by omega)]

end ArrayFile

/-! ### Many writes to many files -/

/-- A write of `buf 0, …, buf (len - 1)` to a file. -/
structure Write (ι α : Type) where
  file : ι
  offset : ℕ
  len : ℕ
  buf : ℕ → α

variable [DecidableEq ι] {files : ι → ArrayFile α} {w : Write ι α} {ws : List (Write ι α)} {i : ι}

/-- The file of a write is written, the others stay. -/
def applyWrite (files : ι → ArrayFile α) (w : Write ι α) : ι → ArrayFile α :=
  Function.update files w.file ((files w.file).write w.offset w.len w.buf)

/-- The writes one after another. -/
def writeAll (files : ι → ArrayFile α) : List (Write ι α) → ι → ArrayFile α
  | [] => files
  | w :: ws => writeAll (applyWrite files w) ws

/-- The value that was written last to position `a` of file `i`. -/
def lastWritten (i : ι) (a : ℕ) : List (Write ι α) → Option α
  | [] => none
  | w :: ws =>
    match lastWritten i a ws with
    | some v => some v
    | none =>
      if w.file = i ∧ w.offset ≤ a ∧ a < w.offset + w.len then some (w.buf (a - w.offset)) else none

/-- How far the writes go in file `i`, if they start at length `n`. -/
def extent (i : ι) (n : ℕ) : List (Write ι α) → ℕ
  | [] => n
  | w :: ws => extent i (if w.file = i then max n (w.offset + w.len) else n) ws

/-- One write, seen from one position. -/
theorem applyWrite_byte : (applyWrite files w i).byte a =
    if w.file = i ∧ w.offset ≤ a ∧ a < w.offset + w.len then w.buf (a - w.offset)
    else (files i).byte a := by
  unfold applyWrite
  by_cases hi : i = w.file
  · subst hi
    rw [Function.update_self]
    simp [ArrayFile.write]
  · rw [Function.update_of_ne hi, if_neg fun h => hi h.1.symm]

/-- A write changes the size of its own file only. -/
theorem applyWrite_size : (applyWrite files w i).size =
    if w.file = i then max (files i).size (w.offset + w.len) else (files i).size := by
  unfold applyWrite
  by_cases hi : i = w.file
  · subst hi
    rw [Function.update_self, if_pos rfl, ArrayFile.write_size]
  · rw [Function.update_of_ne hi, if_neg fun h => hi h.symm]

/-- **A position holds what was written to it last**, or what it held before. -/
theorem writeAll_byte :
    (writeAll files ws i).byte a = (lastWritten i a ws).getD ((files i).byte a) := by
  induction ws generalizing files with
  | nil => rfl
  | cons w ws ih =>
    rw [writeAll, ih, lastWritten]
    cases lastWritten i a ws with
    | some v => rfl
    | none =>
      rw [Option.getD_none, applyWrite_byte]
      split_ifs <;> rfl

/-- **A file is as long** as it was, or as far as it was written. -/
theorem writeAll_size : (writeAll files ws i).size = extent i (files i).size ws := by
  induction ws generalizing files with
  | nil => rfl
  | cons w ws ih => rw [writeAll, ih, extent, applyWrite_size]

/-- `extent` is the largest of the start value and of the ends of the writes. -/
theorem extent_le_iff : extent i n ws ≤ x ↔ n ≤ x ∧ ∀ w ∈ ws, w.file = i → w.offset + w.len ≤ x := by
  induction ws generalizing n with
  | nil => simp [extent]
  | cons w ws ih =>
    rw [extent, ih]
    constructor
    · rintro ⟨h1, h2⟩
      split_ifs at h1 with hi
      · refine ⟨by omega, ?_⟩
        intro w' hw' hi'
        rcases List.mem_cons.mp hw' with rfl | hw'
        · omega
        · exact h2 w' hw' hi'
      · refine ⟨h1, ?_⟩
        intro w' hw' hi'
        rcases List.mem_cons.mp hw' with rfl | hw'
        · exact absurd hi' hi
        · exact h2 w' hw' hi'
    · rintro ⟨h1, h2⟩
      refine ⟨?_, fun w' hw' => h2 w' (List.mem_cons_of_mem _ hw')⟩
      split_ifs with hi
      · have := h2 w (by simp) hi
        omega
      · exact h1

end OsLab.Lib
