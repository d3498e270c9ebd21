import OsLab.Kernel.Base
import Mathlib.Data.List.Lex
import Mathlib.Algebra.Order.Ring.Int

/-!
# Strings in memory, and their order: `strlen` and `strcmp` of `kernel/lib.c`

The model of the file system calls `strcmp` on the characters of a string. Here are the two
functions on memory, with the indices and the lengths of the source, and what they compute.

* `strlen_eq`, `strcmpAt_eq`: on strings of any length both end, and `strcmpAt` returns the
  `strcmp` of the characters.
* `Precedes`: what lexicographic order means, by the first difference or the end of the shorter
  string. `precedes_iff` puts it into Mathlib's order of lists.
* `strcmp_eq_neg_one`, `strcmp_eq_one`: the one induction, over the common prefix.
* **`strcmp_order`**: `strcmp` is this order; the laws of a total order follow from that of lists
  of integers.
-/

namespace OsLab

variable {a b c : List UInt8} {dst src : ℕ → UInt8} {i n : ℕ}

/-! ### In memory -/

/-- The loop of `strlen`, over at most `n` characters from index `i` on. -/
def strlen (src : ℕ → UInt8) : ℕ → ℕ → Option ℕ
  | 0, _ => none
  | n + 1, i => if src i ≠ 0 then strlen src n (i + 1) else some i

/-- The loop of `strcmp` for the next `len` characters: the verdict of the first difference. -/
def strcmpAtLoop (dst src : ℕ → UInt8) : ℕ → ℕ → Option ℤ
  | 0, _ => none
  | len + 1, i =>
    if charVal (dst i) > charVal (src i) then some 1
    else if charVal (dst i) < charVal (src i) then some (-1)
    else strcmpAtLoop dst src len (i + 1)

/-- `strcmp`, where the terminators are among the first `n` characters. -/
def strcmpAt (n : ℕ) (dst src : ℕ → UInt8) : Option ℤ := do
  let len1 ← strlen dst n 0
  let len2 ← strlen src n 0
  let len := if len1 < len2 then len1 else len2
  match strcmpAtLoop dst src len 0 with
  | some r => some r
  | none => if len1 = len2 then some 0 else if len1 > len2 then some 1 else some (-1)

/-- From index `i` on the memory holds the characters `a` and a NUL behind them, the first one. -/
def StringAt (buf : ℕ → UInt8) : ℕ → List UInt8 → Prop
  | i, [] => buf i = 0
  | i, c :: a => buf i = c ∧ c ≠ 0 ∧ StringAt buf (i + 1) a

/-- **`strlen`** finds the terminator. -/
theorem strlen_eq (h : StringAt src i a) (hn : a.length < n) :
    strlen src n i = some (i + a.length) := by
  induction a generalizing i n with
  | nil =>
    have hi : src i = 0 := h
    obtain ⟨n, rfl⟩ := Nat.exists_eq_add_one.mpr hn
    rw [strlen, if_neg (by simp [hi])]
    rfl
  | cons c a ih =>
    obtain ⟨hi, hc, ha⟩ := h
    obtain ⟨n, rfl⟩ := Nat.exists_eq_add_one.mpr (Nat.zero_lt_of_lt hn)
    rw [strlen, if_pos (by rwa [hi]), ih ha (by simpa using hn), List.length_cons]
    congr 1
    omega

/-- The loop over the shorter length is the loop over the characters. -/
theorem strcmpAtLoop_eq (ha : StringAt dst i a) (hb : StringAt src i b) :
    strcmpAtLoop dst src (min a.length b.length) i = strcmpLoop a b := by
  induction a generalizing b i with
  | nil => rw [List.length_nil, Nat.zero_min, strcmpAtLoop, strcmpLoop]; simp
  | cons x a ih =>
    cases b with
    | nil => rw [List.length_nil, Nat.min_zero, strcmpAtLoop, strcmpLoop]; simp
    | cons y b =>
      obtain ⟨hx, -, ha⟩ := ha
      obtain ⟨hy, -, hb⟩ := hb
      rw [List.length_cons, List.length_cons, Nat.succ_min_succ, strcmpAtLoop, strcmpLoop, hx, hy,
        ih ha hb]

/-- **`strcmp`** on strings in memory. -/
theorem strcmpAt_eq (ha : StringAt dst 0 a) (hb : StringAt src 0 b) (hna : a.length < n)
    (hnb : b.length < n) : strcmpAt n dst src = some (strcmp a b) := by
  have hlen : (if a.length < b.length then a.length else b.length) = min a.length b.length := by
    split_ifs <;> omega
  rw [strcmpAt, strlen_eq ha hna, strlen_eq hb hnb]
  simp only [Nat.zero_add, Option.bind_eq_bind, Option.bind_some, hlen, strcmpAtLoop_eq ha hb,
    strcmp]
  cases strcmpLoop a b with
  | some r => rfl
  | none => split_ifs <;> rfl

/-! ### The order -/

/-- `a` comes before `b`: it is a proper prefix, or its character at the first difference is the
smaller one. -/
def Precedes (a b : List UInt8) : Prop :=
  (∃ t, t ≠ [] ∧ b = a ++ t) ∨
    ∃ w x y s t, a = w ++ x :: s ∧ b = w ++ y :: t ∧ charVal x < charVal y

/-- A string as Mathlib orders it. -/
abbrev charVals (a : List UInt8) : List ℤ := a.map charVal

/-- The values tell the bytes. -/
theorem charVals_inj (h : charVals a = charVals b) : a = b :=
  List.map_injective_iff.mpr (fun _ _ => charVal_inj) h

/-- The values of a string, one by one. -/
theorem charVals_cons (x : UInt8) (a : List UInt8) : charVals (x :: a) = charVal x :: charVals a := rfl

/-- The first characters decide, if they differ. -/
theorem strcmp_cons (x y : UInt8) (a b : List UInt8) : strcmp (x :: a) (y :: b) =
    if charVal x > charVal y then 1 else if charVal x < charVal y then -1 else strcmp a b := by
  simp only [strcmp, strcmpLoop, List.length_cons, Nat.add_right_cancel_iff, gt_iff_lt,
    Nat.add_lt_add_iff_right]
  split_ifs <;> rfl

/-- **`strcmp` is the lexicographic comparison**: induction over the common prefix. -/
theorem strcmp_eq_neg_one : strcmp a b = -1 ↔ charVals a < charVals b := by
  induction a generalizing b with
  | nil => cases b <;> simp [strcmp, strcmpLoop]
  | cons x a ih =>
    cases b with
    | nil => simp [strcmp, strcmpLoop]
    | cons y b =>
      rw [strcmp_cons, charVals_cons, charVals_cons, List.cons_lt_cons_iff]
      rcases lt_trichotomy (charVal x) (charVal y) with hlt | heq | hgt
      · simp [hlt, not_lt.mpr hlt.le]
      · simp [heq, ih]
      · simp [hgt, hgt.ne', not_lt.mpr hgt.le]

/-- The arguments exchanged. -/
theorem strcmp_swap (a b : List UInt8) : strcmp a b = -strcmp b a := by
  induction a generalizing b with
  | nil => cases b <;> simp [strcmp, strcmpLoop]
  | cons x a ih =>
    cases b with
    | nil => simp [strcmp, strcmpLoop]
    | cons y b =>
      rw [strcmp_cons, strcmp_cons, ih b]
      rcases lt_trichotomy (charVal x) (charVal y) with hlt | heq | hgt
      · rw [if_neg (by omega), if_pos hlt, if_pos hlt]
      · rw [if_neg (by omega), if_neg (by omega), if_neg (by omega), if_neg (by omega)]
      · rw [if_pos hgt, if_neg (by omega), if_pos hgt, neg_neg]

/-- The sign is 1 exactly if the second string comes first. -/
theorem strcmp_eq_one : strcmp a b = 1 ↔ charVals b < charVals a := by
  rw [strcmp_swap, ← strcmp_eq_neg_one]
  omega

/-- The sign is the order of the strings. -/
theorem strcmp_nonpos : strcmp a b ≤ 0 ↔ charVals a ≤ charVals b := by
  rcases lt_trichotomy (charVals a) (charVals b) with hlt | heq | hgt
  · simp [strcmp_eq_neg_one.mpr hlt, hlt.le]
  · simp [strcmp_eq_zero.mpr (charVals_inj heq), heq]
  · simp [strcmp_eq_one.mpr hgt, hgt]

/-- The first difference, in Mathlib's order of lists. -/
theorem precedes_iff : Precedes a b ↔ charVals a < charVals b := by
  constructor
  · rintro (⟨t, ht, rfl⟩ | ⟨w, x, y, s, t, rfl, rfl, hlt⟩)
    · induction a with
      | nil =>
        obtain ⟨c, t, rfl⟩ := List.exists_cons_of_ne_nil ht
        exact List.nil_lt_cons _ _
      | cons c a ih => exact List.cons_lt_cons_iff.mpr (.inr ⟨rfl, ih⟩)
    · induction w with
      | nil => exact List.cons_lt_cons_iff.mpr (.inl hlt)
      | cons c w ih => exact List.cons_lt_cons_iff.mpr (.inr ⟨rfl, ih⟩)
  · intro h
    induction a generalizing b with
    | nil =>
      cases b with
      | nil => exact absurd h (lt_irrefl _)
      | cons y b => exact .inl ⟨y :: b, by simp, rfl⟩
    | cons x a ih =>
      cases b with
      | nil => exact absurd h (List.not_lt_nil _)
      | cons y b =>
        rcases List.cons_lt_cons_iff.mp h with hlt | ⟨heq, hlt⟩
        · exact .inr ⟨[], x, y, a, b, rfl, rfl, hlt⟩
        · obtain rfl := charVal_inj heq
          rcases ih hlt with ⟨t, ht, rfl⟩ | ⟨w, x', y', s, t, rfl, rfl, hlt'⟩
          · exact .inl ⟨t, ht, rfl⟩
          · exact .inr ⟨x :: w, x', y', s, t, rfl, rfl, hlt'⟩

/-- **`strcmp` is a total order on strings**, the lexicographic one: on any two strings in memory it
returns a value, which is 0 on equal strings only, changes its sign with the order of the arguments,
is transitive, and is -1 or 1 as the one string comes before the other. -/
theorem strcmp_order :
    (∀ (dst src : ℕ → UInt8) (a b : List UInt8) (n : ℕ), StringAt dst 0 a → StringAt src 0 b →
      a.length < n → b.length < n → strcmpAt n dst src = some (strcmp a b)) ∧
    (∀ a b, strcmp a b = 0 ↔ a = b) ∧ (∀ a b, strcmp a b = -strcmp b a) ∧
    (∀ a b c, strcmp a b ≤ 0 → strcmp b c ≤ 0 → strcmp a c ≤ 0) ∧
    ∀ a b, (strcmp a b = -1 ↔ Precedes a b) ∧ (strcmp a b = 1 ↔ Precedes b a) := by
  refine ⟨fun dst src a b n ha hb hna hnb => strcmpAt_eq ha hb hna hnb, fun a b => strcmp_eq_zero,
    strcmp_swap, fun a b c hab hbc => ?_, fun a b => ⟨?_, ?_⟩⟩
  · rw [strcmp_nonpos] at hab hbc ⊢
    exact hab.trans hbc
  · rw [precedes_iff, strcmp_eq_neg_one]
  · rw [precedes_iff, strcmp_eq_one]

/-- `"a"` comes before `"ab"`, and a character from 128 on before every other. -/
theorem strcmp_order_ab : strcmp [97] [97, 98] = -1 ∧ strcmp [0xE4] [97] = -1 ∧
    strcmp [0xE4] [97, 98] ≤ 0 := by
  obtain ⟨-, -, -, htrans, hlex⟩ := strcmp_order
  have hshorter : strcmp [97] [97, 98] = -1 := (hlex _ _).1.mpr (.inl ⟨[98], by simp, rfl⟩)
  have hsigned : strcmp [0xE4] [97] = -1 :=
    (hlex _ _).1.mpr (.inr ⟨[], 0xE4, 97, [], [], rfl, rfl, by decide⟩)
  exact ⟨hshorter, hsigned, htrans _ [97] _ (by rw [hsigned]; decide) (by rw [hshorter]; decide)⟩

end OsLab
