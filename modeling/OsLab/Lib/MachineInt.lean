import Mathlib.Algebra.BigOperators.Group.List.Basic
import Mathlib.Algebra.Group.Int.Defs
import Mathlib.Algebra.Order.Ring.Nat
import Mathlib.Data.Int.Basic

/-!
# Machine integers and bit fields

C's `int` and `unsigned int` as integers with an explicit wrap: `i32` is the value that two's
complement stores for an integer, `wordOf` the 32-bit word, and `intOf` reads a word back as an
`int`. Arithmetic on small values does not see the wrap (`i32_eq_self`, `toNat_wordOf`).

A record of adjacent bit fields is the number that its memory holds, lowest field first (`pack`). A
value that is too wide for its field loses its upper bits, as in an assignment to a C bit field:
what is read at the place of a field is what was stored there, cut to its width (`field_pack`).
-/

namespace OsLab.Lib

/-! ### 32 bits -/

/-- The `int` with the same 32 bits as `x`. -/
def i32 (x : ℤ) : ℤ := (x + 2 ^ 31) % 2 ^ 32 - 2 ^ 31

/-- A value in range is kept. -/
theorem i32_eq_self {x : ℤ} (h1 : -2 ^ 31 ≤ x) (h2 : x < 2 ^ 31) : i32 x = x := by
  unfold i32; omega

/-- The result is in range. -/
theorem i32_range (x : ℤ) : -2 ^ 31 ≤ i32 x ∧ i32 x < 2 ^ 31 := by
  unfold i32; omega

/-- The 32-bit word that holds `x`. -/
def wordOf (x : ℤ) : UInt32 := UInt32.ofNat (x % 2 ^ 32).toNat

/-- A word read as an `int`. -/
def intOf (w : UInt32) : ℤ := i32 w.toNat

/-- A value that fits a word is kept. -/
theorem toNat_wordOf {x : ℤ} (h1 : 0 ≤ x) (h2 : x < 2 ^ 32) : ((wordOf x).toNat : ℤ) = x := by
  have h : (x % 2 ^ 32).toNat < 2 ^ 32 := by omega
  rw [wordOf, UInt32.toNat_ofNat_of_lt' h]
  omega

/-- A stored integer is read back, wrapped. -/
theorem intOf_wordOf (x : ℤ) : intOf (wordOf x) = i32 x := by
  have h : (x % 2 ^ 32).toNat < 2 ^ 32 := by omega
  rw [intOf, wordOf, UInt32.toNat_ofNat_of_lt' h]
  unfold i32
  omega

/-! ### Bit fields -/

/-- Fields, each with its width, as one number. -/
def pack : List (ℕ × ℕ) → ℕ
  | [] => 0
  | (w, v) :: fs => v % 2 ^ w + 2 ^ w * pack fs

/-- The `w` bits of `q` from bit `lo` on. -/
def field (q lo w : ℕ) : ℕ := q / 2 ^ lo % 2 ^ w

/-- Where field `i` begins. -/
def place (fs : List (ℕ × ℕ)) (i : ℕ) : ℕ := ((fs.take i).map Prod.fst).sum

/-- Behind the first field. -/
theorem pack_div (w v : ℕ) (fs : List (ℕ × ℕ)) : pack ((w, v) :: fs) / 2 ^ w = pack fs := by
  rw [pack, Nat.add_mul_div_left _ _ (Nat.two_pow_pos w),
    Nat.div_eq_of_lt (Nat.mod_lt _ (Nat.two_pow_pos w)), Nat.zero_add]

/-- **A field holds what was stored in it.** -/
theorem field_pack (fs : List (ℕ × ℕ)) (i : ℕ) {w v : ℕ} (h : fs[i]? = some (w, v)) :
    field (pack fs) (place fs i) w = v % 2 ^ w := by
  induction fs generalizing i with
  | nil => cases h
  | cons f fs ih =>
    obtain ⟨w0, v0⟩ := f
    cases i with
    | zero =>
      obtain ⟨rfl, rfl⟩ := Prod.mk.inj (Option.some.inj h)
      simp [field, place, pack, Nat.add_mul_mod_self_left]
    | succ i =>
      have hplace : place ((w0, v0) :: fs) (i + 1) = w0 + place fs i := by simp [place]
      rw [← ih i h, field, hplace, Nat.pow_add, ← Nat.div_div_eq_div_mul, pack_div]
      rfl

end OsLab.Lib
