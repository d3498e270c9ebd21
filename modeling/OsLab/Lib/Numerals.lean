import Mathlib.Data.Nat.Digits.Lemmas

/-!
# Numerals

The text of a natural number in a base up to 16, in lower-case digits: Mathlib's digits, most
significant first, with a single 0 for zero.

* `numeral_of_lt` and `numeral_of_le`: the two equations that a printer with recursion on `n / b`
  follows.
* `numeral_head_ne`: no numeral but that of 0 starts with a 0.
* `foldl_numeral`: reading the digits from the left, with any function that knows their values,
  gives the number back; the accumulator may be in any structure that a number can be sent to.
-/

namespace OsLab.Lib

/-- The character of a digit below 16. -/
def digitChar (d : ℕ) : UInt8 := if d < 10 then UInt8.ofNat (48 + d) else UInt8.ofNat (87 + d)

/-- The numeral of `n` in base `b`. -/
def numeral (b n : ℕ) : List UInt8 :=
  if n = 0 then [digitChar 0] else (b.digits n).reverse.map digitChar

variable {b n : ℕ}

/-- A number below the base is one digit. -/
theorem numeral_of_lt (hb : n < b) : numeral b n = [digitChar n] := by
  unfold numeral
  split_ifs with h
  · rw [h]
  · rw [Nat.digits_of_lt b n h hb]
    rfl

/-- A number from the base on ends with its remainder. -/
theorem numeral_of_le (hb : 2 ≤ b) (h : b ≤ n) :
    numeral b n = numeral b (n / b) ++ [digitChar (n % b)] := by
  have hn : n ≠ 0 := by omega
  have hdiv : n / b ≠ 0 := Nat.div_ne_zero_iff.mpr ⟨by omega, h⟩
  unfold numeral
  rw [if_neg hn, if_neg hdiv, Nat.digits_def' (by omega) (by omega)]
  simp

/-- A numeral has a digit. -/
theorem numeral_ne_nil (b n : ℕ) : numeral b n ≠ [] := by
  unfold numeral
  split_ifs with h
  · simp
  · simpa using Nat.digits_ne_nil_iff_ne_zero.mpr h

/-- The digits up to `F` differ. -/
theorem digitChar_inj {d e : ℕ} (hd : d < 16) (he : e < 16) (h : digitChar d = digitChar e) :
    d = e := by
  have hall : ∀ d < 16, ∀ e < 16, digitChar d = digitChar e → d = e := by decide
  exact hall d hd e he h

/-- **No leading zero.** -/
theorem numeral_head_ne (hb : 2 ≤ b) (hb16 : b ≤ 16) (hn : n ≠ 0) :
    (numeral b n).head? ≠ some (digitChar 0) := by
  unfold numeral
  rw [if_neg hn, List.head?_map, List.head?_reverse]
  have hne : b.digits n ≠ [] := Nat.digits_ne_nil_iff_ne_zero.mpr hn
  rw [List.getLast?_eq_some_getLast hne, Option.map_some, ne_eq, Option.some.injEq]
  intro h
  have hlt : (b.digits n).getLast hne < b :=
    Nat.digits_lt_base (by omega) (List.getLast_mem hne)
  have hzero := digitChar_inj (by omega) (by omega) h
  exact Nat.getLast_digit_ne_zero b hn hzero

/-- **Reading a numeral back**: the induction is on the digits of `n`, the last of which is read
last; `f` sends numbers to what the reader computes with. -/
theorem foldl_numeral {α : Type} (f : ℕ → α) (read : α → UInt8 → α) (hb : 2 ≤ b) (hb16 : b ≤ 16)
    (hread : ∀ m d, d < b → read (f m) (digitChar d) = f (m * b + d)) :
    (numeral b n).foldl read (f 0) = f n := by
  induction n using Nat.strong_induction_on with
  | _ n ih =>
    by_cases h : n < b
    · rw [numeral_of_lt h, List.foldl_cons, List.foldl_nil, hread 0 n h]
      simp
    · have hlt : n / b < n := Nat.div_lt_self (by omega) (by omega)
      rw [numeral_of_le hb (by omega), List.foldl_append, ih _ hlt, List.foldl_cons, List.foldl_nil,
        hread _ _ (Nat.mod_lt _ (by omega)), Nat.div_add_mod']

/-- Every character of a numeral is that of a digit. -/
theorem mem_numeral (hb : 2 ≤ b) {c : UInt8} (hc : c ∈ numeral b n) :
    ∃ d < b, c = digitChar d := by
  unfold numeral at hc
  split_ifs at hc with h
  · exact ⟨0, by omega, List.mem_singleton.mp hc⟩
  · obtain ⟨d, hd, rfl⟩ := List.mem_map.mp hc
    exact ⟨d, Nat.digits_lt_base (by omega) (List.mem_reverse.mp hd), rfl⟩

end OsLab.Lib
