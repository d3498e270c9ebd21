import OsLab.User.Rendering

/-!
# Hexadecimal text, there and back

`print_hex` prints the most significant digit first, by a recursion whose last step prints the last
digit; `scan_hex` reads from the front and multiplies by 16 in wrapping 32-bit arithmetic.

* `scanNumLoop_digits`: on digits the second loop of `scan_dec` and `scan_hex` is a fold over them.
* `scanNum_numeral`: so a numeral is read as the number it stands for, in any base.
* `hexText_roundtrip`: **`scan_hex` reads back what `print_hex` prints**, behind any blanks and in
  front of any character that is not a digit; only 0 is printed with a leading zero.
-/

namespace OsLab

open OsLab.Lib

variable {text rest before : List UInt8} {c : UInt8} {x : UInt32}

/-- The loop over digits, for any value that it starts from. -/
theorem scanNumLoop_digits {digit : UInt8 → Bool} {base num : UInt32} {ch : UInt8}
    (hch : digit ch = true) (htext : ∀ d ∈ text, digit d = true) (hc : digit c = false) :
    scanNumLoop digit base num ch (text ++ c :: rest) =
      .ok ((ch :: text).foldl (fun n d => n * base + hexVal d) num, rest) := by
  induction text generalizing num ch with
  | nil =>
    cases rest <;> simp [scanNumLoop, hch, hc]
  | cons d text ih =>
    rw [List.cons_append, scanNumLoop, if_pos hch,
      ih (htext d (by simp)) fun d' hd' => htext d' (List.mem_cons_of_mem _ hd')]
    rfl

/-- Blanks in front of a character are skipped. -/
theorem skipBlanks_append (hb : ∀ d ∈ before, d = 32 ∨ d = 10) (hc : ¬(c = 10 ∨ c = 32)) :
    skipBlanks (before ++ c :: rest) = .ok (c, rest) := by
  induction before with
  | nil => rw [List.nil_append, skipBlanks, if_neg hc]
  | cons d before ih =>
    rw [List.cons_append, skipBlanks, if_pos (hb d (by simp)).symm]
    exact ih fun d' hd' => hb d' (List.mem_cons_of_mem _ hd')

/-- The digits are what `scan_hex` takes for digits, with their values. -/
theorem hexVal_digitChar {d : ℕ} (hd : d < 16) :
    isHex (digitChar d) = true ∧ ¬(digitChar d = 10 ∨ digitChar d = 32) ∧
      hexVal (digitChar d) = UInt32.ofNat d := by
  have hall : ∀ d < 16, isHex (digitChar d) = true ∧ ¬(digitChar d = 10 ∨ digitChar d = 32) ∧
      hexVal (digitChar d) = UInt32.ofNat d := by decide
  exact hall d hd

/-- A character that is not in `0`–`9` or `a`–`f` ends the loop. -/
theorem isHex_eq_false (h1 : ¬(48 ≤ c.toNat ∧ c.toNat ≤ 57)) (h2 : ¬(97 ≤ c.toNat ∧ c.toNat ≤ 102)) :
    isHex c = false := by
  by_contra h
  have hval : (48 ≤ charVal c → 57 < charVal c) → 97 ≤ charVal c ∧ charVal c ≤ 102 := by
    simpa [isHex, isDec, isHexLetter] using h
  have hlt := c.toNat_lt
  unfold charVal at hval
  split_ifs at hval <;> omega

/-- **Reading a numeral**, in any base whose digits the loop takes: the value is that of the numeral
in 32-bit arithmetic, and the character behind it is read as well. -/
theorem scanNum_numeral {digit : UInt8 → Bool} {b : ℕ} (hb2 : 2 ≤ b) (hb16 : b ≤ 16)
    (hdigit : ∀ d < b, digit (digitChar d) = true) (n : ℕ)
    (hb : ∀ d ∈ before, d = 32 ∨ d = 10) (hc : digit c = false) :
    (skipBlanks (before ++ numeral b n ++ c :: rest) >>= fun r =>
      scanNumLoop digit (UInt32.ofNat b) 0 r.1 r.2) = .ok (UInt32.ofNat n, rest) := by
  have hdigits : ∀ d ∈ numeral b n, digit d = true ∧ ¬(d = 10 ∨ d = 32) := by
    intro d hd
    obtain ⟨e, he, rfl⟩ := mem_numeral hb2 hd
    exact ⟨hdigit e he, (hexVal_digitChar (he.trans_le hb16)).2.1⟩
  have hfold : (numeral b n).foldl (fun m d => m * UInt32.ofNat b + hexVal d) 0 = UInt32.ofNat n := by
    apply foldl_numeral UInt32.ofNat _ hb2 hb16
    intro m d hd
    rw [(hexVal_digitChar (hd.trans_le hb16)).2.2, UInt32.ofNat_add, UInt32.ofNat_mul]
  cases htext : numeral b n with
  | nil => exact absurd htext (numeral_ne_nil _ _)
  | cons d text =>
    rw [htext] at hdigits hfold
    rw [List.append_assoc, List.cons_append, skipBlanks_append hb (hdigits d (by simp)).2, ok_bind,
      scanNumLoop_digits (hdigits d (by simp)).1
        (fun e he => (hdigits e (List.mem_cons_of_mem _ he)).1) hc, hfold]

/-- **The round trip.** `print_hex` sends the same text to every device, and `scan_hex` reads the
word back from it; the text starts with a 0 only for 0. -/
theorem hexText_roundtrip (x : UInt32) (before rest : List UInt8) (c : UInt8)
    (hb : ∀ d ∈ before, d = 32 ∨ d = 10) (h1 : ¬(48 ≤ c.toNat ∧ c.toNat ≤ 57))
    (h2 : ¬(97 ≤ c.toNat ∧ c.toNat ≤ 102)) :
    ∃ text : List UInt8,
      (∀ (ε σ : Type) (put : UInt8 → σ → Except ε σ) (s : σ),
        printHex put x s = printString put text s) ∧
      scanHex (before ++ text ++ c :: rest) = .ok (x, rest) ∧
      (text.head? = some 48 → x = 0) := by
  refine ⟨numeral 16 x.toNat, fun ε σ put s => printHex_eq x s, ?_, ?_⟩
  · have hread : scanHex (before ++ numeral 16 x.toNat ++ c :: rest) =
        .ok (UInt32.ofNat x.toNat, rest) :=
      scanNum_numeral (by decide) (by decide) (fun d hd => (hexVal_digitChar hd).1) x.toNat hb
        (isHex_eq_false h1 h2)
    rwa [UInt32.ofNat_toNat] at hread
  · intro hhead
    by_contra hx
    have hne : x.toNat ≠ 0 := fun h => hx (UInt32.toNat_inj.mp h)
    exact numeral_head_ne (by decide) (by decide) hne hhead

/-- A number with four digits. -/
theorem hexText_roundtrip_beef : ∃ text : List UInt8,
    (∀ (ε σ : Type) (put : UInt8 → σ → Except ε σ) (s : σ),
      printHex put 0xBEEF s = printString put text s) ∧
    scanHex ([32, 10] ++ text ++ 120 :: [49]) = .ok (0xBEEF, [49]) ∧
    (text.head? = some 48 → (0xBEEF : UInt32) = 0) :=
  hexText_roundtrip 0xBEEF [32, 10] [49] 120 (by simp) (by decide) (by decide)

end OsLab
