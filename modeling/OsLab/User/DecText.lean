import OsLab.User.HexText

/-!
# Decimal text, there and back

`print_dec` prints a word as a signed integer, with a minus sign in front of a negative one;
`scan_dec` multiplies by 10 and adds in wrapping 32-bit arithmetic, and knows no sign.

* `PrintsDec`: what `print_dec` sends to whatever device it prints to. `printsDec_iff`: it is the
  decimal numeral of the integer, the fixed string for the most negative one included.
* `scanDec_numeral`: digits are read as the number that they stand for.
* `scanDec_minus`: at a minus sign `scan_dec` has read no digit; it stores 0 and leaves the digits.
* `decText_roundtrip_iff`: **`scan_dec` reads back what `print_dec` prints** if and only if the
  integer is not negative.
* `minusOne_reads_zero`: the text `-1`.
-/

namespace OsLab

open OsLab.Lib

variable {text rest before : List UInt8} {c : UInt8} {x : UInt32}

/-- `print_dec` emits these characters for the word, whatever it prints to. -/
def PrintsDec (x : UInt32) (text : List UInt8) : Prop :=
  ∀ (ε σ : Type) (put : UInt8 → σ → Except ε σ) (s : σ), printDec put x s = printString put text s

/-- The text of a number is its decimal numeral. -/
theorem printsDec_iff : PrintsDec x text ↔ text = decimalText (intOf x) := by
  constructor
  · intro h
    -- a device that keeps what it gets tells two texts apart
    have hkeep : ∀ a out : List UInt8,
        printString (fun c out => (.ok (out ++ [c]) : Except Empty (List UInt8))) a out =
          .ok (out ++ a) := by
      intro a
      induction a with
      | nil =>
        intro out
        rw [List.append_nil]
        rfl
      | cons c a ih =>
        intro out
        rw [printString, ok_bind, ih, List.append_assoc]
        rfl
    have hboth := h Empty (List UInt8) (fun c out => .ok (out ++ [c])) []
    rw [printDec_eq, hkeep, hkeep, List.nil_append, List.nil_append] at hboth
    exact (Except.ok.inj hboth).symm
  · intro htext ε σ put s
    rw [htext]
    exact printDec_eq x s

/-- A character that is not in `0`–`9` ends the loop. -/
theorem isDec_eq_false (h : ¬(48 ≤ c.toNat ∧ c.toNat ≤ 57)) : isDec c = false := by
  by_contra hd
  have hval : 48 ≤ charVal c ∧ charVal c ≤ 57 := by simpa [isDec] using hd
  have hlt := c.toNat_lt
  unfold charVal at hval
  split_ifs at hval <;> omega

/-- A numeral is read as its number, modulo `2 ^ 32`. -/
theorem scanDec_numeral (n : ℕ) (hb : ∀ d ∈ before, d = 32 ∨ d = 10)
    (hc : ¬(48 ≤ c.toNat ∧ c.toNat ≤ 57)) :
    scanDec (before ++ numeral 10 n ++ c :: rest) = .ok (UInt32.ofNat n, rest) := by
  have hdigit : ∀ d < 10, isDec (digitChar d) = true := by decide
  exact scanNum_numeral (by decide) (by decide) hdigit n hb (isDec_eq_false hc)

/-- A minus is not read as part of a number. -/
theorem scanDec_minus (hb : ∀ d ∈ before, d = 32 ∨ d = 10) :
    scanDec (before ++ 45 :: rest) = .ok (0, rest) := by
  have hminus : isDec 45 = false := by decide
  rw [scanDec, skipBlanks_append hb (by decide), ok_bind]
  cases rest <;> simp [scanNumLoop, hminus]

/-- **The round trip.** Behind any blanks and in front of any character that is not a digit,
`scan_dec` reads the text of a word and stores the word, if the word is not negative as an integer;
and for a negative one it stores 0. -/
theorem decText_roundtrip_iff (x : UInt32) (text before rest : List UInt8) (c : UInt8)
    (ht : PrintsDec x text) (hb : ∀ d ∈ before, d = 32 ∨ d = 10)
    (hc : ¬(48 ≤ c.toNat ∧ c.toNat ≤ 57)) :
    (scanDec (before ++ text ++ c :: rest) = .ok (x, rest) ↔ 0 ≤ intOf x) ∧
      (intOf x < 0 → ∃ left, scanDec (before ++ text ++ c :: rest) = .ok (0, left)) := by
  rw [printsDec_iff.mp ht]
  by_cases hneg : intOf x < 0
  · have hread : ∃ left, scanDec (before ++ decimalText (intOf x) ++ c :: rest) = .ok (0, left) := by
      rw [decimalText_of_neg hneg, List.append_assoc, List.cons_append]
      exact ⟨_, scanDec_minus hb⟩
    refine ⟨⟨fun h => ?_, fun h => absurd hneg (by omega)⟩, fun _ => hread⟩
    obtain ⟨left, hleft⟩ := hread
    have hx : x = 0 := congrArg Prod.fst (Except.ok.inj (h.symm.trans hleft))
    rw [hx] at hneg
    exact absurd hneg (by decide)
  · have hnat : UInt32.ofNat (intOf x).toNat = x := by
      have hlt := x.toNat_lt
      apply UInt32.toNat_inj.mp
      rw [intOf, i32] at hneg ⊢
      rw [UInt32.toNat_ofNat']
      omega
    refine ⟨⟨fun _ => by omega, fun _ => ?_⟩, fun h => absurd h hneg⟩
    rw [decimalText_of_nonneg hneg, scanDec_numeral _ hb hc, hnat]

/-- The largest number with a sign bit of 0. -/
theorem decText_roundtrip_max : scanDec ([32, 10] ++
    [50, 49, 52, 55, 52, 56, 51, 54, 52, 55] ++ 120 :: [49]) = .ok (0x7FFFFFFF, [49]) := by
  have hprints : PrintsDec 0x7FFFFFFF [50, 49, 52, 55, 52, 56, 51, 54, 52, 55] := by
    apply printsDec_iff.mpr
    have hval : intOf 0x7FFFFFFF = 2147483647 := by decide
    simp [hval, decimalText, numeral, digitChar]
  exact (decText_roundtrip_iff 0x7FFFFFFF _ [32, 10] [49] 120 hprints (by simp) (by decide)).1.mpr
    (by decide)

/-- The word of -1 is printed as `-1`, and what is read is 0. -/
theorem minusOne_reads_zero :
    ¬∀ (x : UInt32) (text before rest : List UInt8) (c : UInt8), PrintsDec x text →
      (∀ d ∈ before, d = 32 ∨ d = 10) → ¬(48 ≤ c.toNat ∧ c.toNat ≤ 57) →
      ∃ left, scanDec (before ++ text ++ c :: rest) = .ok (x, left) := by
  intro h
  have hprints : PrintsDec 0xFFFFFFFF [45, 49] := by
    apply printsDec_iff.mpr
    have hval : intOf 0xFFFFFFFF = -1 := by decide
    simp [hval, decimalText, numeral, digitChar]
  obtain ⟨left, hleft⟩ := h 0xFFFFFFFF _ [] [] 10 hprints (by simp) (by decide)
  have hzero : scanDec ([] ++ 45 :: [49, 10]) = .ok (0, [49, 10]) := scanDec_minus (by simp)
  have hword : (0xFFFFFFFF : UInt32) = 0 := congrArg Prod.fst (Except.ok.inj (hleft.symm.trans hzero))
  exact absurd hword (by decide)

end OsLab
